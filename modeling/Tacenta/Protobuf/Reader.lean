/-
# Tacenta.Protobuf.Reader -- one field of the protobuf profile

`tacenta-protobuf` below the level of a message: minimal variable-length
integers, tags, length-delimited values, and the writers of each.  The crate's
cursor is an owned buffer and an offset that never passes its end; here it is
what lies behind the offset.  `encodeVarint_eq` and `encodeLengthDelimited_eq`
say what the bounded writers come to: the bytes, unless they pass the limit.
-/
import Tacenta.Base128
import Tacenta.Format

set_option autoImplicit false

namespace Tacenta.Protobuf

open Base128 (spell)

def maxMessageLen : Nat := 16384
def maxFieldNumber : UInt32 := 15
def maxFields : Nat := 32
def maxVarintBytes : Nat := 5

inductive ProtoError where
  | tooLong
  | truncated
  | badVarint
  | notInProfile
  | duplicate
  deriving DecidableEq, Repr

inductive WireType where
  | varint
  | lengthDelimited
  deriving DecidableEq, Repr

structure Tag where
  field : UInt32
  wire : WireType
  deriving DecidableEq, Repr

open ProtoError

/-! ## Reading -/

/-- The loop of `varint`: `factor` is what the next byte is worth. -/
def varintLoop : Nat → UInt32 → UInt32 → Reader ProtoError UInt32
  | 0, _, _ => Reader.refuse badVarint
  | turns + 1, value, factor => do
      let b ← Reader.u8 truncated
      let low := (b % 128).toUInt32
      let part ← Reader.orRefuse (low.checkedMul factor) badVarint
      let value ← Reader.orRefuse (value.checkedAdd part) badVarint
      if b < 128 then
        -- A last byte of nothing is a second spelling of the number before it.
        if factor > 1 ∧ b = 0x00 then Reader.refuse badVarint else pure value
      else do
        let factor ← Reader.orRefuse (factor.checkedMul 128) badVarint
        varintLoop turns value factor

def varint : Reader ProtoError UInt32 := varintLoop maxVarintBytes 0 1

/-- A field number and a wire type, both inside the profile. -/
def decodeTag (raw : UInt32) : Except ProtoError Tag :=
  let field := raw / 8
  let wire := raw % 8
  if field = 0 ∨ field > maxFieldNumber then .error notInProfile
  else if wire = 0 then .ok { field, wire := .varint }
  else if wire = 2 then .ok { field, wire := .lengthDelimited }
  else .error notInProfile

def tag : Reader ProtoError Tag := do
  let raw ← varint
  Reader.lift (decodeTag raw)

/-- The length is compared with what is there before anything is copied. -/
def lengthDelimited : Reader ProtoError Bytes := do
  let len ← varint
  Reader.bytes tooLong len.toNat

/-- The field numbers seen so far. -/
structure FieldSet where
  seen : List UInt32
  deriving DecidableEq, Repr

namespace FieldSet

def new : FieldSet := { seen := [] }

def contains (s : FieldSet) (field : UInt32) : Bool := s.seen.contains field

/-- Record a field number, unless it was seen or there are too many. -/
def admit_ (s : FieldSet) (field : UInt32) : FieldSet × Option ProtoError :=
  if s.contains field then (s, some duplicate)
  else if s.seen.length ≥ maxFields then (s, some tooLong)
  else ({ seen := s.seen ++ [field] }, none)

end FieldSet

/-! ## Writing -/

def pushBounded (bytes : Bytes) (b : UInt8) : Except ProtoError Bytes :=
  if bytes.length ≥ maxMessageLen then .error tooLong else .ok (bytes ++ [b])

/-- A varint being written. -/
structure VarintOut where
  bytes : Bytes
  value : UInt32
  done : Bool
  error : Option ProtoError

def varintStep (st : VarintOut) : VarintOut :=
  let low := (st.value % 128).toUInt8
  let rest := st.value / 128
  let b := if rest = 0 then low else low + 128
  match pushBounded st.bytes b with
  | .ok next =>
      if rest = 0 then { st with bytes := next, done := true }
      else { st with bytes := next, value := rest }
  | .error e => { st with bytes := [], error := some e }

/-- The loop of `encode_varint`. -/
def varintOut : Nat → VarintOut → VarintOut
  | 0, st => st
  | turns + 1, st =>
      if !st.done && st.error.isNone then varintOut turns (varintStep st) else st

def encodeVarint (bytes : Bytes) (value : UInt32) : Except ProtoError Bytes :=
  let st := varintOut maxVarintBytes { bytes, value, done := false, error := none }
  match st.error with
  | some e => .error e
  | none => .ok st.bytes

def wireCode : WireType → UInt32
  | .varint => 0
  | .lengthDelimited => 2

def encodeTag (bytes : Bytes) (field : UInt32) (wire : WireType) : Except ProtoError Bytes :=
  match field.checkedMul 8 with
  | some base =>
      match base.checkedAdd (wireCode wire) with
      | some raw => encodeVarint bytes raw
      | none => .error notInProfile
  | none => .error notInProfile

/-- A copy in progress. -/
structure CopyOut where
  bytes : Bytes
  i : Nat
  error : Option ProtoError

def copyStep (st : CopyOut) (value : Bytes) : CopyOut :=
  match value[st.i]? with
  | none => { st with error := some truncated }
  | some b =>
      match pushBounded st.bytes b with
      | .ok next => { st with bytes := next, i := st.i + 1 }
      | .error e => { st with bytes := [], error := some e }

/-- The loop of `encode_length_delimited`. -/
def copyOut (value : Bytes) : Nat → CopyOut → CopyOut
  | 0, st => st
  | turns + 1, st =>
      if decide (st.i < value.length) && st.error.isNone then
        copyOut value turns (copyStep st value)
      else st

def encodeLengthDelimited (bytes : Bytes) (value : Bytes) : Except ProtoError Bytes :=
  if value.length > maxMessageLen then .error tooLong
  else
    match encodeVarint bytes (UInt32.ofNat value.length) with
    | .error e => .error e
    | .ok withLen =>
        let st := copyOut value maxMessageLen { bytes := withLen, i := 0, error := none }
        match st.error with
        | some e => .error e
        | none => .ok st.bytes

/-! ## What the readers take -/

/-- **`varint` is exact**, from any point of its loop: what follows spells what
the value still lacks, at the place the loop has reached. -/
theorem consumes_varintLoop (turns place : Nat) {value factor : UInt32}
    (worth : factor.toNat = 128 ^ place) :
    Consumes (varintLoop turns value factor) fun used v =>
      ∃ m, used = spell m ∧ v.toNat = value.toNat + 128 ^ place * m ∧ (0 < place → m ≠ 0) := by
  induction turns generalizing place value factor with
  | zero => exact .refuse _
  | succ turns ih =>
      refine .bind (.u8 _) ?_
      rintro _ b rfl
      refine .bind (.orRefuse _) ?_
      rintro _ part ⟨rfl, scaled⟩
      refine .bind (.orRefuse _) ?_
      rintro _ value' ⟨rfl, summed⟩
      rw [UInt32.checkedMul_eq_some] at scaled
      rw [UInt32.checkedAdd_eq_some, scaled] at summed
      have low : ((b % 128).toUInt32).toNat = b.toNat % 128 := by
        rw [UInt8.toNat_toUInt32, UInt8.toNat_mod]
        rfl
      rw [low, worth] at summed
      by_cases last : b < 128
      · rw [if_pos last]
        by_cases padded : factor > 1 ∧ b = 0x00
        · rw [if_pos padded]
          exact .refuse _
        · rw [if_neg padded]
          apply Consumes.of_pure
          have small : b.toNat < 128 := UInt8.lt_iff_toNat_lt.1 last
          refine ⟨b.toNat, by simp [Base128.spell_last last], ?_, ?_⟩
          · rw [summed, Nat.mod_eq_of_lt small, Nat.mul_comm]
          · intro later zero
            refine padded ⟨?_, UInt8.toNat_inj.1 zero⟩
            rw [gt_iff_lt, UInt32.lt_iff_toNat_lt, worth]
            exact Nat.one_lt_pow later.ne' (by decide)
      · rw [if_neg last]
        have large := Base128.top_bit last
        have width := b.toNat_lt
        refine .bind (.orRefuse _) ?_
        rintro _ factor' ⟨rfl, grown⟩
        rw [UInt32.checkedMul_eq_some, worth] at grown
        refine (ih (place + 1) (grown.trans (pow_succ 128 place).symm)).mono ?_
        rintro used v ⟨m, rfl, total, positive⟩
        have positive : m ≠ 0 := positive (Nat.succ_pos place)
        refine ⟨b.toNat - 128 + 128 * m, ?_, ?_, fun _ => by omega⟩
        · simp [Base128.spell_cons last positive]
        · rw [total, summed, pow_succ, show b.toNat % 128 = b.toNat - 128 by omega]
          ring

theorem consumes_varint : Consumes varint fun used v => used = spell v.toNat := by
  refine (consumes_varintLoop maxVarintBytes 0 rfl).mono ?_
  rintro used v ⟨m, rfl, total, -⟩
  rw [total]
  simp

/-- The loop reads every number that is left and fits the word. -/
theorem reads_varintLoop (turns place : Nat) {value factor v : UInt32} {m : Nat}
    (worth : factor.toNat = 128 ^ place) (enough : turns + place = maxVarintBytes)
    (total : v.toNat = value.toNat + 128 ^ place * m) (minimal : 0 < place → m ≠ 0) :
    Reads (varintLoop turns value factor) (spell m) v := by
  have fits := v.toNat_lt
  have place_lt : place < 5 := by
    by_contra late
    have : 128 ^ 5 ≤ 128 ^ place := Nat.pow_le_pow_right (by decide) (by omega)
    have := factor.toNat_lt
    omega
  induction turns generalizing place value factor m with
  | zero =>
      simp only [maxVarintBytes] at enough
      omega
  | succ turns ih =>
      obtain ⟨small, spelled⟩ | ⟨large, b, more, rest, spelled⟩ := Base128.spell_eq_cons m
      · rw [spelled]
        have byte : (UInt8.ofNat m).toNat = m := by
          rw [UInt8.toNat_ofNat', Nat.mod_eq_of_lt (by omega)]
        have low : ((UInt8.ofNat m % 128).toUInt32).toNat = m := by
          rw [UInt8.toNat_toUInt32, UInt8.toNat_mod, byte]
          exact Nat.mod_eq_of_lt small
        obtain ⟨part, scaled⟩ : ∃ part : UInt32, part.toNat = m * 128 ^ place :=
          ⟨UInt32.ofNat (m * 128 ^ place), by
            rw [UInt32.toNat_ofNat', Nat.mod_eq_of_lt (by rw [Nat.mul_comm]; omega)]⟩
        refine .bind_last (Reads.u8 _ _) ?_
        refine .bind_nil (.orRefuse (a := part) _ ?_) (.bind_nil (.orRefuse (a := v) _ ?_) ?_)
        · rw [UInt32.checkedMul_eq_some, low, worth, scaled]
        · rw [UInt32.checkedAdd_eq_some, scaled, total, Nat.mul_comm]
        · have last : UInt8.ofNat m < 128 := by
            rw [UInt8.lt_iff_toNat_lt, byte]
            exact small
          have minimal' : ¬(factor > 1 ∧ UInt8.ofNat m = 0x00) := by
            rintro ⟨later, zero⟩
            rw [gt_iff_lt, UInt32.lt_iff_toNat_lt, worth] at later
            have : m = 0 := by
              rw [← byte, zero]
              rfl
            refine minimal (Nat.pos_of_ne_zero ?_) this
            rintro rfl
            exact absurd later (by decide)
          rw [if_pos last, if_neg minimal']
          exact .of_pure v
      · rw [spelled]
        have top := Base128.top_bit more
        have width := b.toNat_lt
        have low : ((b % 128).toUInt32).toNat = m % 128 := by
          rw [UInt8.toNat_toUInt32, UInt8.toNat_mod]
          show b.toNat % 128 = m % 128
          omega
        -- The place after this one is still inside the word, since `m` needs it.
        have next : 128 ^ place * 128 ≤ 128 ^ place * m := Nat.mul_le_mul_left _ large
        have split : 128 ^ place * m =
            m % 128 * 128 ^ place + 128 ^ (place + 1) * (m / 128) := by
          conv_lhs => rw [← Nat.mod_add_div m 128]
          ring
        obtain ⟨part, scaled⟩ : ∃ part : UInt32, part.toNat = m % 128 * 128 ^ place :=
          ⟨UInt32.ofNat (m % 128 * 128 ^ place), by
            rw [UInt32.toNat_ofNat', Nat.mod_eq_of_lt (by omega)]⟩
        obtain ⟨value', summed⟩ : ∃ value' : UInt32, value'.toNat = value.toNat + part.toNat :=
          ⟨UInt32.ofNat (value.toNat + part.toNat), by
            rw [UInt32.toNat_ofNat', Nat.mod_eq_of_lt (by omega)]⟩
        obtain ⟨factor', grown⟩ : ∃ factor' : UInt32, factor'.toNat = 128 ^ place * 128 :=
          ⟨UInt32.ofNat (128 ^ place * 128), by
            rw [UInt32.toNat_ofNat', Nat.mod_eq_of_lt (by omega)]⟩
        refine .bind (Reads.u8 _ _) ?_
        refine .bind_nil (.orRefuse (a := part) _ ?_) (.bind_nil (.orRefuse (a := value') _ ?_) ?_)
        · rw [UInt32.checkedMul_eq_some, low, worth, scaled]
        · rw [UInt32.checkedAdd_eq_some, summed]
        · rw [if_neg more]
          refine .bind_nil (.orRefuse (a := factor') _ ?_) ?_
          · rw [UInt32.checkedMul_eq_some, worth, grown]
            rfl
          · have later : 128 ^ (place + 1) < 2 ^ 32 := by
              rw [pow_succ]
              omega
            refine ih (place + 1) (grown.trans (pow_succ 128 place).symm) (by omega) ?_ ?_ ?_
            · rw [summed, scaled, total, split]
              omega
            · intro _
              omega
            · by_contra late
              have : 128 ^ 5 ≤ 128 ^ (place + 1) := Nat.pow_le_pow_right (by decide) (by omega)
              omega

/-- **`varint` reads what `spell` writes.** -/
theorem reads_varint (v : UInt32) : Reads varint (spell v.toNat) v :=
  reads_varintLoop maxVarintBytes 0 rfl rfl (by simp) fun later => absurd later (by decide)

theorem decodeTag_eq_ok {raw : UInt32} {t : Tag} :
    decodeTag raw = .ok t ↔ raw.toNat = t.field.toNat * 8 + (wireCode t.wire).toNat ∧
      t.field ≠ 0 ∧ t.field ≤ maxFieldNumber := by
  have quotient : (raw / 8).toNat = raw.toNat / 8 := UInt32.toNat_div raw 8
  have remainder : (raw % 8).toNat = raw.toNat % 8 := UInt32.toNat_mod raw 8
  have zero : raw % 8 = 0 ↔ raw.toNat % 8 = 0 := by rw [← UInt32.toNat_inj, remainder]; rfl
  have two : raw % 8 = 2 ↔ raw.toNat % 8 = 2 := by rw [← UInt32.toNat_inj, remainder]; rfl
  have same : ∀ field : UInt32, raw / 8 = field ↔ raw.toNat / 8 = field.toNat := by
    intro field
    rw [← UInt32.toNat_inj, quotient]
  obtain ⟨field, wire⟩ := t
  unfold decodeTag
  constructor
  · intro decoded
    simp only at decoded
    split at decoded
    · cases decoded
    · rename_i inside
      rw [not_or, UInt32.not_lt] at inside
      split at decoded
      · rename_i code
        cases decoded
        refine ⟨?_, inside⟩
        rw [quotient]
        show raw.toNat = raw.toNat / 8 * 8 + 0
        have := zero.1 code
        omega
      · split at decoded
        · rename_i code
          cases decoded
          refine ⟨?_, inside⟩
          rw [quotient]
          show raw.toNat = raw.toNat / 8 * 8 + 2
          have := two.1 code
          omega
        · cases decoded
  · rintro ⟨number, nonzero, known⟩
    have inside : ¬(field = 0 ∨ field > maxFieldNumber) := by
      rw [not_or, gt_iff_lt, UInt32.not_lt]
      exact ⟨nonzero, known⟩
    cases wire with
    | varint =>
        have number : raw.toNat = field.toNat * 8 + 0 := number
        simp only [(same field).2 (by omega), if_neg inside, zero.2 (by omega), if_true]
    | lengthDelimited =>
        have number : raw.toNat = field.toNat * 8 + 2 := number
        have code : ¬raw % 8 = 0 := fun h => by
          have := zero.1 h
          omega
        simp only [(same field).2 (by omega), if_neg inside, if_neg code,
          if_pos (two.2 (by omega : raw.toNat % 8 = 2))]

/-- A tag inside the profile, spelled. -/
def Tag.spell (t : Tag) : Bytes := Base128.spell (t.field.toNat * 8 + (wireCode t.wire).toNat)

def Tag.Known (t : Tag) : Prop := t.field ≠ 0 ∧ t.field ≤ maxFieldNumber

instance (t : Tag) : Decidable t.Known := inferInstanceAs (Decidable (_ ∧ _))

theorem consumes_tag : Consumes tag fun used t => used = t.spell ∧ t.Known := by
  refine .bind consumes_varint ?_
  rintro _ raw rfl
  refine Consumes.lift.mono ?_
  rintro _ t ⟨rfl, decoded⟩
  obtain ⟨number, known⟩ := decodeTag_eq_ok.1 decoded
  exact ⟨by rw [List.append_nil, number, Tag.spell], known⟩

theorem wireCode_le (wire : WireType) : (wireCode wire).toNat ≤ 2 := by
  cases wire <;> decide

theorem reads_tag {t : Tag} (known : t.Known) : Reads tag t.spell t := by
  have small : t.field.toNat ≤ 15 := UInt32.le_iff_toNat_le.1 known.2
  have code := wireCode_le t.wire
  have word : (UInt32.ofNat (t.field.toNat * 8 + (wireCode t.wire).toNat)).toNat =
      t.field.toNat * 8 + (wireCode t.wire).toNat := by
    rw [UInt32.toNat_ofNat', Nat.mod_eq_of_lt (by omega)]
  have first := reads_varint (UInt32.ofNat (t.field.toNat * 8 + (wireCode t.wire).toNat))
  rw [word] at first
  exact .bind_last first (.lift (decodeTag_eq_ok.2 ⟨word, known⟩))

theorem consumes_lengthDelimited :
    Consumes lengthDelimited fun used l => used = spell l.length ++ l := by
  refine .bind consumes_varint ?_
  rintro _ len rfl
  refine (Consumes.bytes _ _).mono ?_
  rintro _ l ⟨rfl, length⟩
  rw [length]

theorem reads_lengthDelimited {l : Bytes} (small : l.length < 2 ^ 32) :
    Reads lengthDelimited (spell l.length ++ l) l := by
  have word : (UInt32.ofNat l.length).toNat = l.length := by
    rw [UInt32.toNat_ofNat', Nat.mod_eq_of_lt small]
  have first := reads_varint (UInt32.ofNat l.length)
  rw [word] at first
  exact first.bind (Reads.bytes _ word.symm)

/-! ## What the writers come to -/

/-- The bytes, unless they pass the limit. -/
def bounded (bytes : Bytes) : Except ProtoError Bytes :=
  if bytes.length ≤ maxMessageLen then .ok bytes else .error tooLong

theorem bounded_short {bytes : Bytes} (short : bytes.length ≤ maxMessageLen) :
    bounded bytes = .ok bytes := if_pos short

theorem bounded_long {bytes : Bytes} (long : maxMessageLen < bytes.length) :
    bounded bytes = .error tooLong := if_neg (Nat.not_le_of_lt long)

theorem pushBounded_eq (bytes : Bytes) (b : UInt8) :
    pushBounded bytes b = bounded (bytes ++ [b]) := by
  unfold pushBounded bounded
  rw [List.length_append, List.length_singleton]
  by_cases full : bytes.length ≥ maxMessageLen
  · rw [if_pos full, if_neg (by omega)]
  · rw [if_neg full, if_pos (by omega)]

def VarintOut.finish (st : VarintOut) : Except ProtoError Bytes :=
  match st.error with
  | some e => .error e
  | none => .ok st.bytes

/-- A writer that is done, or has refused, is left as it is. -/
theorem varintOut_ended (turns : Nat) {st : VarintOut} (ended : st.done = true ∨ st.error.isSome) :
    varintOut turns st = st := by
  cases turns with
  | zero => rfl
  | succ turns =>
      rw [varintOut, if_neg]
      obtain done | refused := ended
      · simp [done]
      · cases h : st.error with
        | none => simp [h] at refused
        | some e => simp

/-- The loop writes what is left of the value. -/
theorem varintOut_finish (turns : Nat) (bytes : Bytes) (value : UInt32)
    (fits : value.toNat < 128 ^ turns) (some_ : 0 < turns) :
    (varintOut turns { bytes := bytes, value := value, done := false, error := none }).finish =
      bounded (bytes ++ spell value.toNat) := by
  induction turns generalizing bytes value with
  | zero => exact absurd some_ (by decide)
  | succ turns ih =>
      have quotient : (value / 128).toNat = value.toNat / 128 := UInt32.toNat_div value 128
      have low : ((value % 128).toUInt8).toNat = value.toNat % 128 := by
        rw [UInt32.toNat_toUInt8, UInt32.toNat_mod]
        show value.toNat % 128 % 2 ^ 8 = value.toNat % 128
        omega
      have ended : value / 128 = 0 ↔ value.toNat < 128 := by
        rw [← UInt32.toNat_inj, quotient]
        show value.toNat / 128 = 0 ↔ _
        omega
      rw [varintOut, if_pos (by rfl), varintStep]
      simp only [pushBounded_eq]
      by_cases small : value.toNat < 128
      · have byte : (value % 128).toUInt8 = UInt8.ofNat value.toNat := by
          rw [← UInt8.toNat_inj, low, UInt8.toNat_ofNat', Nat.mod_eq_of_lt small,
            Nat.mod_eq_of_lt (by omega)]
        rw [if_pos (ended.2 small), byte, Base128.spell_small small]
        cases bounded (bytes ++ [UInt8.ofNat value.toNat]) with
        | ok next =>
            simp only [if_pos (ended.2 small)]
            rw [varintOut_ended turns (.inl rfl)]
            rfl
        | error e =>
            rw [varintOut_ended turns (.inr rfl)]
            rfl
      · have byte : (value % 128).toUInt8 + 128 = UInt8.ofNat (value.toNat % 128 + 128) := by
          rw [← UInt8.toNat_inj, UInt8.toNat_add, low, UInt8.toNat_ofNat']
          rfl
        rw [if_neg (mt ended.1 small), byte, Base128.spell_large (Nat.le_of_not_lt small)]
        have joined : bytes ++ (UInt8.ofNat (value.toNat % 128 + 128) :: spell (value.toNat / 128)) =
            bytes ++ [UInt8.ofNat (value.toNat % 128 + 128)] ++ spell (value / 128).toNat := by
          rw [quotient, List.append_assoc, List.singleton_append]
        rw [joined]
        by_cases room : (bytes ++ [UInt8.ofNat (value.toNat % 128 + 128)]).length ≤ maxMessageLen
        · rw [bounded_short room]
          simp only [if_neg (mt ended.1 small)]
          have more : 0 < turns := by
            apply Nat.pos_of_ne_zero
            rintro rfl
            simp only [Nat.zero_add, pow_one] at fits
            exact small fits
          refine ih _ _ ?_ more
          rw [quotient]
          rw [pow_succ] at fits
          exact Nat.div_lt_of_lt_mul (by omega)
        · rw [bounded_long (Nat.lt_of_not_le room), bounded_long]
          · rw [varintOut_ended turns (.inr rfl)]
            rfl
          · rw [List.length_append]
            omega

/-- **The varint writer** appends the minimal spelling, within the limit. -/
theorem encodeVarint_eq (bytes : Bytes) (value : UInt32) :
    encodeVarint bytes value = bounded (bytes ++ spell value.toNat) := by
  have fits : value.toNat < 128 ^ maxVarintBytes := value.toNat_lt.trans (by decide)
  exact varintOut_finish maxVarintBytes bytes value fits (by decide)

theorem encodeTag_eq (bytes : Bytes) {t : Tag} (known : t.Known) :
    encodeTag bytes t.field t.wire = bounded (bytes ++ t.spell) := by
  have small : t.field.toNat ≤ 15 := UInt32.le_iff_toNat_le.1 known.2
  have code := wireCode_le t.wire
  obtain ⟨base, scaled⟩ : ∃ base : UInt32, base.toNat = t.field.toNat * 8 :=
    ⟨UInt32.ofNat (t.field.toNat * 8), by rw [UInt32.toNat_ofNat', Nat.mod_eq_of_lt (by omega)]⟩
  obtain ⟨raw, summed⟩ : ∃ raw : UInt32, raw.toNat = base.toNat + (wireCode t.wire).toNat :=
    ⟨UInt32.ofNat (base.toNat + (wireCode t.wire).toNat), by
      rw [UInt32.toNat_ofNat', Nat.mod_eq_of_lt (by omega)]⟩
  rw [encodeTag, UInt32.checkedMul_eq_some.2 scaled]
  simp only [UInt32.checkedAdd_eq_some.2 summed]
  rw [encodeVarint_eq, summed, scaled, Tag.spell]

def CopyOut.finish (st : CopyOut) : Except ProtoError Bytes :=
  match st.error with
  | some e => .error e
  | none => .ok st.bytes

/-- A copy that has refused is left as it is. -/
theorem copyOut_ended (value : Bytes) (turns : Nat) {st : CopyOut} (refused : st.error.isSome) :
    copyOut value turns st = st := by
  cases turns with
  | zero => rfl
  | succ turns =>
      rw [copyOut, if_neg]
      cases h : st.error with
      | none => simp [h] at refused
      | some e => simp

/-- The loop copies what is left of the value. -/
theorem copyOut_finish (value : Bytes) (turns : Nat) (bytes : Bytes) (i : Nat)
    (enough : value.length ≤ i + turns) (inside : i ≤ value.length)
    (room : bytes.length ≤ maxMessageLen) :
    (copyOut value turns { bytes := bytes, i := i, error := none }).finish =
      bounded (bytes ++ value.drop i) := by
  induction turns generalizing bytes i with
  | zero =>
      rw [List.drop_eq_nil_of_le (by omega), List.append_nil, bounded_short room]
      rfl
  | succ turns ih =>
      by_cases more : i < value.length
      · have byte : value[i]? = some value[i] := List.getElem?_eq_getElem more
        rw [copyOut, if_pos (by simp [more]), copyStep]
        simp only [byte, pushBounded_eq]
        have joined : bytes ++ value.drop i = bytes ++ [value[i]] ++ value.drop (i + 1) := by
          rw [List.drop_eq_getElem_cons more, List.append_assoc, List.singleton_append]
        rw [joined]
        by_cases fits : (bytes ++ [value[i]]).length ≤ maxMessageLen
        · rw [bounded_short fits]
          exact ih _ _ (by omega) (by omega) fits
        · rw [bounded_long (Nat.lt_of_not_le fits), bounded_long]
          · simp only
            rw [copyOut_ended value turns rfl]
            rfl
          · rw [List.length_append]
            omega
      · rw [copyOut, if_neg (by simp [more]), List.drop_eq_nil_of_le (by omega), List.append_nil,
          bounded_short room]
        rfl

/-- **The length-delimited writer** appends the length and the value, within the
limit. -/
theorem encodeLengthDelimited_eq (bytes value : Bytes) :
    encodeLengthDelimited bytes value = bounded (bytes ++ (spell value.length ++ value)) := by
  unfold encodeLengthDelimited
  by_cases large : value.length > maxMessageLen
  · rw [if_pos large, bounded_long]
    rw [List.length_append, List.length_append]
    omega
  · have small : value.length ≤ 16384 := Nat.le_of_not_lt large
    have word : (UInt32.ofNat value.length).toNat = value.length := by
      rw [UInt32.toNat_ofNat', Nat.mod_eq_of_lt (by omega)]
    rw [if_neg large, encodeVarint_eq, word]
    by_cases room : (bytes ++ spell value.length).length ≤ maxMessageLen
    · rw [bounded_short room, ← List.append_assoc]
      exact copyOut_finish value maxMessageLen _ 0 (by rw [Nat.zero_add]; exact small) (by omega) room
    · rw [bounded_long (Nat.lt_of_not_le room), bounded_long]
      rw [← List.append_assoc, List.length_append]
      omega

end Tacenta.Protobuf
