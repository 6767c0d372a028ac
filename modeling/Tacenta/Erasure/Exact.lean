/-
# Tacenta.Erasure.Exact -- a stored coder has one spelling, on every target

`Encoder::from_bytes` and `Decoder::from_bytes` position by position, on a
`usize` of `w` bits: counts bounded before the loop over entries runs, the two
stored sizes bounded as 64-bit numbers before they are narrowed, and the
invariant last, over a bitset of the indices held.  Each is the reader of
`Tacenta.Erasure.Codec`, so what it accepts is what `to_bytes` writes of a coder
within its invariant, for 32-bit and 64-bit targets alike.
-/
import Tacenta.Entries
import Tacenta.Erasure.Codec

set_option autoImplicit false

namespace Tacenta.Erasure

open Indexed (add asUsize index refuse require)

/-! ## The bitset -/

/-- The bit of an index in its byte. -/
def seenBit (index : UInt16) : UInt8 := 1 <<< UInt8.ofNat (index.toNat % 8)

/-- The pass over the indices held: every one is marked, and a mark that was
there clears the flag; the pass runs to the end either way. -/
def distinctPass : List Chunk → List UInt8 → Bool → Bool
  | [], _, distinct => distinct
  | c :: rest, seen, distinct =>
      let word := c.index.toNat / 8
      let mark := seen.getD word 0
      distinctPass rest (seen.set word (mark ||| seenBit c.index))
        (if mark &&& seenBit c.index ≠ 0 then false else distinct)

/-- `Decoder::invariant`, as the crate computes it. -/
def Decoder.invariantPass (dec : Decoder) : Bool :=
  decide (dec.needed = chunkCount dec.size) && decide (dec.needed ≤ maxCodewords) &&
    decide (dec.held.length ≤ dec.needed) &&
    distinctPass dec.held (List.replicate (maxCodewords / 8) 0) true

/-- Index `i` is marked. -/
def Marked (seen : List UInt8) (i : Nat) : Prop := (seen.getD (i / 8) 0).toNat.testBit (i % 8)

instance (seen : List UInt8) (i : Nat) : Decidable (Marked seen i) :=
  inferInstanceAs (Decidable (_ = true))

theorem seenBit_toNat (index : UInt16) : (seenBit index).toNat = 2 ^ (index.toNat % 8) := by
  have each : ∀ k < 8, ((1 : UInt8) <<< UInt8.ofNat k).toNat = 2 ^ k := by decide
  exact each _ (Nat.mod_lt _ (by decide))

theorem marked_here (seen : List UInt8) (index : UInt16) :
    seen.getD (index.toNat / 8) 0 &&& seenBit index ≠ 0 ↔ Marked seen index.toNat := by
  rw [Ne, ← UInt8.toNat_inj, UInt8.toNat_and, seenBit_toNat, Nat.and_two_pow, Marked]
  cases (seen.getD (index.toNat / 8) 0).toNat.testBit (index.toNat % 8) <;> simp

theorem marked_none (n i : Nat) : ¬ Marked (List.replicate n 0) i := by
  have unset : (List.replicate n (0 : UInt8)).getD (i / 8) 0 = 0 := by
    rw [List.getD_eq_getElem?_getD, List.getElem?_replicate]
    split <;> rfl
  rw [Marked, unset]
  simp

theorem marked_set {seen : List UInt8} (wide : seen.length = maxCodewords / 8) (index : UInt16)
    (i : Nat) :
    Marked (seen.set (index.toNat / 8) (seen.getD (index.toNat / 8) 0 ||| seenBit index)) i ↔
      Marked seen i ∨ i = index.toNat := by
  have inside : index.toNat / 8 < seen.length := by
    have bound := index.toNat_lt
    rw [wide]
    show index.toNat / 8 < 8192
    omega
  by_cases same : index.toNat / 8 = i / 8
  · have there : (seen.set (index.toNat / 8) (seen.getD (index.toNat / 8) 0 ||| seenBit index)).getD
        (i / 8) 0 = seen.getD (i / 8) 0 ||| seenBit index := by
      rw [← same, List.getD_eq_getElem?_getD, List.getElem?_set_self inside]
      rfl
    rw [Marked, there, UInt8.toNat_or, Nat.testBit_or, seenBit_toNat, Nat.testBit_two_pow,
      Bool.or_eq_true, decide_eq_true_eq, Marked]
    constructor
    · rintro (marked | bit)
      · exact .inl marked
      · exact .inr (by omega)
    · rintro (marked | rfl)
      · exact .inl marked
      · exact .inr rfl
  · have there : (seen.set (index.toNat / 8) (seen.getD (index.toNat / 8) 0 ||| seenBit index)).getD
        (i / 8) 0 = seen.getD (i / 8) 0 := by
      rw [List.getD_eq_getElem?_getD, List.getElem?_set_ne same, ← List.getD_eq_getElem?_getD]
    rw [Marked, there]
    constructor
    · intro marked
      exact .inl marked
    · rintro (marked | rfl)
      · exact marked
      · exact absurd rfl same

/-- The pass accepts distinct indices of which none was marked. -/
theorem distinctPass_iff {held : List Chunk} {seen : List UInt8} {distinct : Bool}
    (wide : seen.length = maxCodewords / 8) :
    distinctPass held seen distinct = true ↔ distinct = true ∧
      (held.Pairwise fun a b => a.index ≠ b.index) ∧ ∀ c ∈ held, ¬ Marked seen c.index.toNat := by
  induction held generalizing seen distinct with
  | nil => simp [distinctPass]
  | cons c rest ih =>
      have marks := marked_set wide c.index
      rw [distinctPass, ih (by simpa using wide), List.pairwise_cons]
      simp only [marks, not_or, List.forall_mem_cons, marked_here]
      have flag : (if Marked seen c.index.toNat then false else distinct) = true ↔
          distinct = true ∧ ¬ Marked seen c.index.toNat := by
        by_cases marked : Marked seen c.index.toNat <;> simp [marked]
      rw [flag]
      constructor
      · rintro ⟨⟨was, fresh⟩, others, rest_⟩
        refine ⟨was, ⟨fun d here same => ?_, others⟩, fresh, fun d here => (rest_ d here).1⟩
        exact (rest_ d here).2 (congrArg UInt16.toNat same.symm)
      · rintro ⟨was, ⟨other, others⟩, fresh, rest_⟩
        refine ⟨⟨was, fresh⟩, others, fun d here => ⟨rest_ d here, fun same => ?_⟩⟩
        exact other d here (UInt16.toNat_inj.1 same.symm)

/-- **The bitset finds every index held twice.** -/
theorem Decoder.invariantPass_eq (dec : Decoder) : dec.invariantPass = dec.invariant := by
  have pass : distinctPass dec.held (List.replicate (maxCodewords / 8) 0) true =
      decide (dec.held.Pairwise fun a b => a.index ≠ b.index) := by
    rw [Bool.eq_iff_iff, distinctPass_iff (List.length_replicate ..), decide_eq_true_eq]
    simp only [marked_none, not_false_eq_true, implies_true, and_true, true_and]
  rw [Decoder.invariantPass, pass, Decoder.invariant]

/-! ## Position by position -/

/-- `u16::from_be_bytes` of the two bytes at `pos`. -/
def u16At (w : Nat) (bytes : Bytes) (pos : Nat) : Indexed Unit UInt16 :=
  (fun a : Arr 2 => UInt16.ofNat (ofBe a.toList)) <$> Indexed.arr w 2 bytes pos

def readFlagAt (bytes : Bytes) (pos : Nat) : Indexed Unit Bool := do
  let b ← index bytes pos
  if b = 0x00 then .ok false else if b = 0x01 then .ok true else refuse ()

/-- One entry of the encoder's loop. -/
def Encoder.chunkAt (w : Nat) (bytes : Bytes) (pos : Nat) : Indexed Unit (Arr 32) := do
  let stop ← add w pos chunkBytes
  require (decide (stop ≤ bytes.length)) ()
  Indexed.arr w 32 bytes pos

def Encoder.decodeAt (w : Nat) (bytes : Bytes) : Indexed Unit Encoder := do
  require (decide (7 ≤ bytes.length)) ()
  let next ← u16At w bytes 0
  let exhausted ← readFlagAt bytes 2
  let count ← asUsize w <$> Indexed.u32 w bytes 3
  require (decide (count ≤ bytes.length / chunkBytes)) ()
  let (pos, chunks, ok) ← Indexed.entries w chunkBytes (Encoder.chunkAt w bytes) count 7 [] true
  require ok ()
  require (pos == bytes.length) ()
  .ok { chunks, next, exhausted }

def Encoder.fromBytesAt (w : Nat) (bytes : Bytes) : Indexed Unit Encoder := do
  let enc ← Encoder.decodeAt w bytes
  require enc.invariant ()
  .ok enc

/-- One entry of the decoder's loop. -/
def Decoder.chunkAt (w : Nat) (bytes : Bytes) (pos : Nat) : Indexed Unit Chunk := do
  let dataAt ← add w pos 2
  let stop ← add w dataAt chunkBytes
  require (decide (stop ≤ bytes.length)) ()
  let index ← u16At w bytes pos
  let data ← Indexed.arr w 32 bytes dataAt
  .ok { index, data }

/-- The two sizes are bounded before they are narrowed to a `usize`. -/
def Decoder.decodeAt (w : Nat) (bytes : Bytes) : Indexed Unit Decoder := do
  require (decide (20 ≤ bytes.length)) ()
  let sizeWide ← Indexed.u64 w bytes 0
  let neededWide ← Indexed.u64 w bytes 8
  require (decide (neededWide.toNat ≤ maxCodewords)) ()
  require (decide (sizeWide.toNat ≤ maxCodewords * chunkBytes)) ()
  let size := sizeWide.toNat % 2 ^ w
  let needed := neededWide.toNat % 2 ^ w
  let count ← asUsize w <$> Indexed.u32 w bytes 16
  require (decide (count ≤ bytes.length / (2 + chunkBytes))) ()
  let (pos, held, ok) ← Indexed.entries w (2 + chunkBytes) (Decoder.chunkAt w bytes) count 20 [] true
  require ok ()
  require (pos == bytes.length) ()
  .ok { size, needed, held }

def Decoder.fromBytesAt (w : Nat) (bytes : Bytes) : Indexed Unit Decoder := do
  let dec ← Decoder.decodeAt w bytes
  require dec.invariantPass ()
  .ok dec

/-! ## Following the readers -/

variable {w : Nat} {bytes : Bytes} {pos : Nat}

theorem tracks_flag (inside : pos < bytes.length) :
    Tracks bytes pos 1 (readFlagAt bytes pos) readFlag := by
  refine .bind (m := 0) (.u8 _ inside) fun b => ?_
  by_cases off : b = 0x00
  · rw [if_pos off, if_pos off]
    exact .of_pure false
  · rw [if_neg off, if_neg off]
    by_cases on : b = 0x01
    · rw [if_pos on, if_pos on]
      exact .of_pure true
    · rw [if_neg on, if_neg on]
      exact .refuse ()

theorem mirrors_chunk (addressable : Addressable w bytes) (start : pos ≤ bytes.length) :
    Mirrors bytes pos chunkBytes () () (Encoder.chunkAt w bytes pos) (Reader.arr () 32) := by
  refine .left (Indexed.add_eq (addressable.add start (by decide))) ?_
  refine .bounded start le_rfl .arr ((Consumes.arr () 32).mono fun _ a spelled => ?_) fun inside => ?_
  · rw [spelled, Arr.length_toList]
    rfl
  · exact .arr inside (addressable.add start (by decide))

theorem refuses_chunk : Refuses readChunk () :=
  .bind (.map .bytes _) fun _ => .bind .arr fun _ => .of_pure _

theorem mirrors_held (addressable : Addressable w bytes) (start : pos ≤ bytes.length) :
    Mirrors bytes pos (2 + chunkBytes) () () (Decoder.chunkAt w bytes pos) readChunk := by
  have fits : ∀ {k : Nat}, k ≤ 2 ^ 31 → pos + k < 2 ^ w := fun small => addressable.add start small
  have stop : pos + 2 + chunkBytes < 2 ^ w := fits (k := 2 + chunkBytes) (by decide)
  refine .left (Indexed.add_eq (fits (by decide))) (.left (Indexed.add_eq stop) ?_)
  refine .bounded start le_rfl refuses_chunk (consumes_chunk.mono fun _ c spelled => ?_)
    fun inside => ?_
  · rw [spelled, length_chunkEncode]
    rfl
  · have inside : pos + 34 ≤ bytes.length := inside
    refine .bind (n := 2) (m := 32)
      (.word (fun b => UInt16.ofNat (ofBe b)) (by omega) (fits (by decide))) fun index _ => ?_
    exact .bind (n := 32) (m := 0) (.arr (by omega) stop) fun data end_ => .of_pure end_ _

theorem Encoder.decodeAt_eq (addressable : Addressable w bytes) :
    Encoder.decodeAt w bytes = ((Encoder.decode bytes.length).value bytes).mapError Stop.refused := by
  have fits : ∀ {pos k : Nat}, pos ≤ bytes.length → k ≤ 2 ^ 31 → pos + k < 2 ^ w :=
    fun inside small => addressable.add inside small
  by_cases long : 7 ≤ bytes.length
  · have follows : Follows Prod.fst (Encoder.decodeAt w bytes)
        (Encoder.decode bytes.length (bytes.drop 0)) := by
      refine .left (a := ()) (by simp [require, long]) ?_
      refine .track (n := 2) (.word (fun b => UInt16.ofNat (ofBe b)) () (by omega)
        (fits (by omega) (by decide))) fun next => ?_
      refine .track (tracks_flag (by omega)) fun exhausted => ?_
      refine .track (addressable.count _ (by omega)) fun count => .require rfl fun _ => ?_
      refine .entries addressable (by decide) (fun _ => mirrors_chunk addressable) long
        (fun _ _ => rfl) fun chunks ends => ?_
      exact .left rfl (.atEnd ends (.of_pure _ rfl))
    rw [List.drop_zero] at follows
    exact follows.value
  · have short : Encoder.decodeAt w bytes = .error (.refused ()) := by
      simp [Encoder.decodeAt, require, long, refuse, bind, Except.bind]
    cases read : (Encoder.decode bytes.length).value bytes with
    | error e => exact short
    | ok enc =>
        have spelled := (exhausts_decode _).value read
        rw [spelled, Encoder.length_toBytes] at long
        omega

theorem Decoder.decodeAt_eq (addressable : Addressable w bytes) :
    Decoder.decodeAt w bytes = ((Decoder.decode bytes.length).value bytes).mapError Stop.refused := by
  have fits : ∀ {pos k : Nat}, pos ≤ bytes.length → k ≤ 2 ^ 31 → pos + k < 2 ^ w :=
    fun inside small => addressable.add inside small
  have wide : 2 ^ 32 ≤ 2 ^ w := Nat.pow_le_pow_right (by decide) addressable.wide
  by_cases long : 20 ≤ bytes.length
  · have follows : Follows Prod.fst (Decoder.decodeAt w bytes)
        (Decoder.decode bytes.length (bytes.drop 0)) := by
      refine .left (a := ()) (by simp [require, long]) ?_
      refine .track (.u64 _ (by omega) (fits (by omega) (by decide))) fun size => ?_
      refine .track (.u64 _ (by omega) (fits (by omega) (by decide))) fun needed => ?_
      refine .require rfl fun few => .require rfl fun small => ?_
      have size_exact : size.toNat % 2 ^ w = size.toNat := by
        have bound : size.toNat ≤ 65536 * 32 := of_decide_eq_true small
        exact Nat.mod_eq_of_lt (by omega)
      have needed_exact : needed.toNat % 2 ^ w = needed.toNat := by
        have bound : needed.toNat ≤ 65536 := of_decide_eq_true few
        exact Nat.mod_eq_of_lt (by omega)
      simp only [size_exact, needed_exact]
      refine .track (addressable.count _ (by omega)) fun count => .require rfl fun _ => ?_
      refine .entries addressable (by decide) (fun _ => mirrors_held addressable) long
        (fun _ _ => rfl) fun held ends => ?_
      exact .left rfl (.atEnd ends (.of_pure _ rfl))
    rw [List.drop_zero] at follows
    exact follows.value
  · have short : Decoder.decodeAt w bytes = .error (.refused ()) := by
      simp [Decoder.decodeAt, require, long, refuse, bind, Except.bind]
    cases read : (Decoder.decode bytes.length).value bytes with
    | error e => exact short
    | ok dec =>
        have spelled := (exhausts_decode _).value read
        rw [spelled, Decoder.length_toBytes] at long
        omega

/-! ## The two formats -/

theorem Encoder.fromBytesAt_eq (addressable : Addressable w bytes) :
    Encoder.fromBytesAt w bytes = (Option.elim (Encoder.fromBytes bytes) (.error ())
      Except.ok : Except Unit Encoder).mapError Stop.refused := by
  rw [Encoder.fromBytesAt, Encoder.decodeAt_eq addressable, Encoder.fromBytes]
  cases (Encoder.decode bytes.length).value bytes with
  | error e => rfl
  | ok enc =>
      simp only [Except.mapError, bind, Except.bind]
      cases enc.invariant <;> rfl

theorem Decoder.fromBytesAt_eq (addressable : Addressable w bytes) :
    Decoder.fromBytesAt w bytes = (Option.elim (Decoder.fromBytes bytes) (.error ())
      Except.ok : Except Unit Decoder).mapError Stop.refused := by
  rw [Decoder.fromBytesAt, Decoder.decodeAt_eq addressable, Decoder.fromBytes]
  cases (Decoder.decode bytes.length).value bytes with
  | error e => rfl
  | ok dec =>
      simp only [Except.mapError, bind, Except.bind, Decoder.invariantPass_eq]
      cases dec.invariant <;> rfl

theorem Encoder.length_toBytes_lt {enc : Encoder} (inv : enc.invariant = true) :
    enc.toBytes.length < 2 ^ 31 := by
  simp only [Encoder.invariant, Bool.and_eq_true, decide_eq_true_eq] at inv
  have limit : maxCodewords = 65536 := rfl
  rw [Encoder.length_toBytes, Encoder.needed]
  omega

theorem Decoder.length_toBytes_lt {dec : Decoder} (inv : dec.invariant = true) :
    dec.toBytes.length < 2 ^ 31 := by
  simp only [Decoder.invariant, Bool.and_eq_true, decide_eq_true_eq] at inv
  have limit : maxCodewords = 65536 := rfl
  rw [Decoder.length_toBytes]
  omega

theorem elim_ok {α : Type} {o : Option α} {a : α} :
    (o.elim (.error ()) Except.ok : Except Unit α) = .ok a ↔ o = some a := by
  cases o <;> simp

/-- **The encoder's format is exact.** -/
theorem Encoder.format_exact (wide : 32 ≤ w) :
    ExactFormat w Encoder.invariant Encoder.toBytes (Encoder.fromBytesAt w) :=
  .of_reader wide (fun _ => Encoder.fromBytesAt_eq)
    (fun _ inv => elim_ok.2 (Encoder.fromBytes_toBytes inv))
    (fun _ => Encoder.length_toBytes_lt)
    (fun _ _ read => (Encoder.fromBytes_some (elim_ok.1 read)).symm)

/-- **The decoder's format is exact.** -/
theorem Decoder.format_exact (wide : 32 ≤ w) :
    ExactFormat w Decoder.invariant Decoder.toBytes (Decoder.fromBytesAt w) :=
  .of_reader wide (fun _ => Decoder.fromBytesAt_eq)
    (fun _ inv => elim_ok.2 (Decoder.fromBytes_toBytes inv))
    (fun _ => Decoder.length_toBytes_lt)
    (fun _ _ read => (Decoder.fromBytes_some (elim_ok.1 read)).symm)

end Tacenta.Erasure
