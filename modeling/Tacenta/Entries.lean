/-
# Tacenta.Entries -- counted entries, read at positions

The stores of the crates' states are a count and that many entries of one width.
A decoder of an entry returns an `Option`, here an `Indexed Unit`; the loop over
the count has no early exit, so an entry that is refused clears a flag and the
loop runs on.  `entries_many` says that the loop nevertheless does what reading
the entries one after the other does, and never leaves the input.

`ExactFormat` is what is asked of a stored format as a whole.
-/
import Tacenta.Indexed

set_option autoImplicit false

namespace Tacenta

variable {ε ε' α β : Type}

/-! ## Inputs a machine can hold -/

/-- A slice is at most half of what a `usize` of `w` bits counts, and `usize` is
no narrower than the lengths the formats store. -/
structure Addressable (w : Nat) (bytes : Bytes) : Prop where
  wide : 32 ≤ w
  short : bytes.length < 2 ^ (w - 1)

namespace Addressable

variable {w : Nat} {bytes : Bytes}

/-- A position in the input leaves room for a field of any fixed width. -/
theorem add (addressable : Addressable w bytes) {pos k : Nat} (inside : pos ≤ bytes.length)
    (small : k ≤ 2 ^ 31) : pos + k < 2 ^ w := by
  have wide := addressable.wide
  have short := addressable.short
  have double : 2 ^ w = 2 * 2 ^ (w - 1) := by
    rw [← pow_succ', Nat.sub_add_cancel (by omega)]
  have half : 2 ^ 31 ≤ 2 ^ (w - 1) := Nat.pow_le_pow_right (by decide) (by omega)
  omega

theorem length_lt (addressable : Addressable w bytes) : bytes.length < 2 ^ w :=
  addressable.add (k := 0) le_rfl (by decide)

theorem asUsize (addressable : Addressable w bytes) (v : UInt32) : Indexed.asUsize w v = v.toNat :=
  Nat.mod_eq_of_lt (v.toNat_lt.trans_le (Nat.pow_le_pow_right (by decide) addressable.wide))

/-- A stored count, as a `usize`. -/
theorem count {ε : Type} (addressable : Addressable w bytes) {pos : Nat} (e : ε)
    (inside : pos + 4 ≤ bytes.length) :
    Tracks bytes pos 4 (Indexed.asUsize w <$> Indexed.u32 w bytes pos)
      ((fun v : UInt32 => v.toNat) <$> Reader.u32 e) := by
  have narrow : Indexed.asUsize w = fun v : UInt32 => v.toNat := by
    funext v
    exact addressable.asUsize v
  rw [narrow]
  exact .map _ (.u32 e inside (addressable.add (by omega) (by decide)))

/-- A part of the input is no longer than the input. -/
theorem part (addressable : Addressable w bytes) (pos n : Nat) :
    Addressable w ((bytes.drop pos).take n) := by
  refine ⟨addressable.wide, addressable.short.trans_le' ?_⟩
  rw [List.length_take, List.length_drop]
  omega

end Addressable

/-! ## One error -/

/-- `e` is the only error `r` refuses with. -/
def Refuses (r : Reader ε α) (e : ε) : Prop := ∀ input e', r input = .error e' → e' = e

namespace Refuses

variable {r : Reader ε α} {f : α → Reader ε β} {e : ε}

theorem bind (first : Refuses r e) (second : ∀ a, Refuses (f a) e) : Refuses (r >>= f) e := by
  intro input e' refused
  have step : (r >>= f) input = (r input >>= fun p => f p.1 p.2) := rfl
  rw [step] at refused
  cases here : r input with
  | error e'' =>
      rw [here] at refused
      exact (Except.error.inj refused) ▸ first input e'' here
  | ok p =>
      rw [here] at refused
      exact second p.1 p.2 e' refused

theorem map (refuses : Refuses r e) (g : α → β) : Refuses (g <$> r) e := by
  intro input e' refused
  have step : (g <$> r) input = (r input >>= fun p => pure (g p.1, p.2)) := rfl
  rw [step] at refused
  cases here : r input with
  | error e'' =>
      rw [here] at refused
      exact (Except.error.inj refused) ▸ refuses input e'' here
  | ok p =>
      rw [here] at refused
      cases refused

theorem of_pure (a : α) : Refuses (pure a : Reader ε α) e := by
  intro input e' refused
  cases refused

theorem refuse : Refuses (Reader.refuse e : Reader ε α) e := by
  intro input e' refused
  exact (Except.error.inj refused).symm

theorem require {ok : Bool} : Refuses (Reader.require ok e) e := by
  intro input e' refused
  unfold Reader.require at refused
  split at refused
  · cases refused
  · exact (Except.error.inj refused).symm

theorem bytes {n : Nat} : Refuses (Reader.bytes e n) e := by
  intro input e' refused
  unfold Reader.bytes at refused
  split at refused
  · exact (Except.error.inj refused).symm
  · cases refused

theorem arr {n : Nat} : Refuses (Reader.arr e n) e := by
  intro input e' refused
  unfold Reader.arr at refused
  split at refused
  · exact (Except.error.inj refused).symm
  · cases refused

theorem u8 : Refuses (Reader.u8 e) e := by
  intro input e' refused
  cases input with
  | nil => exact (Except.error.inj refused).symm
  | cons b rest => cases refused

theorem u32 : Refuses (Reader.u32 e) e := bytes.map _

theorem u64 : Refuses (Reader.u64 e) e := bytes.map _

theorem lift {x : Except ε α} (only : ∀ e', x = .error e' → e' = e) : Refuses (Reader.lift x) e := by
  intro input e' refused
  unfold Reader.lift at refused
  cases x with
  | error e'' => exact (Except.error.inj refused) ▸ only e'' rfl
  | ok a => cases refused

theorem value (refuses : Refuses r e) {input : Bytes} {e' : ε} (refused : r.value input = .error e') :
    e' = e := by
  unfold Reader.value at refused
  split at refused
  · rename_i e'' here
    exact (Except.error.inj refused) ▸ refuses input e'' here
  · cases refused

theorem padded {width : Nat} (field : Refuses r e) : Refuses (Reader.padded e width r) e := by
  refine bind u8 fun tag => bind bytes fun body => ?_
  by_cases absent : tag = 0x00
  · rw [if_pos absent]
    exact bind require fun _ => of_pure none
  · rw [if_neg absent]
    by_cases present : tag = 0x01
    · rw [if_pos present]
      exact map (lift fun _ => field.value) some
    · rw [if_neg present]
      exact refuse

/-- An input shorter than what `r` takes is refused. -/
theorem of_short (refuses : Refuses r e) {n : Nat} (takes : Consumes r fun used _ => used.length = n)
    {input : Bytes} (short : input.length < n) : r input = .error e := by
  cases here : r input with
  | error e' => rw [refuses input e' here]
  | ok p =>
      obtain ⟨used, rfl, length⟩ := takes input p.1 p.2 here
      rw [List.length_append] at short
      omega

end Refuses

/-! ## A field that may be refused -/

/-- `x` reads at `pos` what `r` reads of the input from `pos` on, `n` bytes of
it; where the one refuses with `e'`, the other does with `e`. -/
def Mirrors (bytes : Bytes) (pos n : Nat) (e' : ε') (e : ε) (x : Indexed ε' α) (r : Reader ε α) :
    Prop :=
  (pos + n ≤ bytes.length ∧ ∃ a, x = .ok a ∧ r (bytes.drop pos) = .ok (a, bytes.drop (pos + n))) ∨
    (x = .error (.refused e') ∧ r (bytes.drop pos) = .error e)

namespace Mirrors

open Indexed

variable {bytes : Bytes} {w pos n m : Nat} {e' : ε'} {e : ε}
variable {x : Indexed ε' α} {r : Reader ε α}

theorem tracks {x : Indexed ε α} (mirrors : Mirrors bytes pos n e e x r) :
    Tracks bytes pos n x r := by
  obtain ⟨-, read⟩ | ⟨left, right⟩ := mirrors
  · exact .inl read
  · exact .inr ⟨e, left, right⟩

theorem of_pure (inside : pos ≤ bytes.length) (a : α) :
    Mirrors bytes pos 0 e' e (.ok a) (pure a : Reader ε α) :=
  .inl ⟨inside, a, rfl, rfl⟩

theorem bind {f : α → Indexed ε' β} {g : α → Reader ε β} (first : Mirrors bytes pos n e' e x r)
    (second : ∀ a, pos + n ≤ bytes.length → Mirrors bytes (pos + n) m e' e (f a) (g a)) :
    Mirrors bytes pos (n + m) e' e (x >>= f) (r >>= g) := by
  have step : (r >>= g) (bytes.drop pos) = (r (bytes.drop pos) >>= fun p => g p.1 p.2) := rfl
  obtain ⟨inside, a, rfl, read⟩ | ⟨rfl, refused⟩ := first
  · rw [Mirrors, step, read, ← Nat.add_assoc]
    exact second a inside
  · rw [Mirrors, step, refused]
    exact .inr ⟨rfl, rfl⟩

/-- A step that only `x` takes. -/
theorem left {δ : Type} {y : Indexed ε' δ} {f : δ → Indexed ε' α} {d : δ} (here : y = .ok d)
    (next : Mirrors bytes pos n e' e (f d) r) : Mirrors bytes pos n e' e (y >>= f) r := by
  rw [here]
  exact next

/-- A bounds check ahead of a field at least as wide as it asks. -/
theorem bounded {k : Nat} {f : Unit → Indexed ε' α} (start : pos ≤ bytes.length) (narrow : k ≤ n)
    (refuses : Refuses r e) (takes : Consumes r fun used _ => used.length = n)
    (next : pos + k ≤ bytes.length → Mirrors bytes pos n e' e (f ()) r) :
    Mirrors bytes pos n e' e (require (decide (pos + k ≤ bytes.length)) e' >>= f) r := by
  by_cases inside : pos + k ≤ bytes.length
  · exact left (by simp [require, inside]) (next inside)
  · refine .inr ⟨by simp [require, inside, Indexed.refuse, Bind.bind, Except.bind], ?_⟩
    refine refuses.of_short takes ?_
    rw [List.length_drop]
    omega

theorem arr (inside : pos + n ≤ bytes.length) (addressable : pos + n < 2 ^ w) :
    Mirrors bytes pos n e' e (Indexed.arr w n bytes pos) (Reader.arr e n) := by
  obtain ⟨a, field⟩ := field_eq inside
  exact .inl ⟨inside, a, arr_eq inside addressable field, Reader.arr_drop e field⟩

theorem word (f : Bytes → α) (inside : pos + n ≤ bytes.length) (addressable : pos + n < 2 ^ w) :
    Mirrors bytes pos n e' e ((fun a : Arr n => f a.toList) <$> Indexed.arr w n bytes pos)
      (f <$> Reader.bytes e n) := by
  obtain ⟨a, field⟩ := field_eq inside
  refine .inl ⟨inside, f a.toList, ?_, ?_⟩
  · have read : (Indexed.arr w n bytes pos : Indexed ε' (Arr n)) = .ok a :=
      arr_eq inside addressable field
    rw [read]
    rfl
  · rw [← field]
    exact Reader.map_drop (Reader.bytes_drop e inside)

theorem u32 (inside : pos + 4 ≤ bytes.length) (addressable : pos + 4 < 2 ^ w) :
    Mirrors bytes pos 4 e' e (Indexed.u32 w bytes pos) (Reader.u32 e) :=
  word (fun b => UInt32.ofNat (ofBe b)) inside addressable

theorem u64 (inside : pos + 8 ≤ bytes.length) (addressable : pos + 8 < 2 ^ w) :
    Mirrors bytes pos 8 e' e (Indexed.u64 w bytes pos) (Reader.u64 e) :=
  word (fun b => UInt64.ofNat (ofBe b)) inside addressable

/-- A field that is cut out first, when it has one spelling for each value. -/
theorem of_part {write : α → Bytes} (reads : ∀ a, Reads r (write a) a)
    (takes : Consumes r fun used a => used = write a) (wide : ∀ a, (write a).length = n)
    (refuses : Refuses r e) (inside : pos + n ≤ bytes.length)
    (part : Mirrors ((bytes.drop pos).take n) 0 n e' e x r) : Mirrors bytes pos n e' e x r := by
  have whole : (bytes.drop pos).take n ++ bytes.drop (pos + n) = bytes.drop pos := by
    rw [← List.drop_drop, List.take_append_drop]
  have length : ((bytes.drop pos).take n).length = n := by
    rw [List.length_take, List.length_drop]
    omega
  rw [Mirrors, List.drop_zero] at part
  obtain ⟨-, a, here, read⟩ | ⟨here, refused⟩ := part
  · obtain ⟨used, split, rfl⟩ := takes _ _ _ read
    have empty : ((bytes.drop pos).take n).drop (0 + n) = [] := List.drop_of_length_le (by omega)
    rw [empty, List.append_nil] at split
    refine .inl ⟨inside, a, here, ?_⟩
    rw [← whole, split]
    exact reads a _
  · refine .inr ⟨here, ?_⟩
    cases outcome : r (bytes.drop pos) with
    | error e'' => rw [refuses _ _ outcome]
    | ok p =>
        obtain ⟨used, split, rfl⟩ := takes _ _ _ outcome
        have same : (bytes.drop pos).take n = write p.1 := by
          rw [split, List.take_left' (wide p.1)]
        rw [same, (reads p.1).all] at refused
        cases refused

end Mirrors

/-! ## A padded field -/

namespace Indexed

/-- The presence byte at `pos`, then zeros to the field's width when it is
absent, scanned without an early exit, or the field. -/
def padded (w : Nat) (e : ε) (width : Nat) (read : Nat → Indexed ε α) (bytes : Bytes) (pos : Nat) :
    Indexed ε (Option α) := do
  let tag ← index bytes pos
  if tag = 0x00 then do
    let start ← add w pos 1
    let _stop ← add w pos (1 + width)
    let clean ← zeros w bytes start width
    require clean e
    .ok none
  else if tag = 0x01 then do
    let start ← add w pos 1
    some <$> read start
  else refuse e

end Indexed

/-- **A padded field at a position is the reader's.** -/
theorem Mirrors.padded {bytes : Bytes} {w pos width : Nat} {e' : ε'} {e : ε}
    {read : Nat → Indexed ε' α} {field : Reader ε α} (inside : pos + (1 + width) ≤ bytes.length)
    (addressable : pos + (1 + width) < 2 ^ w)
    (each : ∃ a, read (pos + 1) = .ok a ∧
      field.value ((bytes.drop (pos + 1)).take width) = .ok a) :
    Mirrors bytes pos (1 + width) e' e (Indexed.padded w e' width read bytes pos)
      (Reader.padded e width field) := by
  obtain ⟨a, here, value⟩ := each
  have split : Reader.padded e width field (bytes.drop pos) =
      (Reader.bytes e width (bytes.drop (pos + 1)) >>= fun p =>
        (if bytes[pos] = 0x00 then do
          Reader.require (p.1.all (· == 0)) e
          pure none
        else if bytes[pos] = 0x01 then some <$> Reader.lift (field.value p.1)
        else Reader.refuse e : Reader ε (Option α)) p.2) := by
    rw [List.drop_eq_getElem_cons (by omega)]
    rfl
  rw [Reader.bytes_drop e (by omega)] at split
  have tag : (Indexed.index bytes pos : Indexed ε' UInt8) = .ok bytes[pos] :=
    Indexed.index_eq (by omega)
  have start : (Indexed.add w pos 1 : Indexed ε' Nat) = .ok (pos + 1) :=
    Indexed.add_eq (by omega)
  have stop : (Indexed.add w pos (1 + width) : Indexed ε' Nat) = .ok (pos + (1 + width)) :=
    Indexed.add_eq addressable
  have scanned : (Indexed.zeros w bytes (pos + 1) width : Indexed ε' Bool) =
      .ok (((bytes.drop (pos + 1)).take width).all (· == 0)) :=
    Indexed.zeros_eq (by omega) (by omega)
  rw [Mirrors, split, Indexed.padded, tag]
  simp only [start, stop, scanned, Bind.bind, Except.bind, ← Nat.add_assoc]
  by_cases absent : bytes[pos] = 0x00
  · rw [if_pos absent, if_pos absent]
    cases ((bytes.drop (pos + 1)).take width).all (· == 0) with
    | true => exact .inl ⟨by omega, none, rfl, rfl⟩
    | false => exact .inr ⟨rfl, rfl⟩
  · rw [if_neg absent, if_neg absent]
    by_cases present : bytes[pos] = 0x01
    · rw [if_pos present, if_pos present, here, value]
      exact .inl ⟨by omega, some a, rfl, rfl⟩
    · rw [if_neg present, if_neg present]
      exact .inr ⟨rfl, rfl⟩

/-! ## The loop over a count -/

namespace Reader

variable {r : Reader ε α} {n : Nat} {input rest rest' : Bytes} {a : α} {l : List α} {e : ε}

theorem many_succ (r : Reader ε α) (n : Nat) (input : Bytes) :
    Reader.many r (n + 1) input = (r input >>= fun p =>
      (Reader.many r n p.2 >>= fun q => .ok (p.1 :: q.1, q.2))) := rfl

theorem many_cons (first : r input = .ok (a, rest)) (others : Reader.many r n rest = .ok (l, rest')) :
    Reader.many r (n + 1) input = .ok (a :: l, rest') := by
  rw [many_succ, first]
  show (Reader.many r n rest >>= fun q => .ok (a :: q.1, q.2)) = _
  rw [others]
  rfl

theorem many_refused (refused : r input = .error e) : Reader.many r (n + 1) input = .error e := by
  rw [many_succ, refused]
  rfl

theorem many_later (first : r input = .ok (a, rest)) (refused : Reader.many r n rest = .error e) :
    Reader.many r (n + 1) input = .error e := by
  rw [many_succ, first]
  show (Reader.many r n rest >>= fun q => .ok (a :: q.1, q.2)) = _
  rw [refused]
  rfl

end Reader

namespace Indexed

/-- `for _ in 0..n` over entries of one width: an entry that is refused leaves
the position where it was and clears `ok`, and the loop goes on. -/
def entries (w width : Nat) (decode : Nat → Indexed Unit α) :
    Nat → Nat → List α → Bool → Indexed ε (Nat × List α × Bool)
  | 0, pos, read, ok => .ok (pos, read, ok)
  | n + 1, pos, read, ok =>
      match decode pos with
      | .ok entry => do
          let next ← add w pos width
          entries w width decode n next (read ++ [entry]) ok
      | .error (.refused _) => entries w width decode n pos read false
      | .error .outOfBounds => .error .outOfBounds
      | .error .overflow => .error .overflow

/-- `let … else { return Err(e) }`: a refusal becomes `e`. -/
def otherwise {δ : Type} (x : Indexed δ α) (e : ε) : Indexed ε α :=
  match x with
  | .ok a => .ok a
  | .error (.refused _) => refuse e
  | .error .outOfBounds => .error .outOfBounds
  | .error .overflow => .error .overflow

theorem otherwise_eq {δ : Type} {x : Indexed δ α} {y : Except δ α} (e : ε)
    (same : x = y.mapError Stop.refused) :
    otherwise x e = (y.mapError fun _ => e).mapError Stop.refused := by
  rw [same]
  cases y <;> rfl

variable {w width pos n : Nat} {bytes : Bytes} {decode : Nat → Indexed Unit α} {e : ε}
variable {r : Reader ε α}

/-- Once an entry was refused the loop only runs to its end. -/
theorem entries_refused (addressable : Addressable w bytes) (small : width ≤ 2 ^ 31)
    (each : ∀ pos ≤ bytes.length, Mirrors bytes pos width () e (decode pos) r)
    (inside : pos ≤ bytes.length) (read : List α) :
    ∃ pos' read', (entries w width decode n pos read false : Indexed ε _) =
      .ok (pos', read', false) := by
  induction n generalizing pos read with
  | zero => exact ⟨pos, read, rfl⟩
  | succ n ih =>
      obtain ⟨within, a, here, -⟩ | ⟨here, -⟩ := each pos inside
      · have next : (add w pos width : Indexed ε Nat) = .ok (pos + width) :=
          add_eq (addressable.add inside small)
        simp only [entries, here, next, bind, Except.bind]
        exact ih within _
      · simp only [entries, here]
        exact ih inside _

/-- **The loop does what reading entry after entry does.** -/
theorem entries_many (addressable : Addressable w bytes) (small : width ≤ 2 ^ 31)
    (each : ∀ pos ≤ bytes.length, Mirrors bytes pos width () e (decode pos) r)
    (inside : pos ≤ bytes.length) (read : List α) :
    (∃ l, pos + n * width ≤ bytes.length ∧
      Reader.many r n (bytes.drop pos) = .ok (l, bytes.drop (pos + n * width)) ∧
      (entries w width decode n pos read true : Indexed ε _) =
        .ok (pos + n * width, read ++ l, true)) ∨
    (Reader.many r n (bytes.drop pos) = .error e ∧ ∃ pos' read',
      (entries w width decode n pos read true : Indexed ε _) = .ok (pos', read', false)) := by
  induction n generalizing pos read with
  | zero => exact .inl ⟨[], by simpa using inside, by simp [Reader.many]; rfl, by simp [entries]⟩
  | succ n ih =>
      obtain ⟨within, a, here, entry⟩ | ⟨here, refused⟩ := each pos inside
      · have next : (add w pos width : Indexed ε Nat) = .ok (pos + width) :=
          add_eq (addressable.add inside small)
        have stride : pos + (n + 1) * width = pos + width + n * width := by
          rw [Nat.succ_mul]
          omega
        simp only [entries, here, next, bind, Except.bind]
        obtain ⟨l, fits, rest, loop⟩ | ⟨rest, loop⟩ := ih within (read ++ [a])
        · refine .inl ⟨a :: l, by omega, ?_, ?_⟩
          · rw [stride]
            exact Reader.many_cons entry rest
          · rw [loop, stride, List.append_assoc]
            rfl
        · exact .inr ⟨Reader.many_later entry rest, loop⟩
      · refine .inr ⟨Reader.many_refused refused, ?_⟩
        simp only [entries, here]
        exact entries_refused addressable small each inside read

end Indexed

/-- A bounds check ahead of a field of that width. -/
theorem Follows.guarded {γ : Type} {keep : β × Bytes → γ} {bytes : Bytes} {pos n : Nat} {e : ε}
    {r : Reader ε α} {f : Unit → Indexed ε γ} {g : α → Reader ε β} (start : pos ≤ bytes.length)
    (refuses : Refuses r e) (takes : Consumes r fun used _ => used.length = n)
    (next : pos + n ≤ bytes.length → Follows keep (f ()) ((r >>= g) (bytes.drop pos))) :
    Follows keep (Indexed.require (decide (pos + n ≤ bytes.length)) e >>= f)
      ((r >>= g) (bytes.drop pos)) := by
  by_cases inside : pos + n ≤ bytes.length
  · exact .left (a := ()) (by simp [Indexed.require, inside]) (next inside)
  · have short : r (bytes.drop pos) = .error e := by
      refine refuses.of_short takes ?_
      rw [List.length_drop]
      omega
    refine .refused (r := r) (e := e) ?_ short
    simp [Indexed.require, inside, Indexed.refuse]

theorem Follows.entries {γ : Type} {keep : β × Bytes → γ} {bytes : Bytes} {w width pos n : Nat}
    {e : ε} {decode : Nat → Indexed Unit α} {r : Reader ε α}
    {f : Nat × List α × Bool → Indexed ε γ} {g : List α → Reader ε β}
    (addressable : Addressable w bytes) (small : width ≤ 2 ^ 31)
    (each : ∀ pos ≤ bytes.length, Mirrors bytes pos width () e (decode pos) r)
    (inside : pos ≤ bytes.length)
    (fails : ∀ pos' read', f (pos', read', false) = .error (.refused e))
    (next : ∀ l, pos + n * width ≤ bytes.length →
      Follows keep (f (pos + n * width, l, true)) (g l (bytes.drop (pos + n * width)))) :
    Follows keep (Indexed.entries w width decode n pos [] true >>= f)
      ((Reader.many r n >>= g) (bytes.drop pos)) := by
  obtain ⟨l, fits, rest, loop⟩ | ⟨rest, pos', read', loop⟩ :=
    Indexed.entries_many (n := n) addressable small each inside []
  · exact .left loop (.right rest (next l fits))
  · have step : (Reader.many r n >>= g) (bytes.drop pos) =
        (Reader.many r n (bytes.drop pos) >>= fun p => g p.1 p.2) := rfl
    rw [loop, step, rest]
    exact fails pos' read'

/-! ## A stored format -/

/-- **What a stored format owes its states**: a state within its invariant is
restored from its bytes; no input makes the decoder leave it or a sum wrap; and
whatever is accepted is within the invariant and the state's only spelling. -/
structure ExactFormat {S : Type} (w : Nat) (invariant : S → Bool) (toBytes : S → Bytes)
    (fromBytesAt : Bytes → Indexed ε S) : Prop where
  restores : ∀ s, invariant s = true → fromBytesAt (toBytes s) = .ok s
  safe : ∀ bytes, bytes.length < 2 ^ (w - 1) → (fromBytesAt bytes).Safe
  accepted : ∀ bytes s, bytes.length < 2 ^ (w - 1) → fromBytesAt bytes = .ok s →
    invariant s = true ∧ toBytes s = bytes
  unique : ∀ bytes bytes' s, bytes.length < 2 ^ (w - 1) → bytes'.length < 2 ^ (w - 1) →
    fromBytesAt bytes = .ok s → fromBytesAt bytes' = .ok s → bytes = bytes'

/-- A format whose decoder at positions is a reader's is exact when the reader is. -/
theorem ExactFormat.of_reader {S : Type} {w : Nat} {invariant : S → Bool} {toBytes : S → Bytes}
    {fromBytesAt : Bytes → Indexed ε S} {fromBytes : Bytes → Except ε S} (wide : 32 ≤ w)
    (same : ∀ bytes, Addressable w bytes → fromBytesAt bytes = (fromBytes bytes).mapError Stop.refused)
    (restores : ∀ s, invariant s = true → fromBytes (toBytes s) = .ok s)
    (short : ∀ s, invariant s = true → (toBytes s).length < 2 ^ 31)
    (accepted : ∀ bytes s, fromBytes bytes = .ok s → invariant s = true ∧ toBytes s = bytes) :
    ExactFormat w invariant toBytes fromBytesAt where
  restores s inv := by
    have half : 2 ^ 31 ≤ 2 ^ (w - 1) := Nat.pow_le_pow_right (by decide) (by omega)
    exact (Indexed.ok_of_eq (same _ ⟨wide, (short s inv).trans_le half⟩) s).2 (restores s inv)
  safe bytes small := Indexed.safe_of_eq (same bytes ⟨wide, small⟩)
  accepted bytes s small read :=
    accepted bytes s ((Indexed.ok_of_eq (same bytes ⟨wide, small⟩) s).1 read)
  unique bytes bytes' s small small' read read' := by
    have first := accepted bytes s ((Indexed.ok_of_eq (same bytes ⟨wide, small⟩) s).1 read)
    have second := accepted bytes' s ((Indexed.ok_of_eq (same bytes' ⟨wide, small'⟩) s).1 read')
    exact first.2.symm.trans second.2

end Tacenta
