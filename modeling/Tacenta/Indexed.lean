/-
# Tacenta.Indexed -- decoders that index their input

The crates' decoders compute positions and index the input at them.  `Indexed`
is such a computation: it returns, refuses with the decoder's own error, or
stops where the compiled code would, at a position outside the input or at a sum
that does not fit a `usize` of `w` bits.

`Follows x y` says that `x` does what the run `y` of a `Reader` does, and so
never stops: the rules below follow a decoder of positions along a reader of the
same input, one step at a time.
-/
import Tacenta.Format

set_option autoImplicit false

namespace Tacenta

/-- How an indexing decoder ends without a value. -/
inductive Stop (ε : Type) where
  | refused (e : ε)
  | outOfBounds
  | overflow
  deriving DecidableEq, Repr

/-- A decoder over errors `ε` that indexes its input. -/
abbrev Indexed (ε : Type) := Except (Stop ε)

variable {ε α β : Type}

namespace Indexed

def refuse (e : ε) : Indexed ε α := .error (.refused e)

/-- Go on only when `ok`. -/
def require (ok : Bool) (e : ε) : Indexed ε Unit := if ok then .ok () else refuse e

def orRefuse (o : Option α) (e : ε) : Indexed ε α :=
  match o with
  | some a => .ok a
  | none => refuse e

/-- `a + b`, on `usize`s of `w` bits. -/
def add (w a b : Nat) : Indexed ε Nat := if a + b < 2 ^ w then .ok (a + b) else .error .overflow

/-- `a.checked_add(b)`, on `usize`s of `w` bits. -/
def checkedAdd (w a b : Nat) : Option Nat := if a + b < 2 ^ w then some (a + b) else none

/-- `v as usize`, on `usize`s of `w` bits. -/
def asUsize (w : Nat) (v : UInt32) : Nat := v.toNat % 2 ^ w

/-- `bytes[i]`. -/
def index (bytes : Bytes) (i : Nat) : Indexed ε UInt8 :=
  match bytes[i]? with
  | some b => .ok b
  | none => .error .outOfBounds

/-- `&bytes[start..stop]`. -/
def slice (bytes : Bytes) (start stop : Nat) : Indexed ε Bytes :=
  if start ≤ stop ∧ stop ≤ bytes.length then .ok ((bytes.drop start).take (stop - start))
  else .error .outOfBounds

/-- `copy_from_slice` into an array of `n` bytes, which panics on any other length. -/
def copy (n : Nat) (l : Bytes) : Indexed ε (Arr n) :=
  match Arr.ofBytes? n l with
  | some a => .ok a
  | none => .error .outOfBounds

/-- The array of the `n` bytes at `pos`. -/
def arr (w n : Nat) (bytes : Bytes) (pos : Nat) : Indexed ε (Arr n) := do
  let stop ← add w pos n
  let field ← slice bytes pos stop
  copy n field

def u32 (w : Nat) (bytes : Bytes) (pos : Nat) : Indexed ε UInt32 :=
  (fun a : Arr 4 => UInt32.ofNat (ofBe a.toList)) <$> arr w 4 bytes pos

def u64 (w : Nat) (bytes : Bytes) (pos : Nat) : Indexed ε UInt64 :=
  (fun a : Arr 8 => UInt64.ofNat (ofBe a.toList)) <$> arr w 8 bytes pos

/-- Whether the `n` bytes from `i` on are all zero: a loop without an early exit. -/
def zeros (w : Nat) (bytes : Bytes) : Nat → Nat → Indexed ε Bool
  | _, 0 => .ok true
  | i, n + 1 => do
      let b ← index bytes i
      let next ← add w i 1
      let rest ← zeros w bytes next n
      .ok (b == 0 && rest)

/-- The computation ends with a value or with an error of its own. -/
def Safe (x : Indexed ε α) : Prop := ∀ stop, x = .error stop → ∃ e, stop = .refused e

theorem safe_of_eq {x : Indexed ε α} {y : Except ε α} (same : x = y.mapError Stop.refused) :
    x.Safe := by
  rintro stop stopped
  rw [same] at stopped
  cases y with
  | error e => exact ⟨e, (Except.error.inj stopped).symm⟩
  | ok a => simp [Except.mapError] at stopped

theorem ok_of_eq {x : Indexed ε α} {y : Except ε α} (same : x = y.mapError Stop.refused) (a : α) :
    x = .ok a ↔ y = .ok a := by
  rw [same, mapError_eq_ok]

/-! ## Inside the input -/

variable {w : Nat} {bytes : Bytes}

theorem add_eq {a b : Nat} (fits : a + b < 2 ^ w) : (add w a b : Indexed ε Nat) = .ok (a + b) :=
  if_pos fits

theorem checkedAdd_eq {a b : Nat} (fits : a + b < 2 ^ w) : checkedAdd w a b = some (a + b) :=
  if_pos fits

theorem index_eq {i : Nat} (inside : i < bytes.length) :
    (index bytes i : Indexed ε UInt8) = .ok bytes[i] := by
  simp [index, inside]

theorem slice_eq {start n : Nat} (inside : start + n ≤ bytes.length) :
    (slice bytes start (start + n) : Indexed ε Bytes) = .ok ((bytes.drop start).take n) := by
  rw [slice, if_pos ⟨by omega, inside⟩, Nat.add_sub_cancel_left]

theorem slice_to_end {start : Nat} (inside : start ≤ bytes.length) :
    (slice bytes start bytes.length : Indexed ε Bytes) = .ok (bytes.drop start) := by
  rw [slice, if_pos ⟨inside, le_rfl⟩, List.take_of_length_le (by rw [List.length_drop])]

/-- The field of `n` bytes at `pos` is an array. -/
theorem field_eq {pos n : Nat} (inside : pos + n ≤ bytes.length) :
    ∃ a : Arr n, (bytes.drop pos).take n = a.toList := by
  refine ⟨⟨((bytes.drop pos).take n).toArray, ?_⟩, by simp [Vector.toList]⟩
  rw [List.size_toArray, List.length_take, List.length_drop]
  omega

theorem copy_toList {n : Nat} (a : Arr n) : (copy n a.toList : Indexed ε (Arr n)) = .ok a := by
  simp [copy]

theorem arr_eq {pos n : Nat} {a : Arr n} (inside : pos + n ≤ bytes.length)
    (addressable : pos + n < 2 ^ w) (field : (bytes.drop pos).take n = a.toList) :
    (arr w n bytes pos : Indexed ε (Arr n)) = .ok a := by
  have stop : (add w pos n : Indexed ε Nat) = .ok (pos + n) := add_eq addressable
  have read : (slice bytes pos (pos + n) : Indexed ε Bytes) = .ok a.toList := by
    rw [slice_eq inside, field]
  have copied : (copy n a.toList : Indexed ε (Arr n)) = .ok a := copy_toList a
  simp only [arr, stop, read, copied, bind, Except.bind]

theorem zeros_eq {i n : Nat} (inside : i + n ≤ bytes.length) (addressable : i + n < 2 ^ w) :
    (zeros w bytes i n : Indexed ε Bool) = .ok (((bytes.drop i).take n).all (· == 0)) := by
  induction n generalizing i with
  | zero => simp [zeros]
  | succ n ih =>
      have here : (index bytes i : Indexed ε UInt8) = .ok bytes[i] := index_eq (by omega)
      have next : (add w i 1 : Indexed ε Nat) = .ok (i + 1) := add_eq (by omega)
      have rest := ih (i := i + 1) (by omega) (by omega)
      have split : (bytes.drop i).take (n + 1) = bytes[i] :: (bytes.drop (i + 1)).take n := by
        rw [List.drop_eq_getElem_cons (by omega), List.take_succ_cons]
      simp only [zeros, here, next, rest, split, bind, Except.bind, List.all_cons]

end Indexed

/-! ## A reader on what is left -/

namespace Reader

variable {bytes : Bytes} {pos n : Nat}

theorem u8_drop (e : ε) (inside : pos < bytes.length) :
    Reader.u8 e (bytes.drop pos) = .ok (bytes[pos], bytes.drop (pos + 1)) := by
  rw [List.drop_eq_getElem_cons inside]
  rfl

theorem bytes_drop (e : ε) (inside : pos + n ≤ bytes.length) :
    Reader.bytes e n (bytes.drop pos) = .ok ((bytes.drop pos).take n, bytes.drop (pos + n)) := by
  rw [Reader.bytes, if_neg (by rw [List.length_drop]; omega), List.drop_drop]

theorem bytes_short (e : ε) (outside : bytes.length < pos + n) (start : pos ≤ bytes.length) :
    Reader.bytes e n (bytes.drop pos) = .error e := by
  rw [Reader.bytes, if_pos (by rw [List.length_drop]; omega)]

theorem arr_drop (e : ε) {a : Arr n} (field : (bytes.drop pos).take n = a.toList) :
    Reader.arr e n (bytes.drop pos) = .ok (a, bytes.drop (pos + n)) := by
  simp only [Reader.arr, field, Arr.ofBytes?_toList, List.drop_drop]

theorem map_drop {r : Reader ε α} {f : α → β} {input rest : Bytes} {a : α}
    (read : r input = .ok (a, rest)) : (f <$> r) input = .ok (f a, rest) := by
  have step : (f <$> r) input = (r input >>= fun p => pure (f p.1, p.2)) := rfl
  rw [step, read]
  rfl

end Reader

/-! ## Following a reader -/

/-- `x` reads at `pos` what `r` reads of the input from `pos` on, and takes `n`
bytes for it. -/
def Tracks (bytes : Bytes) (pos n : Nat) (x : Indexed ε α) (r : Reader ε α) : Prop :=
  (∃ a, x = .ok a ∧ r (bytes.drop pos) = .ok (a, bytes.drop (pos + n))) ∨
    ∃ e, x = .error (.refused e) ∧ r (bytes.drop pos) = .error e

/-- **`x` does what the reader's run `y` does**: it returns what `keep` makes of
the value and the rest, or the same error. -/
def Follows {γ : Type} (keep : α × Bytes → γ) (x : Indexed ε γ) (y : Except ε (α × Bytes)) : Prop :=
  x = (y.map keep).mapError Stop.refused

namespace Tracks

open Indexed

variable {w : Nat} {bytes : Bytes} {pos n : Nat}

theorem u8 (e : ε) (inside : pos < bytes.length) :
    Tracks bytes pos 1 (index bytes pos) (Reader.u8 e) :=
  .inl ⟨bytes[pos], index_eq inside, Reader.u8_drop e inside⟩

theorem arr (e : ε) (inside : pos + n ≤ bytes.length) (addressable : pos + n < 2 ^ w) :
    Tracks bytes pos n (Indexed.arr w n bytes pos) (Reader.arr e n) := by
  obtain ⟨a, field⟩ := field_eq inside
  exact .inl ⟨a, arr_eq inside addressable field, Reader.arr_drop e field⟩

theorem word (f : Bytes → α) (e : ε) (inside : pos + n ≤ bytes.length)
    (addressable : pos + n < 2 ^ w) :
    Tracks bytes pos n ((fun a : Arr n => f a.toList) <$> Indexed.arr w n bytes pos)
      (f <$> Reader.bytes e n) := by
  obtain ⟨a, field⟩ := field_eq inside
  refine .inl ⟨f a.toList, ?_, ?_⟩
  · have read : (Indexed.arr w n bytes pos : Indexed ε (Arr n)) = .ok a :=
      arr_eq inside addressable field
    rw [read]
    rfl
  · rw [← field]
    exact Reader.map_drop (Reader.bytes_drop e inside)

theorem u32 (e : ε) (inside : pos + 4 ≤ bytes.length) (addressable : pos + 4 < 2 ^ w) :
    Tracks bytes pos 4 (Indexed.u32 w bytes pos) (Reader.u32 e) :=
  word (fun b => UInt32.ofNat (ofBe b)) e inside addressable

theorem u64 (e : ε) (inside : pos + 8 ≤ bytes.length) (addressable : pos + 8 < 2 ^ w) :
    Tracks bytes pos 8 (Indexed.u64 w bytes pos) (Reader.u64 e) :=
  word (fun b => UInt64.ofNat (ofBe b)) e inside addressable

theorem of_pure (a : α) : Tracks bytes pos 0 (.ok a) (pure a : Reader ε α) :=
  .inl ⟨a, rfl, rfl⟩

theorem refuse (e : ε) : Tracks bytes pos n (Indexed.refuse e : Indexed ε α) (Reader.refuse e) :=
  .inr ⟨e, rfl, rfl⟩

theorem bind {m : Nat} {x : Indexed ε α} {r : Reader ε α} {f : α → Indexed ε β}
    {g : α → Reader ε β} (first : Tracks bytes pos n x r)
    (second : ∀ a, Tracks bytes (pos + n) m (f a) (g a)) :
    Tracks bytes pos (n + m) (x >>= f) (r >>= g) := by
  have step : (r >>= g) (bytes.drop pos) = (r (bytes.drop pos) >>= fun p => g p.1 p.2) := rfl
  obtain ⟨a, rfl, read⟩ | ⟨e, rfl, refused⟩ := first
  · rw [Tracks, step, read]
    rw [← Nat.add_assoc]
    exact second a
  · rw [Tracks, step, refused]
    exact .inr ⟨e, rfl, rfl⟩

theorem map {x : Indexed ε α} {r : Reader ε α} (f : α → β) (tracks : Tracks bytes pos n x r) :
    Tracks bytes pos n (f <$> x) (f <$> r) := by
  obtain ⟨a, rfl, read⟩ | ⟨e, rfl, refused⟩ := tracks
  · exact .inl ⟨f a, rfl, Reader.map_drop read⟩
  · refine .inr ⟨e, rfl, ?_⟩
    have step : (f <$> r) (bytes.drop pos) = (r (bytes.drop pos) >>= fun p => pure (f p.1, p.2)) := rfl
    rw [step, refused]
    rfl

/-- A step that only `x` takes. -/
theorem left {m : Nat} {x : Indexed ε α} {f : α → Indexed ε β} {r : Reader ε β} {a : α}
    (here : x = .ok a) (next : Tracks bytes pos m (f a) r) : Tracks bytes pos m (x >>= f) r := by
  rw [here]
  exact next

/-- A step that only the reader takes. -/
theorem right {m : Nat} {x : Indexed ε β} {r : Reader ε α} {g : α → Reader ε β} {a : α}
    (here : r (bytes.drop pos) = .ok (a, bytes.drop (pos + n)))
    (next : Tracks bytes (pos + n) m x (g a)) : Tracks bytes pos (n + m) x (r >>= g) := by
  have step : (r >>= g) (bytes.drop pos) = (r (bytes.drop pos) >>= fun p => g p.1 p.2) := rfl
  rw [Tracks, step, here, ← Nat.add_assoc]
  exact next

theorem require {m : Nat} {ok : Bool} {e : ε} {f : Unit → Indexed ε β} {g : Unit → Reader ε β}
    (next : ok = true → Tracks bytes pos m (f ()) (g ())) :
    Tracks bytes pos m (Indexed.require ok e >>= f) (Reader.require ok e >>= g) := by
  cases ok with
  | true => exact next rfl
  | false => exact .inr ⟨e, rfl, rfl⟩

end Tracks

namespace Follows

open Indexed

variable {γ : Type} {w : Nat} {bytes : Bytes} {pos n : Nat} {input rest : Bytes}
variable {x : Indexed ε α} {f : α → Indexed ε γ} {r : Reader ε α} {g : α → Reader ε β} {a : α}
variable {keep : β × Bytes → γ}

theorem of_pure {c : γ} (b : β) (same : c = keep (b, input)) :
    Follows keep (.ok c) ((pure b : Reader ε β) input) := by
  rw [same]
  rfl

/-- A step that only the decoder of positions takes. -/
theorem left {y : Except ε (β × Bytes)} (here : x = .ok a) (next : Follows keep (f a) y) :
    Follows keep (x >>= f) y := by
  rw [here]
  exact next

/-- A step that only the reader takes. -/
theorem right {z : Indexed ε γ} (here : r input = .ok (a, rest))
    (next : Follows keep z (g a rest)) : Follows keep z ((r >>= g) input) := by
  have step : (r >>= g) input = (r input >>= fun p => g p.1 p.2) := rfl
  rw [step, here]
  exact next

/-- Both refuse. -/
theorem refused {δ : Type} {x : Indexed ε δ} {f : δ → Indexed ε γ} {e : ε}
    (left : x = .error (.refused e)) (right : r input = .error e) :
    Follows keep (x >>= f) ((r >>= g) input) := by
  have step : (r >>= g) input = (r input >>= fun p => g p.1 p.2) := rfl
  rw [step, left, right]
  rfl

theorem track (first : Tracks bytes pos n x r)
    (next : ∀ a, Follows keep (f a) (g a (bytes.drop (pos + n)))) :
    Follows keep (x >>= f) ((r >>= g) (bytes.drop pos)) := by
  obtain ⟨a, here, read⟩ | ⟨e, here, refuses⟩ := first
  · exact left here (right read (next a))
  · exact refused here refuses

theorem require {ok ok' : Bool} {e : ε} {f : Unit → Indexed ε γ} {g : Unit → Reader ε β}
    (same : ok = ok') (next : ok' = true → Follows keep (f ()) (g () input)) :
    Follows keep (Indexed.require ok e >>= f) ((Reader.require ok' e >>= g) input) := by
  subst same
  cases ok with
  | true => exact left rfl (right rfl (next rfl))
  | false => exact refused rfl rfl

/-- A check of the length of what is left. -/
theorem atLeast {e : ε} {f : Unit → Indexed ε γ} {g : Unit → Reader ε β}
    (start : pos ≤ bytes.length)
    (next : pos + n ≤ bytes.length → Follows keep (f ()) (g () (bytes.drop pos))) :
    Follows keep (Indexed.require (decide (pos + n ≤ bytes.length)) e >>= f)
      ((Reader.atLeast e n >>= g) (bytes.drop pos)) := by
  have left_ := List.length_drop (i := pos) (l := bytes)
  by_cases long : pos + n ≤ bytes.length
  · refine left (by simp [Indexed.require, long]) (right (a := ()) ?_ (next long))
    rw [Reader.atLeast, if_neg (by omega)]
  · refine refused (e := e) (by simp [Indexed.require, long, Indexed.refuse]) ?_
    rw [Reader.atLeast, if_pos (by omega)]

/-- A sum that fits. -/
theorem add {y : Except ε (β × Bytes)} {f : Nat → Indexed ε γ} (fits : pos + n < 2 ^ w)
    (next : Follows keep (f (pos + n)) y) : Follows keep (Indexed.add w pos n >>= f) y :=
  left (add_eq fits) next

/-- The last field ends the input. -/
theorem atEnd {e : ε} {f : Unit → Indexed ε γ} {g : Unit → Reader ε β} (start : pos ≤ bytes.length)
    (next : Follows keep (f ()) (g () [])) :
    Follows keep (Indexed.require (pos == bytes.length) e >>= f)
      ((Reader.atEnd e >>= g) (bytes.drop pos)) := by
  by_cases whole : pos = bytes.length
  · have empty : bytes.drop pos = [] := List.drop_eq_nil_of_le whole.ge
    refine left (a := ()) (by rw [Indexed.require, whole, beq_self_eq_true, if_pos rfl])
      (right (a := ()) ?_ next)
    rw [Reader.atEnd, if_pos empty]
  · have more : bytes.drop pos ≠ [] := by
      rw [Ne, List.drop_eq_nil_iff]
      omega
    have ended : Reader.atEnd e (bytes.drop pos) = .error e := by
      rw [Reader.atEnd, if_neg more]
    refine refused (r := Reader.atEnd e) (e := e) ?_ ended
    rw [Indexed.require, if_neg (by simpa using whole)]
    rfl

/-- A result computed without reading. -/
theorem lift {y : Except ε α} (same : x = y.mapError Stop.refused)
    (next : ∀ a, y = .ok a → Follows keep (f a) (g a input)) :
    Follows keep (x >>= f) ((Reader.lift y >>= g) input) := by
  cases y with
  | error e => exact refused same rfl
  | ok a => exact left same (right rfl (next a rfl))

end Follows

/-- What a run that is followed to its value returns. -/
theorem Follows.value {x : Indexed ε α} {r : Reader ε α} {bytes : Bytes}
    (follows : Follows Prod.fst x (r bytes)) : x = (r.value bytes).mapError Stop.refused := by
  rw [follows, Reader.value]
  cases r bytes <;> rfl

end Tacenta
