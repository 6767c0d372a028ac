/-
# Tacenta.Format -- readers that hand on what they did not read

Every decoder of the crates walks its input with a position and refuses with an
error of its own kind.  Here a decoder is a `Reader`: it takes a value off the
front of the input and hands on the rest.  `Reads r bytes a` says that `r` reads
`a` off `bytes` whatever follows them; the rules below compose it along a
decoder, one step at a time, so a round trip is a walk down the encoder.
-/
import Tacenta.Words

set_option autoImplicit false

namespace Tacenta

/-- A decoder over errors `ε`: the value it read and the input that is left. -/
abbrev Reader (ε : Type) := StateT Bytes (Except ε)

variable {ε α β : Type}

/-- A step of a fallible computation succeeded and the rest went on from it. -/
theorem bind_eq_ok {x : Except ε α} {f : α → Except ε β} {b : β} :
    (x >>= f) = .ok b ↔ ∃ a, x = .ok a ∧ f a = .ok b := by
  cases x <;> simp [bind, Except.bind]

theorem mapError_eq_ok {ε' : Type} {x : Except ε α} {f : ε → ε'} {a : α} :
    x.mapError f = .ok a ↔ x = .ok a := by
  cases x <;> simp [Except.mapError]

namespace Reader

def refuse (e : ε) : Reader ε α := fun _ => .error e

/-- Go on only when `ok`. -/
def require (ok : Bool) (e : ε) : Reader ε Unit := fun input =>
  if ok then .ok ((), input) else .error e

/-- The next `n` bytes. -/
def bytes (e : ε) (n : Nat) : Reader ε Bytes := fun input =>
  if input.length < n then .error e else .ok (input.take n, input.drop n)

/-- The next `n` bytes, as an array. -/
def arr (e : ε) (n : Nat) : Reader ε (Arr n) := fun input =>
  match Arr.ofBytes? n (input.take n) with
  | none => .error e
  | some a => .ok (a, input.drop n)

def u8 (e : ε) : Reader ε UInt8
  | [] => .error e
  | b :: rest => .ok (b, rest)

def u16 (e : ε) : Reader ε UInt16 := (fun b => UInt16.ofNat (ofBe b)) <$> bytes e 2
def u32 (e : ε) : Reader ε UInt32 := (fun b => UInt32.ofNat (ofBe b)) <$> bytes e 4
def u64 (e : ε) : Reader ε UInt64 := (fun b => UInt64.ofNat (ofBe b)) <$> bytes e 8

/-- A four-byte length, then that many bytes. -/
def lenPrefixed (e : ε) : Reader ε Bytes := do
  let len ← u32 e
  bytes e len.toNat

/-- What is left must be at least `n` bytes long. -/
def atLeast (e : ε) (n : Nat) : Reader ε Unit := fun input =>
  if input.length < n then .error e else .ok ((), input)

/-- `n` values, one after the other. -/
def many (r : Reader ε α) : Nat → Reader ε (List α)
  | 0 => pure []
  | n + 1 => do
      let a ← r
      let rest ← many r n
      pure (a :: rest)

/-- Trailing bytes are refused. -/
def atEnd (e : ε) : Reader ε Unit := fun input =>
  if input = [] then .ok ((), []) else .error e

/-- The value `r` reads off the front of the input. -/
def value (r : Reader ε α) (input : Bytes) : Except ε α :=
  match r input with
  | .error e => .error e
  | .ok (a, _) => .ok a

/-- A result computed without reading. -/
def lift (x : Except ε α) : Reader ε α := fun input =>
  match x with
  | .error e => .error e
  | .ok a => .ok (a, input)

/-- A value that may be missing. -/
def orRefuse (o : Option α) (e : ε) : Reader ε α := fun input =>
  match o with
  | none => .error e
  | some a => .ok (a, input)

/-- A presence byte, then a field of its full width either way: zeros when it is
absent, and nothing else. -/
def padded (e : ε) (width : Nat) (field : Reader ε α) : Reader ε (Option α) := do
  let tag ← u8 e
  let body ← bytes e width
  if tag = 0x00 then do
    require (body.all (· == 0)) e
    pure none
  else if tag = 0x01 then some <$> lift (field.value body)
  else refuse e

/-- A presence byte, and the value when there is one. -/
def tagged (e : ε) (r : Reader ε α) : Reader ε (Option α) := do
  let tag ← u8 e
  if tag = 0x00 then pure none
  else if tag = 0x01 then some <$> r
  else refuse e

/-- A four-byte count of at most `max`, then that many values. -/
def upTo (e : ε) (max : Nat) (r : Reader ε α) : Reader ε (List α) := do
  let count ← (fun v : UInt32 => v.toNat) <$> u32 e
  require (count ≤ max) e
  many r count

/-- A length-prefixed field with a decoder of its own. -/
def nested (e : ε) (decode : Bytes → Except ε α) : Reader ε α := do
  let field ← lenPrefixed e
  lift (decode field)

end Reader

/-- A length-prefixed field. -/
def lenPrefix (l : Bytes) : Bytes := be32 (UInt32.ofNat l.length) ++ l

@[simp] theorem length_lenPrefix (l : Bytes) : (lenPrefix l).length = 4 + l.length := by
  simp [lenPrefix]

/-- An optional field at its full width either way. -/
def writePadded (width : Nat) (write : α → Bytes) : Option α → Bytes
  | none => 0x00 :: List.replicate width 0
  | some a => 0x01 :: write a

/-- An optional field that takes up no more than it needs. -/
def writeTagged (write : α → Bytes) : Option α → Bytes
  | none => [0x00]
  | some a => 0x01 :: write a

theorem length_writePadded {width : Nat} {write : α → Bytes}
    (wide : ∀ a, (write a).length = width) (o : Option α) :
    (writePadded width write o).length = width + 1 := by
  cases o <;> simp [writePadded, wide]

/-- Entries of one width take that width each. -/
theorem length_flatMap_width {write : α → Bytes} {width : Nat}
    (wide : ∀ a, (write a).length = width) (l : List α) :
    (l.flatMap write).length = l.length * width := by
  simp [List.length_flatMap, wide]

/-- **`r` reads `a` off `bytes`**, whatever follows. -/
def Reads (r : Reader ε α) (bytes : Bytes) (a : α) : Prop :=
  ∀ rest, r (bytes ++ rest) = .ok (a, rest)

namespace Reads

open Reader

variable {r : Reader ε α} {f : α → Reader ε β} {a : α} {b : β} {x y : Bytes}

theorem of_pure (a : α) : Reads (pure a : Reader ε α) [] a := fun _ => rfl

theorem bind (first : Reads r x a) (second : Reads (f a) y b) : Reads (r >>= f) (x ++ y) b := by
  intro rest
  have step : (r >>= f) (x ++ y ++ rest) = (r (x ++ y ++ rest) >>= fun p => f p.1 p.2) := rfl
  rw [step, List.append_assoc, first]
  exact second rest

theorem map (first : Reads r x a) (g : α → β) : Reads (g <$> r) x (g a) := by
  intro rest
  have step : (g <$> r) (x ++ rest) = (r (x ++ rest) >>= fun p => pure (g p.1, p.2)) := rfl
  rw [step, first]
  rfl

/-- A step that reads nothing. -/
theorem bind_nil (first : Reads r [] a) (second : Reads (f a) y b) : Reads (r >>= f) y b :=
  first.bind second

/-- The last step of a decoder. -/
theorem bind_last (first : Reads r x a) (second : Reads (f a) [] b) : Reads (r >>= f) x b := by
  simpa using first.bind second

theorem require {ok : Bool} (e : ε) (holds : ok = true) : Reads (Reader.require ok e) [] () := by
  intro rest
  simp [Reader.require, holds]

theorem lift {x : Except ε α} (computed : x = .ok a) : Reads (Reader.lift x) [] a := by
  intro rest
  rw [computed]
  rfl

theorem orRefuse {o : Option α} (e : ε) (found : o = some a) : Reads (Reader.orRefuse o e) [] a := by
  intro rest
  rw [found]
  rfl

theorem bytes (e : ε) {n : Nat} {l : Bytes} (len : l.length = n) : Reads (Reader.bytes e n) l l := by
  intro rest
  subst len
  simp [Reader.bytes]

theorem arr (e : ε) {n : Nat} (v : Arr n) : Reads (Reader.arr e n) v.toList v := by
  intro rest
  have prefixed : (v.toList ++ rest).take n = v.toList := List.take_left' (by simp)
  have suffix : (v.toList ++ rest).drop n = rest := List.drop_left' (by simp)
  simp only [Reader.arr, prefixed, suffix, Arr.ofBytes?_toList]

theorem u8 (e : ε) (v : UInt8) : Reads (Reader.u8 e) [v] v := fun _ => rfl

theorem u16 (e : ε) (v : UInt16) : Reads (Reader.u16 e) (be16 v) v := by
  have decoded : UInt16.ofNat (ofBe (be16 v)) = v := by
    have := v.toNat_lt
    rw [be16, ofBe_beBytes, Nat.mod_eq_of_lt (by simpa using this), UInt16.ofNat_toNat]
  simpa [decoded, Reader.u16] using
    (Reads.bytes e (length_be16 v)).map fun b => UInt16.ofNat (ofBe b)

theorem u32 (e : ε) (v : UInt32) : Reads (Reader.u32 e) (be32 v) v := by
  have decoded : UInt32.ofNat (ofBe (be32 v)) = v := by
    have := v.toNat_lt
    rw [be32, ofBe_beBytes, Nat.mod_eq_of_lt (by simpa using this), UInt32.ofNat_toNat]
  simpa [decoded, Reader.u32] using
    (Reads.bytes e (length_be32 v)).map fun b => UInt32.ofNat (ofBe b)

theorem u64 (e : ε) (v : UInt64) : Reads (Reader.u64 e) (be64 v) v := by
  have decoded : UInt64.ofNat (ofBe (be64 v)) = v := by
    have := v.toNat_lt
    rw [be64, ofBe_beBytes, Nat.mod_eq_of_lt (by simpa using this), UInt64.ofNat_toNat]
  simpa [decoded, Reader.u64] using
    (Reads.bytes e (length_be64 v)).map fun b => UInt64.ofNat (ofBe b)

/-- A count written in four bytes reads back, below `2 ^ 32`. -/
theorem count (e : ε) {n : Nat} (small : n < 2 ^ 32) :
    Reads ((fun v : UInt32 => v.toNat) <$> Reader.u32 e) (be32 (UInt32.ofNat n)) n := by
  have := (u32 e (UInt32.ofNat n)).map fun v => v.toNat
  rwa [UInt32.toNat_ofNat', Nat.mod_eq_of_lt small] at this

theorem lenPrefixed (e : ε) {l : Bytes} (small : l.length < 2 ^ 32) :
    Reads (Reader.lenPrefixed e) (lenPrefix l) l := by
  refine (u32 e (UInt32.ofNat l.length)).bind (Reads.bytes e ?_)
  rw [UInt32.toNat_ofNat', Nat.mod_eq_of_lt small]

theorem many {w : α → Bytes} {l : List α} (each : ∀ a ∈ l, Reads r (w a) a) :
    Reads (Reader.many r l.length) (l.flatMap w) l := by
  induction l with
  | nil => exact of_pure []
  | cons a rest ih =>
      refine (each a (by simp)).bind ?_
      refine bind_last (ih fun b hb => each b (by simp [hb])) ?_
      exact of_pure _

theorem tagged (e : ε) {w : α → Bytes} (each : ∀ a, Reads r (w a) a) (o : Option α) :
    Reads (Reader.tagged e r) (writeTagged w o) o := by
  cases o with
  | none => exact (u8 e 0x00).bind (of_pure none)
  | some a => exact (u8 e 0x01).bind ((each a).map some)

theorem upTo (e : ε) {max : Nat} {w : α → Bytes} {l : List α} (few : l.length ≤ max)
    (small : max < 2 ^ 32) (each : ∀ a, Reads r (w a) a) :
    Reads (Reader.upTo e max r) (be32 (UInt32.ofNat l.length) ++ l.flatMap w) l := by
  refine (count e (Nat.lt_of_le_of_lt few small)).bind ?_
  refine bind_nil (require e (decide_eq_true few)) ?_
  exact many fun a _ => each a

theorem nested (e : ε) {decode : Bytes → Except ε α} {l : Bytes} (small : l.length < 2 ^ 32)
    (decodes : decode l = .ok a) : Reads (Reader.nested e decode) (lenPrefix l) a := by
  refine bind_last (lenPrefixed e small) ?_
  intro rest
  simp [Reader.lift, decodes]

/-- Nothing has to follow what is read. -/
theorem all (reads : Reads r x a) : r x = .ok (a, []) := by
  simpa using reads []

end Reads

/-- **`r` reads `a` off the whole of `bytes`**: nothing is left. -/
def ReadsAll (r : Reader ε α) (bytes : Bytes) (a : α) : Prop := r bytes = .ok (a, [])

namespace ReadsAll

variable {r : Reader ε α} {f : α → Reader ε β} {a : α} {b : β} {x y : Bytes}

theorem bind (first : Reads r x a) (second : ReadsAll (f a) y b) : ReadsAll (r >>= f) (x ++ y) b := by
  have step : (r >>= f) (x ++ y) = (r (x ++ y) >>= fun p => f p.1 p.2) := rfl
  rw [ReadsAll, step, first]
  exact second

theorem bind_last (first : Reads r x a) (second : ReadsAll (f a) [] b) : ReadsAll (r >>= f) x b := by
  simpa using ReadsAll.bind first second

theorem of_reads (reads : Reads r x a) : ReadsAll r x a := reads.all

/-- A step that reads nothing. -/
theorem bind_nil (first : Reads r [] a) (second : ReadsAll (f a) y b) : ReadsAll (r >>= f) y b :=
  ReadsAll.bind first second

/-- A length check the input passes is no step of the decoder. -/
theorem atLeast {e : ε} {n : Nat} {f : Unit → Reader ε β} (long : n ≤ x.length)
    (next : ReadsAll (f ()) x b) : ReadsAll (Reader.atLeast e n >>= f) x b := by
  have step : (Reader.atLeast e n >>= f) x = (Reader.atLeast e n x >>= fun p => f p.1 p.2) := rfl
  rw [ReadsAll, step, Reader.atLeast, if_neg (by omega)]
  exact next

theorem atEnd (e : ε) {f : Unit → Reader ε β} (next : ReadsAll (f ()) [] b) :
    ReadsAll (Reader.atEnd e >>= f) [] b := next

theorem of_pure (a : α) : ReadsAll (pure a : Reader ε α) [] a := rfl

/-- Reading a whole encoding yields the value it encodes. -/
theorem value (reads : ReadsAll r x a) : r.value x = .ok a := by
  rw [Reader.value, show r x = .ok (a, []) from reads]

/-- A padded field reads back. -/
theorem padded (e : ε) {width : Nat} {field : Reader ε α} {write : α → Bytes}
    (wide : ∀ a, (write a).length = width) (each : ∀ a, ReadsAll field (write a) a)
    (o : Option α) : Reads (Reader.padded e width field) (writePadded width write o) o := by
  cases o with
  | none =>
      refine (Reads.u8 e 0x00).bind (.bind_last (Reads.bytes e (by simp)) ?_)
      exact .bind_nil (.require e (by simp)) (.of_pure _)
  | some a =>
      refine (Reads.u8 e 0x01).bind (.bind_last (Reads.bytes e (wide a)) ?_)
      intro rest
      simp [value (each a)]
      rfl

end ReadsAll

/-! ## Postconditions -/

/-- Whatever `r` reads satisfies `P`. -/
def Ensures (r : Reader ε α) (P : α → Prop) : Prop :=
  ∀ input a rest, r input = .ok (a, rest) → P a

namespace Ensures

variable {r : Reader ε α} {f : α → Reader ε β} {P : α → Prop} {Q : β → Prop}

theorem anything (r : Reader ε α) : Ensures r fun _ => True := fun _ _ _ _ => trivial

theorem bind (first : Ensures r P) (second : ∀ a, P a → Ensures (f a) Q) : Ensures (r >>= f) Q := by
  intro input b rest read
  have step : (r >>= f) input = (r input >>= fun p => f p.1 p.2) := rfl
  rw [step, bind_eq_ok] at read
  obtain ⟨⟨a, left⟩, here, there⟩ := read
  exact second a (first input a left here) left b rest there

/-- A step whose value nothing is asked of. -/
theorem skip (second : ∀ a, Ensures (f a) Q) : Ensures (r >>= f) Q :=
  (anything r).bind fun a _ => second a

theorem of_pure {a : α} (holds : P a) : Ensures (pure a : Reader ε α) P := by
  intro input a' rest read
  have same : a = a' := congrArg Prod.fst (Except.ok.inj read)
  exact same ▸ holds

theorem lift {x : Except ε α} (holds : ∀ a, x = .ok a → P a) : Ensures (Reader.lift x) P := by
  intro input a rest read
  unfold Reader.lift at read
  cases x with
  | error e => simp at read
  | ok a' =>
      simp only [Except.ok.injEq, Prod.mk.injEq] at read
      exact holds a (congrArg Except.ok read.1)

theorem refuse (e : ε) : Ensures (Reader.refuse e : Reader ε α) P := by
  intro input a rest read
  simp [Reader.refuse] at read

theorem nested (e : ε) {decode : Bytes → Except ε α}
    (holds : ∀ l a, decode l = .ok a → P a) : Ensures (Reader.nested e decode) P :=
  skip fun l => lift (holds l)

theorem require {ok : Bool} (e : ε) : Ensures (Reader.require ok e) fun _ => ok = true := by
  intro input a rest read
  cases ok with
  | true => rfl
  | false => simp [Reader.require] at read

theorem value (ensures : Ensures r P) {input : Bytes} {a : α} (read : r.value input = .ok a) :
    P a := by
  unfold Reader.value at read
  split at read
  · simp at read
  · rename_i a' rest here
    rw [← Except.ok.inj read]
    exact ensures input a' rest here

end Ensures

/-! ## What was read -/

/-- Whatever `r` reads off the front, of which bytes, satisfies `P`. -/
def Consumes (r : Reader ε α) (P : Bytes → α → Prop) : Prop :=
  ∀ input a rest, r input = .ok (a, rest) → ∃ used, input = used ++ rest ∧ P used a

namespace Consumes

variable {r : Reader ε α} {f : α → Reader ε β} {P : Bytes → α → Prop} {Q : Bytes → β → Prop}

theorem bind (first : Consumes r P)
    (second : ∀ used a, P used a → Consumes (f a) fun more b => Q (used ++ more) b) :
    Consumes (r >>= f) Q := by
  intro input b rest read
  have step : (r >>= f) input = (r input >>= fun p => f p.1 p.2) := rfl
  rw [step, bind_eq_ok] at read
  obtain ⟨⟨a, left⟩, here, there⟩ := read
  obtain ⟨used, rfl, reads⟩ := first input a left here
  obtain ⟨more, rfl, holds⟩ := second used a reads left b rest there
  exact ⟨used ++ more, (List.append_assoc _ _ _).symm, holds⟩

theorem mono {P' : Bytes → α → Prop} (reads : Consumes r P) (weaker : ∀ used a, P used a → P' used a) :
    Consumes r P' := by
  intro input a rest read
  obtain ⟨used, split, holds⟩ := reads input a rest read
  exact ⟨used, split, weaker used a holds⟩

theorem of_pure {a : α} (holds : P [] a) : Consumes (pure a : Reader ε α) P := by
  intro input a' rest read
  have same : (a, input) = (a', rest) := Except.ok.inj read
  simp only [Prod.mk.injEq] at same
  obtain ⟨rfl, rfl⟩ := same
  exact ⟨[], rfl, holds⟩

theorem map {g : α → β} (reads : Consumes r fun used a => Q used (g a)) : Consumes (g <$> r) Q := by
  intro input b rest read
  have step : (g <$> r) input = (r input >>= fun p => pure (g p.1, p.2)) := rfl
  rw [step, bind_eq_ok] at read
  obtain ⟨⟨a, left⟩, here, there⟩ := read
  have same : (g a, left) = (b, rest) := Except.ok.inj there
  simp only [Prod.mk.injEq] at same
  obtain ⟨rfl, rfl⟩ := same
  exact reads input a left here

theorem require {ok : Bool} (e : ε) :
    Consumes (Reader.require ok e) fun used _ => used = [] ∧ ok = true := by
  intro input a rest read
  cases ok with
  | true => exact ⟨[], congrArg Prod.snd (Except.ok.inj read), rfl, rfl⟩
  | false => simp [Reader.require] at read

theorem refuse (e : ε) : Consumes (Reader.refuse e : Reader ε α) P := by
  intro input a rest read
  simp [Reader.refuse] at read

theorem lift {x : Except ε α} : Consumes (Reader.lift x) fun used a => used = [] ∧ x = .ok a := by
  intro input a rest read
  unfold Reader.lift at read
  cases x with
  | error e => simp at read
  | ok a' =>
      simp only [Except.ok.injEq, Prod.mk.injEq] at read
      exact ⟨[], read.2, rfl, congrArg Except.ok read.1⟩

theorem orRefuse {o : Option α} (e : ε) :
    Consumes (Reader.orRefuse o e) fun used a => used = [] ∧ o = some a := by
  intro input a rest read
  cases o with
  | none => cases read
  | some a' =>
      have same : (a', input) = (a, rest) := Except.ok.inj read
      simp only [Prod.mk.injEq] at same
      obtain ⟨rfl, rfl⟩ := same
      exact ⟨[], rfl, rfl, rfl⟩

theorem atEnd (e : ε) : Consumes (Reader.atEnd e) fun used _ => used = [] := by
  intro input a rest read
  unfold Reader.atEnd at read
  split at read
  · rename_i empty
    exact ⟨[], empty.trans (congrArg Prod.snd (Except.ok.inj read)), rfl⟩
  · simp at read

theorem bytes (e : ε) (n : Nat) :
    Consumes (Reader.bytes e n) fun used l => used = l ∧ l.length = n := by
  intro input l rest read
  unfold Reader.bytes at read
  split at read
  · simp at read
  · rename_i long
    simp only [Except.ok.injEq, Prod.mk.injEq] at read
    obtain ⟨rfl, rfl⟩ := read
    exact ⟨input.take n, (List.take_append_drop n input).symm, rfl, by
      rw [List.length_take]
      omega⟩

theorem arr (e : ε) (n : Nat) : Consumes (Reader.arr e n) fun used v => used = v.toList := by
  intro input v rest read
  unfold Reader.arr at read
  split at read
  · simp at read
  · rename_i a found
    simp only [Except.ok.injEq, Prod.mk.injEq] at read
    obtain ⟨rfl, rfl⟩ := read
    exact ⟨input.take n, (List.take_append_drop n input).symm, Arr.ofBytes?_eq_some.1 found⟩

theorem u8 (e : ε) : Consumes (Reader.u8 e) fun used v => used = [v] := by
  intro input v rest read
  cases input with
  | nil => simp [Reader.u8] at read
  | cons b left =>
      simp only [Reader.u8, Except.ok.injEq, Prod.mk.injEq] at read
      obtain ⟨rfl, rfl⟩ := read
      exact ⟨[b], rfl, rfl⟩

theorem u32 (e : ε) : Consumes (Reader.u32 e) fun used v => used = be32 v := by
  refine .map ((bytes e 4).mono ?_)
  rintro used l ⟨rfl, four⟩
  have small : ofBe used < 2 ^ 32 := by
    have := ofBe_lt used
    rw [four] at this
    exact this
  rw [be32, UInt32.toNat_ofNat', Nat.mod_eq_of_lt small, ← four, beBytes_ofBe]

theorem u16 (e : ε) : Consumes (Reader.u16 e) fun used v => used = be16 v := by
  refine .map ((bytes e 2).mono ?_)
  rintro used l ⟨rfl, two⟩
  have small : ofBe used < 2 ^ 16 := by
    have := ofBe_lt used
    rw [two] at this
    exact this
  rw [be16, UInt16.toNat_ofNat', Nat.mod_eq_of_lt small, ← two, beBytes_ofBe]

theorem u64 (e : ε) : Consumes (Reader.u64 e) fun used v => used = be64 v := by
  refine .map ((bytes e 8).mono ?_)
  rintro used l ⟨rfl, eight⟩
  have small : ofBe used < 2 ^ 64 := by
    have := ofBe_lt used
    rw [eight] at this
    exact this
  rw [be64, UInt64.toNat_ofNat', Nat.mod_eq_of_lt small, ← eight, beBytes_ofBe]

/-- A length check reads nothing. -/
theorem atLeast (e : ε) (n : Nat) : Consumes (Reader.atLeast e n) fun used _ => used = [] := by
  intro input a rest read
  unfold Reader.atLeast at read
  split at read
  · simp at read
  · exact ⟨[], congrArg Prod.snd (Except.ok.inj read), rfl⟩

/-- A count, as the number it is written for. -/
theorem count (e : ε) : Consumes ((fun v : UInt32 => v.toNat) <$> Reader.u32 e) fun used n =>
    used = be32 (UInt32.ofNat n) := by
  refine .map ((u32 e).mono ?_)
  rintro used v rfl
  rw [UInt32.ofNat_toNat]

theorem lenPrefixed (e : ε) : Consumes (Reader.lenPrefixed e) fun used l => used = lenPrefix l := by
  refine .bind (u32 e) ?_
  rintro _ len rfl
  refine (bytes e len.toNat).mono ?_
  rintro used l ⟨rfl, length⟩
  rw [lenPrefix, length, UInt32.ofNat_toNat]

theorem many {write : α → Bytes} (each : Consumes r fun used a => used = write a ∧ P used a)
    (n : Nat) : Consumes (Reader.many r n) fun used l =>
      used = l.flatMap write ∧ l.length = n ∧ ∀ a ∈ l, P (write a) a := by
  induction n with
  | zero => exact .of_pure ⟨rfl, rfl, by simp⟩
  | succ n ih =>
      refine .bind each ?_
      rintro _ a ⟨rfl, holds⟩
      refine .bind ih ?_
      rintro _ l ⟨rfl, length, rest⟩
      refine .of_pure ⟨?_, ?_, ?_⟩
      · rw [List.append_nil, List.flatMap_cons]
      · rw [List.length_cons, length]
      · rintro b member
        rcases List.mem_cons.1 member with rfl | later
        · exact holds
        · exact rest b later

theorem nested (e : ε) (decode : Bytes → Except ε α) :
    Consumes (Reader.nested e decode) fun used a => ∃ l, used = lenPrefix l ∧ decode l = .ok a := by
  refine .bind (lenPrefixed e) ?_
  rintro _ l rfl
  refine lift.mono ?_
  rintro _ a ⟨rfl, decoded⟩
  exact ⟨l, List.append_nil _, decoded⟩

/-- A padded field has one spelling, absent or present. -/
theorem padded (e : ε) {width : Nat} {field : Reader ε α} {write : α → Bytes}
    (each : ∀ body a, body.length = width → field.value body = .ok a → body = write a) :
    Consumes (Reader.padded e width field) fun used o => used = writePadded width write o := by
  refine .bind (u8 e) ?_
  rintro _ tag rfl
  refine .bind (bytes e width) ?_
  rintro body _ ⟨rfl, length⟩
  by_cases absent : tag = 0x00
  · rw [if_pos absent]
    refine .bind (require e) ?_
    rintro _ - ⟨rfl, zero⟩
    refine of_pure ?_
    have zeros : body = List.replicate width 0 := by
      rw [List.eq_replicate_iff]
      exact ⟨length, fun b member => beq_iff_eq.1 (List.all_eq_true.1 zero b member)⟩
    rw [writePadded, absent, zeros]
    simp
  · rw [if_neg absent]
    by_cases present : tag = 0x01
    · rw [if_pos present]
      refine .map (lift.mono ?_)
      rintro _ a ⟨rfl, read⟩
      rw [writePadded, present, ← each body a length read]
      simp
    · rw [if_neg present]
      exact refuse e

/-- What `value` takes off the whole input. -/
theorem value (reads : Consumes r P) {input : Bytes} {a : α} (read : r.value input = .ok a) :
    ∃ used rest, input = used ++ rest ∧ P used a := by
  unfold Reader.value at read
  split at read
  · simp at read
  · rename_i a' rest here
    rw [← Except.ok.inj read]
    obtain ⟨used, split, holds⟩ := reads input a' rest here
    exact ⟨used, rest, split, holds⟩

/-- A padded field of a reader that takes the field's full width. -/
theorem padded_of_width (e : ε) {width : Nat} {field : Reader ε α} {write : α → Bytes}
    (takes : Consumes field fun used a => used = write a)
    (wide : ∀ a, (write a).length = width) :
    Consumes (Reader.padded e width field) fun used o => used = writePadded width write o := by
  refine padded e fun body a length read => ?_
  obtain ⟨used, rest, rfl, rfl⟩ := takes.value read
  have short := wide a
  rw [List.length_append] at length
  rw [List.length_eq_zero_iff.1 (by omega : rest.length = 0), List.append_nil]

end Consumes

/-! ## What a whole input was read as -/

/-- Whatever `r` reads, the whole input and what was read satisfy `P`. -/
def Exhausts (r : Reader ε α) (P : Bytes → α → Prop) : Prop :=
  ∀ input a rest, r input = .ok (a, rest) → P input a

namespace Exhausts

variable {r : Reader ε α} {f : α → Reader ε β} {P : Bytes → α → Prop} {Q : Bytes → β → Prop}

theorem bind (first : Consumes r P)
    (second : ∀ used a, P used a → Exhausts (f a) fun more b => Q (used ++ more) b) :
    Exhausts (r >>= f) Q := by
  intro input b rest read
  have step : (r >>= f) input = (r input >>= fun p => f p.1 p.2) := rfl
  rw [step, bind_eq_ok] at read
  obtain ⟨⟨a, left⟩, here, there⟩ := read
  obtain ⟨used, rfl, reads⟩ := first input a left here
  exact second used a reads left b rest there

/-- Past the end of the input nothing is read. -/
theorem atEnd (e : ε) {f : Unit → Reader ε β} (next : Ensures (f ()) (Q [])) :
    Exhausts (Reader.atEnd e >>= f) Q := by
  intro input b rest read
  have step : (Reader.atEnd e >>= f) input = (Reader.atEnd e input >>= fun p => f p.1 p.2) := rfl
  rw [step, bind_eq_ok] at read
  obtain ⟨⟨_, left⟩, ended, there⟩ := read
  unfold Reader.atEnd at ended
  split at ended
  · rename_i empty
    rw [empty]
    exact next left b rest there
  · simp at ended

theorem value (reads : Exhausts r P) {input : Bytes} {a : α} (read : r.value input = .ok a) :
    P input a := by
  unfold Reader.value at read
  split at read
  · simp at read
  · rename_i a' rest here
    rw [← Except.ok.inj read]
    exact reads input a' rest here

end Exhausts

end Tacenta
