/-
# Tacenta.Identities.Digest -- comparing two identities

`sessions/identity.rs`, the identity pair digest and the verification number.
The digest hashes a label and the two keys in the order of their bytes, so it
does not depend on who computes it; the comparison is a pass that keeps the first
difference (`unsignedBytesLe_iff`).  The number is the digest's residue below
`10^60`, its digits the remainders of sixty divisions by ten, each a pass over
the bytes (`divideByTen_spells`).
-/
import Tacenta.Ordered
import Tacenta.Curve

set_option autoImplicit false

namespace Tacenta.Identities

variable {K : Type}

/-! ## The digest -/

/-- Why a presented key is refused. -/
inductive KeyRefusal where
  | notCanonical
  | invalidIdentityKey
  deriving DecidableEq, Repr

/-- `b"Tacenta:identity:pair-digest:v1\xff"`. -/
def pairDigestLabel : Bytes := ascii "Tacenta:identity:pair-digest:v1" ++ [0xff]

/-- The identity-key rule, the canonical encoding first. -/
def identityKeyRefusal (dh : Dh K) (key : Arr 32) : Option KeyRefusal :=
  if !Curve.isCanonicalX25519 key then some .notCanonical
  else if !dh.isValidIdentityKey key then some .invalidIdentityKey
  else none

/-- One byte of each key: the first that differs decides. -/
def lePass (s : Bool × Bool) (bytes : UInt8 × UInt8) : Bool × Bool :=
  if !s.1 && bytes.1 != bytes.2 then (true, decide (bytes.1 < bytes.2)) else s

def unsignedBytesLe (a b : Arr 32) : Bool :=
  ((a.toList.zip b.toList).foldl lePass (false, true)).2

/-- `lo` and `hi`. -/
def sortPair (k1 k2 : Arr 32) : Arr 32 × Arr 32 := if unsignedBytesLe k1 k2 then (k1, k2) else (k2, k1)

/-- What the pair digest hashes. -/
def pairPreimage (k1 k2 : Arr 32) : Bytes :=
  let (lo, hi) := sortPair k1 k2
  pairDigestLabel ++ lo.toList ++ hi.toList

def identityPairDigest (dh : Dh K) (sha256 : Bytes → Arr 32) (k1 k2 : Arr 32) :
    Except KeyRefusal (Arr 32) :=
  match identityKeyRefusal dh k1 with
  | some refusal => .error refusal
  | none =>
      match identityKeyRefusal dh k2 with
      | some refusal => .error refusal
      | none => .ok (sha256 (pairPreimage k1 k2))

/-! ## The verification number -/

/-- One pass of the long division: the quotient in the bytes' place, and what remains. -/
def divideByTen : UInt32 → Bytes → Bytes × UInt32
  | rem, [] => ([], rem)
  | rem, b :: rest =>
      let acc := rem * 256 + b.toUInt32
      let (quotient, last) := divideByTen (acc % 10) rest
      ((acc / 10).toUInt8 :: quotient, last)

/-- Pass `d` leaves the digit of `10^d`, which goes in from the back. -/
def digitPass (s : Bytes × Arr 60) (d : Nat) : Bytes × Arr 60 :=
  let (n, rem) := divideByTen 0 s.1
  (n, s.2.setIfInBounds (60 - 1 - d) (0x30 + rem.toUInt8))

def verificationNumber (digest : Arr 32) : Arr 60 :=
  ((List.range 60).foldl digitPass (digest.toList, Vector.replicate 60 0x30)).2

/-- Twelve groups of five, a space between each two. -/
def verificationNumberGrouped (number : Arr 60) : Arr 71 :=
  (List.range 60).foldl (fun out i => out.setIfInBounds (i + i / 5) (number.toList.getD i 0))
    (Vector.replicate 71 0x20)

/-! ## The order of the keys -/

theorem lePass_decided (pairs : List (UInt8 × UInt8)) (result : Bool) :
    pairs.foldl lePass (true, result) = (true, result) := by
  induction pairs with
  | nil => rfl
  | cons pair rest ih => exact ih

/-- The pass finds the first difference. -/
theorem lePass_compare {x y : Bytes} (len : x.length = y.length) :
    ((x.zip y).foldl lePass (false, true)).2 = (compare x y).isLE := by
  induction x generalizing y with
  | nil =>
      have empty : y = [] := List.length_eq_zero_iff.1 len.symm
      subst empty
      rfl
  | cons a x ih =>
      cases y with
      | nil => cases len
      | cons b y =>
          rw [List.zip_cons_cons, List.foldl_cons, List.compare_cons_cons, lePass]
          by_cases same : a = b
          · subst same
            have equal : compare a a = .eq := Std.LawfulEqOrd.compare_eq_iff_eq.2 rfl
            simp only [Bool.not_false, bne_self_eq_false, Bool.and_false, Bool.false_eq_true, if_false]
            rw [equal, Ordering.eq_then]
            exact ih (Nat.succ.inj len)
          · have differs : (a != b) = true := bne_iff_ne.2 same
            simp only [Bool.not_false, differs, Bool.and_self, if_true, lePass_decided]
            cases decided : compare a b with
            | lt => simp [Std.compare_eq_lt.1 decided]
            | gt =>
                have above := Std.compare_eq_gt.1 decided
                simp [UInt8.le_of_lt above]
            | eq => exact absurd (Std.LawfulEqOrd.eq_of_compare decided) same

/-- **The comparison is the order of the numbers the bytes spell**, so it is total
and never equates two keys. -/
theorem unsignedBytesLe_iff (a b : Arr 32) :
    unsignedBytesLe a b = true ↔ ofBe a.toList ≤ ofBe b.toList := by
  have len : a.toList.length = b.toList.length := by rw [Arr.length_toList, Arr.length_toList]
  rw [unsignedBytesLe, lePass_compare len, compare_ofBe len, Nat.isLE_compare]

theorem ofBe_toList_inj {a b : Arr 32} (same : ofBe a.toList = ofBe b.toList) : a = b := by
  have left := beBytes_ofBe a.toList
  have right := beBytes_ofBe b.toList
  rw [Arr.length_toList] at left right
  rw [same] at left
  exact Arr.toList_inj.1 (left.symm.trans right)

/-- The sorted pair does not depend on the order of the arguments. -/
theorem sortPair_comm (k1 k2 : Arr 32) : sortPair k1 k2 = sortPair k2 k1 := by
  unfold sortPair
  by_cases below : ofBe k1.toList ≤ ofBe k2.toList
  · rw [if_pos ((unsignedBytesLe_iff k1 k2).2 below)]
    by_cases above : ofBe k2.toList ≤ ofBe k1.toList
    · rw [if_pos ((unsignedBytesLe_iff k2 k1).2 above), ofBe_toList_inj (le_antisymm below above)]
    · rw [if_neg fun le => above ((unsignedBytesLe_iff k2 k1).1 le)]
  · rw [if_neg fun le => below ((unsignedBytesLe_iff k1 k2).1 le),
      if_pos ((unsignedBytesLe_iff k2 k1).2 (by omega))]

theorem pairPreimage_comm (k1 k2 : Arr 32) : pairPreimage k1 k2 = pairPreimage k2 k1 := by
  rw [pairPreimage, sortPair_comm, pairPreimage]

theorem sortPair_cases (k1 k2 : Arr 32) : sortPair k1 k2 = (k1, k2) ∨ sortPair k1 k2 = (k2, k1) := by
  unfold sortPair
  split
  · exact .inl rfl
  · exact .inr rfl

/-- **The preimage is the unordered pair's.** -/
theorem pairPreimage_eq_iff (k1 k2 k1' k2' : Arr 32) :
    pairPreimage k1 k2 = pairPreimage k1' k2' ↔ s(k1, k2) = s(k1', k2') := by
  constructor
  · intro same
    have sorted : sortPair k1 k2 = sortPair k1' k2' := by
      simp only [pairPreimage, List.append_assoc] at same
      have keys := List.append_cancel_left same
      obtain ⟨lo, hi⟩ := List.append_inj keys (by rw [Arr.length_toList, Arr.length_toList])
      exact Prod.ext (Arr.toList_inj.1 lo) (Arr.toList_inj.1 hi)
    rw [Sym2.eq_iff]
    obtain here | here := sortPair_cases k1 k2 <;> obtain there | there := sortPair_cases k1' k2' <;>
      rw [here, there, Prod.mk.injEq] at sorted <;> tauto
  · intro same
    obtain ⟨rfl, rfl⟩ | ⟨rfl, rfl⟩ := Sym2.eq_iff.1 same
    · rfl
    · exact pairPreimage_comm _ _

/-! ## The division -/

/-- One pass divides: the quotient's bytes and the remainder, exactly. -/
theorem divideByTen_spells {rem : UInt32} (small : rem.toNat < 10) (l : Bytes) :
    (divideByTen rem l).1.length = l.length ∧
      ofBe (divideByTen rem l).1 = (rem.toNat * 256 ^ l.length + ofBe l) / 10 ∧
      (divideByTen rem l).2.toNat = (rem.toNat * 256 ^ l.length + ofBe l) % 10 := by
  induction l generalizing rem with
  | nil =>
      refine ⟨rfl, ?_, ?_⟩
      · show 0 = (rem.toNat * 1 + 0) / 10
        omega
      · show rem.toNat = (rem.toNat * 1 + 0) % 10
        omega
  | cons b rest ih =>
      have byte := b.toNat_lt
      have acc : (rem * 256 + b.toUInt32).toNat = rem.toNat * 256 + b.toNat := by
        rw [UInt32.toNat_add, UInt32.toNat_mul, UInt8.toNat_toUInt32]
        show (rem.toNat * 256 % 2 ^ 32 + b.toNat) % 2 ^ 32 = _
        omega
      have carried : ((rem * 256 + b.toUInt32) % 10).toNat = (rem.toNat * 256 + b.toNat) % 10 := by
        rw [UInt32.toNat_mod, acc]
        rfl
      have digit : ((rem * 256 + b.toUInt32) / 10).toUInt8.toNat = (rem.toNat * 256 + b.toNat) / 10 := by
        rw [UInt32.toNat_toUInt8, UInt32.toNat_div, acc]
        show (rem.toNat * 256 + b.toNat) / 10 % 256 = _
        omega
      obtain ⟨length, quotient, last⟩ := @ih ((rem * 256 + b.toUInt32) % 10)
        (by rw [carried]; omega)
      rw [carried] at quotient last
      have value : rem.toNat * 256 ^ (b :: rest).length + ofBe (b :: rest) =
          (rem.toNat * 256 + b.toNat) * 256 ^ rest.length + ofBe rest := by
        rw [ofBe_cons, List.length_cons, pow_succ]
        ring
      refine ⟨congrArg Nat.succ length, ?_, ?_⟩
      · rw [divideByTen, value, ofBe_cons, length, digit, quotient]
        generalize rem.toNat * 256 + b.toNat = a
        have split_ : a * 256 ^ rest.length + ofBe rest =
            10 * (a / 10 * 256 ^ rest.length) + (a % 10 * 256 ^ rest.length + ofBe rest) := by
          conv_lhs => rw [← Nat.div_add_mod a 10]
          ring
        rw [split_, Nat.mul_add_div (by decide)]
      · rw [divideByTen, value, last]
        generalize rem.toNat * 256 + b.toNat = a
        have split_ : a * 256 ^ rest.length + ofBe rest =
            10 * (a / 10 * 256 ^ rest.length) + (a % 10 * 256 ^ rest.length + ofBe rest) := by
          conv_lhs => rw [← Nat.div_add_mod a 10]
          ring
        rw [split_, Nat.mul_add_mod]

/-- The ASCII digit of `10^i` in a number. -/
def digitAt (v i : Nat) : UInt8 := UInt8.ofNat (48 + v / 10 ^ i % 10)

/-- After `count` passes the bytes spell what is left, and the last `count` digits are in. -/
theorem digitPass_run (digest : Arr 32) {count : Nat} (few : count ≤ 60) :
    let s := (List.range count).foldl digitPass (digest.toList, Vector.replicate 60 0x30)
    ofBe s.1 = ofBe digest.toList / 10 ^ count ∧
      ∀ i < count, s.2.toList[60 - 1 - i]? = some (digitAt (ofBe digest.toList) i) := by
  induction count with
  | zero => exact ⟨(Nat.div_one _).symm, fun i none_ => absurd none_ (Nat.not_lt_zero i)⟩
  | succ count ih =>
      obtain ⟨spelled, digits⟩ := ih (by omega)
      simp only [List.range_succ, List.foldl_append, List.foldl_cons, List.foldl_nil]
      generalize (List.range count).foldl digitPass (digest.toList, Vector.replicate 60 0x30) = s at *
      obtain ⟨-, quotient, last⟩ := @divideByTen_spells 0 (by decide) s.1
      have whole : (0 : UInt32).toNat * 256 ^ s.1.length + ofBe s.1 = ofBe s.1 := by
        rw [UInt32.toNat_zero, Nat.zero_mul, Nat.zero_add]
      rw [whole, spelled] at quotient last
      refine ⟨?_, fun i inside => ?_⟩
      · show ofBe (divideByTen 0 s.1).1 = _
        rw [quotient, Nat.div_div_eq_div_mul, ← pow_succ]
      · show (s.2.setIfInBounds (60 - 1 - count) (0x30 + (divideByTen 0 s.1).2.toUInt8)).toList[60 - 1 - i]? = _
        rw [Vector.toList_setIfInBounds, List.getElem?_set, Arr.length_toList]
        by_cases here : i = count
        · subst here
          rw [if_pos rfl, if_pos (by omega), Option.some.injEq, ← UInt8.toNat_inj, UInt8.toNat_add,
            UInt32.toNat_toUInt8, last, digitAt, UInt8.toNat_ofNat']
          show (48 + ofBe digest.toList / 10 ^ i % 10 % 256) % 256 = _
          omega
        · rw [if_neg (by omega)]
          exact digits i (by omega)

/-- The digits, most significant first. -/
theorem verificationNumber_digits (digest : Arr 32) :
    (verificationNumber digest).toList =
      (List.range 60).map fun i => digitAt (ofBe digest.toList) (60 - 1 - i) := by
  have digits := (digitPass_run digest le_rfl).2
  apply List.ext_getElem?
  intro i
  by_cases inside : i < 60
  · have here := digits (60 - 1 - i) (by omega)
    rw [show 60 - 1 - (60 - 1 - i) = i by omega] at here
    rw [verificationNumber, here, List.getElem?_map, List.getElem?_range inside]
    rfl
  · rw [List.getElem?_eq_none (by rw [Arr.length_toList]; omega),
      List.getElem?_eq_none (by rw [List.length_map, List.length_range]; omega)]

/-- The decimal digits of a number, zeros in front. -/
theorem digits_padded {v n : Nat} (small : v < 10 ^ n) :
    (Nat.digits 10 v).reverse.leftpad n 0 =
      (List.range n).map fun i => v / 10 ^ (n - 1 - i) % 10 := by
  have few : (Nat.digits 10 v).length ≤ n := (Nat.digits_length_le_iff (by decide) v).2 small
  apply List.ext_getElem?
  intro i
  rw [List.leftpad, List.length_reverse]
  by_cases inside : i < n
  · rw [List.getElem?_map, List.getElem?_range inside]
    show _ = some (v / 10 ^ (n - 1 - i) % 10)
    rw [← Nat.getD_digits v (n - 1 - i) (by decide)]
    by_cases padding : i < n - (Nat.digits 10 v).length
    · rw [List.getElem?_append_left (by rwa [List.length_replicate]),
        List.getElem?_replicate_of_lt padding, List.getD_eq_getElem?_getD,
        List.getElem?_eq_none (by omega)]
      rfl
    · rw [List.getElem?_append_right (by rw [List.length_replicate]; omega), List.length_replicate,
        List.getElem?_reverse (by omega), List.getD_eq_getElem?_getD]
      have place : (Nat.digits 10 v).length - 1 - (i - (n - (Nat.digits 10 v).length)) = n - 1 - i := by
        omega
      rw [place, List.getElem?_eq_getElem (by omega)]
      rfl
  · rw [List.getElem?_eq_none (by
        rw [List.length_append, List.length_replicate, List.length_reverse]; omega),
      List.getElem?_eq_none (by rw [List.length_map, List.length_range]; omega)]

/-- **The verification number is the digest's residue in decimal.** -/
theorem verificationNumber_decimal (digest : Arr 32) :
    (verificationNumber digest).toList =
      ((Nat.digits 10 (ofBe digest.toList % 10 ^ 60)).reverse.leftpad 60 0).map
        fun d => UInt8.ofNat (48 + d) := by
  rw [verificationNumber_digits, digits_padded (Nat.mod_lt _ (by positivity)), List.map_map]
  apply List.map_congr_left
  intro i here
  have inside := List.mem_range.1 here
  have split_ : 10 ^ 60 = 10 ^ (60 - 1 - i) * 10 ^ (i + 1) := by
    rw [← pow_add]
    congr 1
    omega
  rw [Function.comp_apply, digitAt, split_, Nat.mod_mul_right_div_self, pow_succ',
    Nat.mod_mul_right_mod]

/-- The largest digest there is. -/
example : (verificationNumber (Vector.replicate 32 0xff)).toList =
    ascii "423570985008687907853269984665640564039457584007913129639935" := by decide +kernel

theorem digitAt_inj {v v' i : Nat} (same : digitAt v i = digitAt v' i) :
    v / 10 ^ i % 10 = v' / 10 ^ i % 10 := by
  have number := congrArg UInt8.toNat same
  rw [digitAt, digitAt, UInt8.toNat_ofNat', UInt8.toNat_ofNat'] at number
  omega

/-- Numbers whose lowest digits agree are congruent. -/
theorem modEq_of_digits {v v' n : Nat} (same : ∀ i < n, v / 10 ^ i % 10 = v' / 10 ^ i % 10) :
    v ≡ v' [MOD 10 ^ n] := by
  induction n with
  | zero => exact Nat.modEq_one
  | succ n ih =>
      have front : v % 10 ^ n = v' % 10 ^ n := ih fun i inside => same i (by omega)
      show v % 10 ^ (n + 1) = v' % 10 ^ (n + 1)
      rw [Nat.mod_pow_succ, Nat.mod_pow_succ, front, same n (by omega)]

/-- **Digests render alike exactly when they are congruent.** -/
theorem verificationNumber_eq_iff (digest digest' : Arr 32) :
    verificationNumber digest = verificationNumber digest' ↔
      ofBe digest.toList ≡ ofBe digest'.toList [MOD 10 ^ 60] := by
  constructor
  · intro same
    have digits := (digitPass_run digest le_rfl).2
    have digits' := (digitPass_run digest' le_rfl).2
    apply modEq_of_digits
    intro i inside
    apply digitAt_inj
    have here : (verificationNumber digest).toList[60 - 1 - i]? = _ := digits i inside
    have there : (verificationNumber digest').toList[60 - 1 - i]? = _ := digits' i inside
    rw [same, there] at here
    exact (Option.some.inj here).symm
  · intro congruent
    rw [← Arr.toList_inj, verificationNumber_decimal, verificationNumber_decimal,
      show ofBe digest.toList % 10 ^ 60 = ofBe digest'.toList % 10 ^ 60 from congruent]

/-! ## Grouping -/

/-- The digits so far are in their places, and the rest is spaces. -/
theorem grouped_run (number : Arr 60) {count : Nat} (few : count ≤ 60) :
    let out := (List.range count).foldl
      (fun out i => out.setIfInBounds (i + i / 5) (number.toList.getD i 0)) (Vector.replicate 71 0x20)
    (∀ i < count, out.toList[i + i / 5]? = number.toList[i]?) ∧
      ∀ j < 71, j % 6 = 5 → out.toList[j]? = some 0x20 := by
  induction count with
  | zero =>
      refine ⟨fun i none_ => absurd none_ (Nat.not_lt_zero i), fun j inside _ => ?_⟩
      show (Vector.replicate 71 (0x20 : UInt8)).toList[j]? = _
      rw [Vector.toList_replicate, List.getElem?_replicate_of_lt inside]
  | succ count ih =>
      obtain ⟨digits, spaces⟩ := ih (by omega)
      simp only [List.range_succ, List.foldl_append, List.foldl_cons, List.foldl_nil]
      generalize (List.range count).foldl (fun out i =>
        out.setIfInBounds (i + i / 5) (number.toList.getD i 0)) (Vector.replicate 71 0x20) = out at *
      have width := Arr.length_toList out
      refine ⟨fun i inside => ?_, fun j inside space => ?_⟩
      · rw [Vector.toList_setIfInBounds, List.getElem?_set]
        by_cases here : i = count
        · subst here
          have within : i < number.toList.length := by
            rw [Arr.length_toList]
            omega
          rw [if_pos rfl, if_pos (by omega), List.getD_eq_getElem _ _ within,
            List.getElem?_eq_getElem within]
        · rw [if_neg (by omega)]
          exact digits i (by omega)
      · rw [Vector.toList_setIfInBounds, List.getElem?_set_ne (by omega)]
        exact spaces j inside space

/-- **Grouping keeps every digit.** -/
theorem verificationNumberGrouped_inj {number number' : Arr 60}
    (same : verificationNumberGrouped number = verificationNumberGrouped number') :
    number = number' := by
  rw [← Arr.toList_inj]
  apply List.ext_getElem?
  intro i
  by_cases inside : i < 60
  · have here : (verificationNumberGrouped number).toList[i + i / 5]? = _ :=
      (grouped_run number le_rfl).1 i inside
    have there : (verificationNumberGrouped number').toList[i + i / 5]? = _ :=
      (grouped_run number' le_rfl).1 i inside
    rw [← here, ← there, same]
  · rw [List.getElem?_eq_none (by rw [Arr.length_toList]; omega),
      List.getElem?_eq_none (by rw [Arr.length_toList]; omega)]

/-! ## The comparison value -/

/-- A key that the rule does not refuse is an identity key. -/
theorem identityKeyRefusal_none (dh : Dh K) (key : Arr 32) :
    identityKeyRefusal dh key = none ↔ dh.isValidIdentityKey key = true := by
  unfold identityKeyRefusal Dh.isValidIdentityKey
  cases Curve.isCanonicalX25519 key <;> cases dh.isPrimeOrderPublic key <;> simp

theorem identityPairDigest_ok_iff (dh : Dh K) (sha256 : Bytes → Arr 32) (k1 k2 digest : Arr 32) :
    identityPairDigest dh sha256 k1 k2 = .ok digest ↔
      dh.isValidIdentityKey k1 = true ∧ dh.isValidIdentityKey k2 = true ∧
        digest = sha256 (pairPreimage k1 k2) := by
  rw [← identityKeyRefusal_none, ← identityKeyRefusal_none, identityPairDigest]
  cases identityKeyRefusal dh k1 with
  | some refusal => simp
  | none =>
      cases identityKeyRefusal dh k2 with
      | some refusal => simp
      | none => simp [eq_comm]

/-- **The identity comparison value.**  Over any hash and any curve: a pair of
keys has a digest exactly when both are identity keys, the same in either order,
of a preimage that is the unordered pair's alone; and the verification number is
the sixty decimal digits of the digest modulo `10^60`, which grouping keeps. -/
theorem identity_comparison_exact {K : Type} (dh : Dh K) (sha256 : Bytes → Arr 32) :
    (∀ k1 k2, (∃ digest, identityPairDigest dh sha256 k1 k2 = .ok digest) ↔
      dh.isValidIdentityKey k1 = true ∧ dh.isValidIdentityKey k2 = true) ∧
    (∀ k1 k2 digest, identityPairDigest dh sha256 k1 k2 = .ok digest →
      digest = sha256 (pairPreimage k1 k2) ∧ identityPairDigest dh sha256 k2 k1 = .ok digest) ∧
    (∀ k1 k2 k1' k2', pairPreimage k1 k2 = pairPreimage k1' k2' ↔ s(k1, k2) = s(k1', k2')) ∧
    (∀ digest, (verificationNumber digest).toList =
      ((Nat.digits 10 (ofBe digest.toList % 10 ^ 60)).reverse.leftpad 60 0).map
        fun d => UInt8.ofNat (48 + d)) ∧
    (∀ digest digest', verificationNumber digest = verificationNumber digest' ↔
      ofBe digest.toList ≡ ofBe digest'.toList [MOD 10 ^ 60]) ∧
    (∀ number, (∀ i < 60, (verificationNumberGrouped number).toList[i + i / 5]? = number.toList[i]?) ∧
      ∀ j < 71, j % 6 = 5 → (verificationNumberGrouped number).toList[j]? = some 0x20) ∧
    (∀ number number', verificationNumberGrouped number = verificationNumberGrouped number' →
      number = number') := by
  refine ⟨fun k1 k2 => ?_, fun k1 k2 digest here => ?_, pairPreimage_eq_iff,
    verificationNumber_decimal, verificationNumber_eq_iff, fun number => grouped_run number le_rfl,
    fun _ _ => verificationNumberGrouped_inj⟩
  · simp only [identityPairDigest_ok_iff]
    constructor
    · rintro ⟨_, first, second, -⟩
      exact ⟨first, second⟩
    · rintro ⟨first, second⟩
      exact ⟨_, first, second, rfl⟩
  · obtain ⟨first, second, hashed⟩ := (identityPairDigest_ok_iff dh sha256 k1 k2 digest).1 here
    refine ⟨hashed, (identityPairDigest_ok_iff dh sha256 k2 k1 digest).2 ⟨second, first, ?_⟩⟩
    rw [hashed, pairPreimage_comm]

end Tacenta.Identities
