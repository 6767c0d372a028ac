/-
# Tacenta.Erasure.Interpolation -- the shared weights compute the interpolant

`interpolate` is the textbook formula, an inversion in its innermost loop; the
coders evaluate with weights computed once per node set and coefficients once
per point.  The two are one function (`evaluate_eq_interpolate`), repeated nodes
and points that are nodes included: in a field where zero inverts to itself the
inverse of a product is the product of the inverses.  On distinct nodes it is
Mathlib's Lagrange interpolant, so a polynomial of small degree is determined by
its values (`formula_eval`).
-/
import Tacenta.Erasure.Field

set_option autoImplicit false

namespace Tacenta.Erasure

open Polynomial

/-- The value at `x` of the polynomial through the points, by the formula. -/
def interpolate (nodes vals : List UInt16) (x : UInt16) : UInt16 :=
  (List.range nodes.length).foldl
    (fun acc i =>
      let xi := nodes.getD i 0
      let weight := prodExcept nodes i fun xj => gf.mul (gf.add x xj) (gf.inv (gf.add xi xj))
      if i < vals.length then gf.add acc (gf.mul (vals.getD i 0) weight) else acc) 0

/-- The `i`-th word of a list, as a field element. -/
def at_ (l : List UInt16) (i : Nat) : Gf := ⟨l.getD i 0⟩

/-! ## The loops as sums and products -/

theorem prodExcept_eq (nodes : List UInt16) (i : Nat) (f : Gf → Gf) :
    prodExcept nodes i (fun v => (f ⟨v⟩).val) =
      (∏ j ∈ Finset.range nodes.length, if j ≠ i then f (at_ nodes j) else 1).val := by
  unfold prodExcept
  generalize nodes.length = n
  induction n with
  | zero => rfl
  | succ n ih =>
      rw [List.range_succ, List.foldl_append, ih, Finset.prod_range_succ]
      by_cases here : n ≠ i
      · simp only [List.foldl_cons, List.foldl_nil, if_pos here]
        rfl
      · simp only [List.foldl_cons, List.foldl_nil, if_neg here, mul_one]

/-- A loop that adds a term at every index below a bound. -/
theorem sum_eq (n m : Nat) (term : Nat → Gf) :
    (List.range n).foldl (fun acc i => if i < m then gf.add acc (term i).val else acc) 0 =
      (∑ i ∈ Finset.range n, if i < m then term i else 0).val := by
  induction n with
  | zero => rfl
  | succ n ih =>
      rw [List.range_succ, List.foldl_append, ih, Finset.sum_range_succ]
      by_cases here : n < m
      · simp only [List.foldl_cons, List.foldl_nil, if_pos here]
        rfl
      · simp only [List.foldl_cons, List.foldl_nil, if_neg here, add_zero]

/-- The numerator of the `i`-th Lagrange coefficient at `x`. -/
def numerator (nodes : List UInt16) (i : Nat) (x : Gf) : Gf :=
  ∏ j ∈ Finset.range nodes.length, if j ≠ i then x + at_ nodes j else 1

theorem weights_at {nodes : List UInt16} {i : Nat} (inside : i < nodes.length) :
    at_ (weights nodes) i = (numerator nodes i (at_ nodes i))⁻¹ := by
  have product := prodExcept_eq nodes i fun v => at_ nodes i + v
  simp only [Gf.val_add] at product
  rw [← Gf.val_inj, Gf.val_inv, numerator, ← product]
  simp only [at_, weights, List.getD_eq_getElem?_getD, List.getElem?_map, List.getElem?_range inside,
    Option.map_some, Option.getD_some]

theorem coefficients_at {nodes weights : List UInt16} {x : UInt16} {i : Nat}
    (inside : i < nodes.length) :
    at_ (coefficients nodes weights x) i = at_ weights i * numerator nodes i ⟨x⟩ := by
  have product := prodExcept_eq nodes i fun v => ⟨x⟩ + v
  simp only [Gf.val_add] at product
  rw [← Gf.val_inj, Gf.val_mul, numerator, ← product]
  simp only [at_, coefficients, List.getD_eq_getElem?_getD, List.getElem?_map,
    List.getElem?_range inside, Option.map_some, Option.getD_some]

theorem length_coefficients (nodes weights : List UInt16) (x : UInt16) :
    (coefficients nodes weights x).length = nodes.length := by
  rw [coefficients, List.length_map, List.length_range]

theorem evaluate_eq (coeffs vals : List UInt16) :
    evaluate coeffs vals = (∑ i ∈ Finset.range coeffs.length,
      if i < vals.length then at_ coeffs i * at_ vals i else 0).val :=
  sum_eq coeffs.length vals.length fun i => at_ coeffs i * at_ vals i

/-- Lagrange's formula, over as many values as there are. -/
def formula (nodes vals : List UInt16) (x : Gf) : Gf :=
  ∑ i ∈ Finset.range nodes.length,
    if i < vals.length then at_ vals i * ∏ j ∈ Finset.range nodes.length,
      (if j ≠ i then (x + at_ nodes j) * (at_ nodes i + at_ nodes j)⁻¹ else 1)
    else 0

theorem interpolate_formula (nodes vals : List UInt16) (x : UInt16) :
    interpolate nodes vals x = (formula nodes vals ⟨x⟩).val := by
  have terms := fun i => prodExcept_eq nodes i fun v => (⟨x⟩ + v) * (at_ nodes i + v)⁻¹
  simp only [Gf.val_mul, Gf.val_add, Gf.val_inv] at terms
  rw [formula, ← sum_eq, interpolate]
  simp only [Gf.val_mul, ← terms]
  rfl

/-! ## The shared weights -/

/-- Evaluation with shared weights computes the formula. -/
theorem evaluate_formula (nodes vals : List UInt16) (x : UInt16) :
    evaluate (coefficients nodes (weights nodes) x) vals = (formula nodes vals ⟨x⟩).val := by
  rw [evaluate_eq, formula, length_coefficients]
  congr 1
  apply Finset.sum_congr rfl
  intro i here
  have inside : i < nodes.length := Finset.mem_range.1 here
  by_cases valued : i < vals.length
  · rw [if_pos valued, if_pos valued, coefficients_at inside, weights_at inside, mul_comm]
    congr 1
    calc (numerator nodes i (at_ nodes i))⁻¹ * numerator nodes i ⟨x⟩
        = ∏ j ∈ Finset.range nodes.length,
            (if j ≠ i then at_ nodes i + at_ nodes j else 1)⁻¹ *
              (if j ≠ i then (⟨x⟩ : Gf) + at_ nodes j else 1) := by
          rw [numerator, numerator, ← Finset.prod_inv_distrib, ← Finset.prod_mul_distrib]
      _ = _ := by
          apply Finset.prod_congr rfl
          intro j _
          by_cases other : j ≠ i
          · rw [if_pos other, if_pos other, if_pos other, mul_comm]
          · rw [if_neg other, if_neg other, if_neg other, inv_one, mul_one]
  · rw [if_neg valued, if_neg valued]

/-- **Shared-weight interpolation is the plain one**, for any nodes, repeated or
not, any number of values and any point, a node or not. -/
theorem shared_weights_interpolate (nodes vals : List UInt16) (x : UInt16) :
    evaluate (coefficients nodes (weights nodes) x) vals = interpolate nodes vals x := by
  rw [evaluate_formula, interpolate_formula]

/-! ## Lagrange -/

/-- The formula is the Lagrange interpolant's value. -/
theorem formula_lagrange {nodes vals : List UInt16} (x : Gf) (full : vals.length = nodes.length) :
    formula nodes vals x = (Lagrange.interpolate (Finset.range nodes.length) (at_ nodes)
      (at_ vals)).eval x := by
  rw [formula, Lagrange.interpolate_apply, eval_finsetSum]
  apply Finset.sum_congr rfl
  intro i here
  rw [if_pos (full ▸ Finset.mem_range.1 here), eval_mul, eval_C, Lagrange.basis, eval_prod]
  congr 1
  rw [← Finset.filter_ne', Finset.prod_filter]
  apply Finset.prod_congr rfl
  intro j _
  by_cases other : j ≠ i
  · rw [if_pos other, if_pos other, Lagrange.basisDivisor, eval_mul, eval_C, eval_sub, eval_X,
      eval_C, Gf.sub_eq_add, Gf.sub_eq_add, mul_comm]
  · rw [if_neg other, if_neg other]

/-- Distinct words are distinct points. -/
theorem at_injOn {nodes : List UInt16} (distinct : nodes.Nodup) :
    Set.InjOn (at_ nodes) (Finset.range nodes.length : Finset Nat) := by
  intro i hi j hj same
  rw [Finset.mem_coe, Finset.mem_range] at hi hj
  have words := congrArg Gf.val same
  simp only [at_, List.getD_eq_getElem _ _ hi, List.getD_eq_getElem _ _ hj] at words
  exact distinct.getElem_inj_iff.1 words

/-- **Enough values determine a polynomial**: the formula through the values of a
polynomial of degree below the number of distinct nodes gives it back everywhere. -/
theorem formula_eval {nodes vals : List UInt16} {p : Gf[X]} (distinct : nodes.Nodup)
    (full : vals.length = nodes.length) (degree : p.degree < nodes.length)
    (values : ∀ i < nodes.length, at_ vals i = p.eval (at_ nodes i)) (x : Gf) :
    formula nodes vals x = p.eval x := by
  have through := Lagrange.eq_interpolate_of_eval_eq (at_ vals) (at_injOn distinct)
    (by rwa [Finset.card_range]) fun i here => (values i (Finset.mem_range.1 here)).symm
  rw [formula_lagrange x full, ← through]

end Tacenta.Erasure
