import Mathlib.Algebra.BigOperators.Group.Finset.Basic
import Mathlib.Algebra.Order.BigOperators.Group.Finset
import Mathlib.Algebra.BigOperators.Ring.Finset

/-!
# Histories of systems made of components

The labels of a system of components say which component did what. What one
component did is a history of its own, and a bound that each of these keeps is
kept by the whole.
-/

namespace Run

variable {ι A : Type*} [DecidableEq ι] {i j : ι} {a : A} {h : List (ι × A)}

/-- What the component did. -/
def component (i : ι) (h : List (ι × A)) : List A :=
  h.filterMap fun x => if x.1 = i then some x.2 else none

theorem component_cons_self (i : ι) (a : A) (h : List (ι × A)) :
    component i ((i, a) :: h) = a :: component i h :=
  List.filterMap_cons_some (if_pos rfl)

theorem component_cons_ne (a : A) (h : List (ι × A)) (hij : i ≠ j) :
    component j ((i, a) :: h) = component j h :=
  List.filterMap_cons_none (if_neg hij)

/-- Everything was done by some component. -/
theorem sum_countP_component (q : A → Bool) {F : Finset ι} (hF : ∀ x ∈ h, x.1 ∈ F) :
    ∑ i ∈ F, (component i h).countP q = h.countP fun x => q x.2 := by
  induction h with
  | nil => exact Finset.sum_eq_zero fun _ _ => rfl
  | cons x h ih =>
      have hcons : ∀ i, (component i (x :: h)).countP q =
          (component i h).countP q + if x.1 = i then (if q x.2 then 1 else 0) else 0 := by
        intro i
        by_cases hi : x.1 = i
        · subst hi
          rw [if_pos rfl, component_cons_self, List.countP_cons]
        · rw [if_neg hi, component_cons_ne x.2 h hi, Nat.add_zero]
      rw [Finset.sum_congr rfl fun i _ => hcons i, Finset.sum_add_distrib, Finset.sum_ite_eq,
        if_pos (hF x List.mem_cons_self), ih fun y hy => hF y (List.mem_cons_of_mem x hy),
        List.countP_cons]

/-- If each component has at most `n` labels for every one of a kind, so has
the system. -/
theorem length_le_of_component {n : Nat} {q : A → Bool}
    (hle : ∀ i, (component i h).length ≤ n * (component i h).countP q) :
    h.length ≤ n * h.countP fun x => q x.2 := by
  have hF : ∀ x ∈ h, x.1 ∈ (h.map Prod.fst).toFinset :=
    fun x hx => List.mem_toFinset.2 (List.mem_map_of_mem hx)
  have hall := sum_countP_component (fun _ => true) hF
  simp only [List.countP_true] at hall
  rw [← hall, ← sum_countP_component q hF, Finset.mul_sum]
  exact Finset.sum_le_sum fun i _ => hle i

end Run
