import Mathlib.Data.List.Forall2
import Mathlib.Data.Nat.Digits.Defs
import Mathlib.Logic.Hydra
import Mathlib.Order.WellFounded

/-!
# Collections that are used up

A step takes one element out and puts in any number of smaller ones, while the
others stay or get smaller. However many are put in, this cannot go on for
ever. The order is Mathlib's game of the hydra, of which a step is several
rounds.

The elements may be ranked by the digits of a number. What matters of two
numbers is then the highest digit in which they differ.
-/

namespace Descent

open Relation

variable {α S : Type*}

section

variable [PartialOrder α]

/-- Some rounds of the game, one at least. -/
def Below (ys xs : Multiset α) : Prop := TransGen (CutExpand (· < ·)) ys xs

theorem wellFounded_below [WellFoundedLT α] : WellFounded (Below (α := α)) :=
  (WellFounded.cutExpand wellFounded_lt).transGen

/-- Elements get smaller one by one. -/
theorem reflTransGen_of_le {ys xs : List α} (h : List.Forall₂ (· ≤ ·) ys xs) :
    ReflTransGen (CutExpand (· < ·)) (ys : Multiset α) xs := by
  induction h with
  | nil => exact .refl
  | @cons y x ys xs hyx _ ih =>
      have hrest := ih.lift ({y} + ·) fun _ _ => (cutExpand_add_left {y}).2
      rw [← Multiset.cons_coe, ← Multiset.cons_coe, ← Multiset.singleton_add,
        ← Multiset.singleton_add]
      rcases hyx.eq_or_lt with rfl | hlt
      · exact hrest
      · exact hrest.tail (cutExpand_single_add hlt _)

/-- A step: `x` is taken out, `added` put in. -/
theorem below_of_step {x : α} {rest kept added : List α}
    (hkept : List.Forall₂ (· ≤ ·) kept rest) (hadded : ∀ a ∈ added, a < x) :
    Below ((kept ++ added : List α) : Multiset α) ((x :: rest : List α) : Multiset α) := by
  have hcut : CutExpand (· < ·) ((rest : Multiset α) + (added : Multiset α)) (rest + {x}) :=
    (cutExpand_add_left _).2 (cutExpand_singleton fun a ha => hadded a ha)
  have hlower := (reflTransGen_of_le hkept).lift (· + (added : Multiset α)) fun _ _ =>
    (cutExpand_add_right _).2
  rw [← Multiset.coe_add, ← Multiset.cons_coe, ← Multiset.singleton_add,
    add_comm ({x} : Multiset α)]
  exact TransGen.tail' hlower hcut

end

/-! ## Digits -/

/-- Numbers that agree in the higher digits, at the end of the list, and differ
in the next one. -/
theorem ofDigits_lt {b x y : Nat} {low low' high : List Nat} (hb : 1 < b)
    (hlow : ∀ d ∈ low, d < b) (hlength : low.length = low'.length) (hxy : x < y) :
    Nat.ofDigits b (low ++ x :: high) < Nat.ofDigits b (low' ++ y :: high) := by
  have hbound := Nat.ofDigits_lt_base_pow_length hb hlow
  rw [Nat.ofDigits_append, Nat.ofDigits_append, ← hlength, Nat.ofDigits_cons, Nat.ofDigits_cons]
  calc Nat.ofDigits b low + b ^ low.length * (x + b * Nat.ofDigits b high)
      < b ^ low.length + b ^ low.length * (x + b * Nat.ofDigits b high) := by omega
    _ = b ^ low.length * (x + 1 + b * Nat.ofDigits b high) := by ring
    _ ≤ b ^ low.length * (y + b * Nat.ofDigits b high) := by gcongr; omega
    _ ≤ Nat.ofDigits b low' + b ^ low.length * (y + b * Nat.ofDigits b high) := by omega

/-- Digits that are none of them greater. -/
theorem ofDigits_le {b : Nat} {ys xs : List Nat} (h : List.Forall₂ (· ≤ ·) ys xs) :
    Nat.ofDigits b ys ≤ Nat.ofDigits b xs := by
  induction h with
  | nil => rfl
  | cons hyx _ ih =>
      rw [Nat.ofDigits_cons, Nat.ofDigits_cons]
      exact Nat.add_le_add hyx (Nat.mul_le_mul_left b ih)

end Descent
