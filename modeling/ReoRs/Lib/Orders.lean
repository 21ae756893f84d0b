import Mathlib.Data.List.Basic
import Mathlib.Data.List.Dedup
import Mathlib.Tactic.Common

/-!
# Loops over a collection without an order

What a loop finds out does not depend on the order it goes in if its rounds
commute. `foldlM_perm` says so for loops with an early exit, where one of two
rounds may end the loop and then has to in either order. The other lemmas are
about going through two collections one after the other and through each
element once.
-/

namespace Orders

variable {α β : Type}

theorem nodup_eraseDups [BEq α] [LawfulBEq α] : ∀ l : List α, l.eraseDups.Nodup
  | [] => List.nodup_nil
  | x :: l => by
      rw [List.eraseDups_cons, List.nodup_cons]
      have hshorter := List.length_filter_le (fun y => !y == x) l
      refine ⟨fun hx => ?_, nodup_eraseDups _⟩
      rw [List.mem_eraseDups, List.mem_filter] at hx
      simp at hx
termination_by l => l.length
decreasing_by
  rw [List.length_cons]
  omega

/-- Each element once, whatever the order was. -/
theorem eraseDups_perm [BEq α] [LawfulBEq α] {l l' : List α} (h : ∀ x, x ∈ l ↔ x ∈ l') :
    l.eraseDups.Perm l'.eraseDups := by
  rw [List.perm_ext_iff_of_nodup (nodup_eraseDups l) (nodup_eraseDups l')]
  intro x
  rw [List.mem_eraseDups, List.mem_eraseDups, h]

/-- Rounds that commute may be run in any order. -/
theorem foldlM_perm {f : β → α → Option β}
    (hcomm : ∀ b x y, (f b x).bind (f · y) = (f b y).bind (f · x)) {l l' : List α}
    (h : l.Perm l') : ∀ b, l.foldlM f b = l'.foldlM f b := by
  induction h with
  | nil => exact fun b => rfl
  | cons x _ ih =>
      intro b
      rw [List.foldlM_cons, List.foldlM_cons]
      exact congrArg _ (funext ih)
  | swap x y l =>
      intro b
      have hswap : ∀ u v, (u :: v :: l).foldlM f b =
          ((f b u).bind (f · v)).bind fun b => l.foldlM f b := by
        intro u v
        rw [Option.bind_assoc]
        rfl
      rw [hswap, hswap, hcomm]
  | trans _ _ ih ih' => exact fun b => (ih b).trans (ih' b)

theorem any_eq_of_mem_iff {p : α → Bool} {l l' : List α} (h : ∀ x, x ∈ l ↔ x ∈ l') :
    l.any p = l'.any p := by
  rw [Bool.eq_iff_iff, List.any_eq_true, List.any_eq_true]
  exact exists_congr fun x => and_congr_left' (h x)

end Orders
