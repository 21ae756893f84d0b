import Mathlib.Data.Finset.Card
import Mathlib.Logic.Function.Basic
import Mathlib.Tactic.Common

/-!
# Shared slots with a count of their holders

Finitely many cells, each empty or holding a slot, and a table that is to give
every held slot the number of cells that hold it and no other slot anything.
Two updates keep the table right: empty cells are filled with a slot, and one
cell lets go of its slot.
-/

namespace Sharing

variable {L P : Type*} [DecidableEq P]

/-- The cells that hold a slot. -/
def holders (locs : Finset L) (cells : L → Option P) (q : P) : Finset L :=
  locs.filter fun l => cells l = some q

/-- The table counts the holders of every held slot. -/
def Counted (locs : Finset L) (cells : L → Option P) (refs : P → Option Nat) : Prop :=
  ∀ q n, refs q = some n ↔ 0 < n ∧ (holders locs cells q).card = n

variable {locs : Finset L} {cells : L → Option P} {refs : P → Option Nat}

@[simp] theorem mem_holders {q : P} {l : L} :
    l ∈ holders locs cells q ↔ l ∈ locs ∧ cells l = some q := by
  simp [holders]

theorem Counted.refs_eq_none (h : Counted locs cells refs) {q : P} :
    refs q = none ↔ holders locs cells q = ∅ := by
  constructor
  · intro hq
    by_contra hne
    have hpos : 0 < (holders locs cells q).card :=
      Finset.card_pos.2 (Finset.nonempty_iff_ne_empty.2 hne)
    have := (h q _).2 ⟨hpos, rfl⟩
    rw [hq] at this
    cases this
  · intro hq
    cases hr : refs q with
    | none => rfl
    | some n =>
        obtain ⟨hpos, hcard⟩ := (h q n).1 hr
        rw [hq, Finset.card_empty] at hcard
        omega

/-- A held slot is counted. -/
theorem Counted.exists_refs (h : Counted locs cells refs) {q : P} {l : L} (hl : l ∈ locs)
    (hq : cells l = some q) : ∃ n, refs q = some n ∧ 0 < n := by
  have hpos : 0 < (holders locs cells q).card := Finset.card_pos.2 ⟨l, mem_holders.2 ⟨hl, hq⟩⟩
  exact ⟨_, (h q _).2 ⟨hpos, rfl⟩, hpos⟩

/-! ## Filling -/

variable [DecidableEq L]

/-- Every cell of `gs` is given the slot. -/
def fill (cells : L → Option P) (q : P) (gs : Finset L) : L → Option P :=
  fun l => if l ∈ gs then some q else cells l

theorem holders_fill_self {q : P} {gs : Finset L} (hgs : gs ⊆ locs) :
    holders locs (fill cells q gs) q = holders locs cells q ∪ gs := by
  ext l
  simp only [mem_holders, Finset.mem_union, fill]
  by_cases hl : l ∈ gs
  · simp [hl, hgs hl]
  · simp [hl]

theorem holders_fill_ne {q q' : P} {gs : Finset L} (hempty : ∀ g ∈ gs, cells g = none)
    (hne : q' ≠ q) : holders locs (fill cells q gs) q' = holders locs cells q' := by
  ext l
  simp only [mem_holders, fill]
  by_cases hl : l ∈ gs
  · simp [hl, hempty l hl, hne.symm]
  · simp [hl]

/-- Filling empty cells adds them to the count. -/
theorem Counted.fill (h : Counted locs cells refs) {q : P} {gs : Finset L} (hgs : gs ⊆ locs)
    (hempty : ∀ g ∈ gs, cells g = none) {n : Nat} (hn : (refs q).getD 0 = n)
    (hpos : 0 < n + gs.card) :
    Counted locs (fill cells q gs) (Function.update refs q (some (n + gs.card))) := by
  have hcard : (holders locs cells q).card = n := by
    cases hr : refs q with
    | none =>
        rw [hr] at hn
        rw [h.refs_eq_none.1 hr, Finset.card_empty, ← hn]
        rfl
    | some m =>
        rw [hr] at hn
        rw [((h q m).1 hr).2, ← hn]
        rfl
  intro q' m
  by_cases hq : q' = q
  · subst hq
    have hdisj : Disjoint (holders locs cells q') gs := by
      rw [Finset.disjoint_left]
      intro l hl hg
      have := (mem_holders.1 hl).2
      rw [hempty l hg] at this
      cases this
    rw [Function.update_self, holders_fill_self hgs, Finset.card_union_of_disjoint hdisj, hcard]
    constructor
    · intro hm
      cases hm
      exact ⟨hpos, rfl⟩
    · rintro ⟨-, rfl⟩
      rfl
  · rw [Function.update_of_ne hq, holders_fill_ne hempty hq]
    exact h q' m

/-! ## Letting go -/

theorem holders_update_none_self {q : P} {l : L} :
    holders locs (Function.update cells l none) q = (holders locs cells q).erase l := by
  ext l'
  simp only [mem_holders, Finset.mem_erase]
  by_cases hl : l' = l
  · subst hl
    simp
  · simp [hl]

/-- A cell that lets go of its slot leaves the count; the last takes the slot
out of the table. -/
theorem Counted.release (h : Counted locs cells refs) {q : P} {l : L} (hl : l ∈ locs)
    (hq : cells l = some q) {n : Nat} (hn : refs q = some n) :
    Counted locs (Function.update cells l none)
      (Function.update refs q (if n = 1 then none else some (n - 1))) := by
  obtain ⟨hpos, hcard⟩ := (h q n).1 hn
  intro q' m
  rw [holders_update_none_self]
  by_cases hqq : q' = q
  · subst hqq
    rw [Function.update_self, Finset.card_erase_of_mem (mem_holders.2 ⟨hl, hq⟩), hcard]
    split
    · next h1 =>
        subst h1
        constructor
        · intro hm
          cases hm
        · rintro ⟨hm, hm'⟩
          omega
    · constructor
      · intro hm
        cases hm
        exact ⟨by omega, rfl⟩
      · rintro ⟨-, hm⟩
        rw [hm]
  · rw [Function.update_of_ne hqq]
    have hnot : l ∉ holders locs cells q' := by
      intro hmem
      have := (mem_holders.1 hmem).2
      rw [hq] at this
      exact hqq (Option.some.inj this).symm
    rw [Finset.erase_eq_of_notMem hnot]
    exact h q' m

end Sharing
