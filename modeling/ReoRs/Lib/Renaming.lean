import ReoRs.Lib.Sharing
import Mathlib.Data.Set.Function

/-!
# Two ways to name the same things

Cells hold things, and a naming gives every thing that is held a name of its
own. Of two namings the one can be had from the other by renaming, and what
can be said about the cells without looking at the names comes out the same:
which cells share, and how many hold a thing.
-/

namespace Renaming

variable {L X P : Type*}

/-- The things that some cell holds. -/
def used (cells : L → Option X) : Set X := {x | ∃ l, cells l = some x}

theorem image_used (cells : L → Option X) (name : X → P) :
    name '' used cells = used fun l => (cells l).map name := by
  ext p
  constructor
  · rintro ⟨x, ⟨l, hl⟩, rfl⟩
    exact ⟨l, congrArg (Option.map name) hl⟩
  · rintro ⟨l, hl⟩
    obtain ⟨x, hx, rfl⟩ := Option.map_eq_some_iff.1 hl
    exact ⟨x, ⟨l, hx⟩, rfl⟩

/-- The renaming that leads from one naming to the other, and leaves what is no
name alone. -/
theorem exists_renaming {cells : L → Option X} {name name' : X → P}
    (h : Set.InjOn name (used cells)) (h' : Set.InjOn name' (used cells)) :
    ∃ r : P → P, Set.BijOn r (Set.image name (used cells)) (Set.image name' (used cells)) ∧
      (∀ x ∈ used cells, r (name x) = name' x) ∧ ∀ p ∉ Set.image name (used cells), r p = p := by
  classical
  let r : P → P := fun p => if hp : ∃ x ∈ used cells, name x = p then name' hp.choose else p
  have hr : ∀ x ∈ used cells, r (name x) = name' x := by
    intro x hx
    have hp : ∃ y ∈ used cells, name y = name x := ⟨x, hx, rfl⟩
    have hchosen : hp.choose = x := h hp.choose_spec.1 hx hp.choose_spec.2
    rw [show r (name x) = name' hp.choose from dif_pos hp, hchosen]
  refine ⟨r, ⟨?_, ?_, ?_⟩, hr, fun p hp => dif_neg hp⟩
  · rintro _ ⟨x, hx, rfl⟩
    exact ⟨x, hx, (hr x hx).symm⟩
  · rintro _ ⟨x, hx, rfl⟩ _ ⟨y, hy, rfl⟩ hxy
    rw [hr x hx, hr y hy] at hxy
    rw [h' hx hy hxy]
  · rintro _ ⟨x, hx, rfl⟩
    exact ⟨name x, ⟨x, hx, rfl⟩, hr x hx⟩

variable [DecidableEq P] {locs : Finset L} {cells cells' : L → Option P} {r : P → P}
  {refs refs' : P → Option Nat}

/-- A renamed thing is held where it was. -/
theorem holders_map (hr : Set.InjOn r (used cells)) (hcells : ∀ l, cells' l = (cells l).map r)
    {q : P} (hq : q ∈ used cells) :
    Sharing.holders locs cells' (r q) = Sharing.holders locs cells q := by
  ext l
  rw [Sharing.mem_holders, Sharing.mem_holders, hcells, Option.map_eq_some_iff]
  refine and_congr_right fun _ => ⟨?_, fun hl => ⟨q, hl, rfl⟩⟩
  rintro ⟨q', hl, heq⟩
  rw [hl, hr ⟨l, hl⟩ hq heq]

/-- And it has the count it had. -/
theorem refs_map (h : Sharing.Counted locs cells refs) (h' : Sharing.Counted locs cells' refs')
    (hr : Set.InjOn r (used cells)) (hcells : ∀ l, cells' l = (cells l).map r) {q : P}
    (hq : q ∈ used cells) : refs' (r q) = refs q := by
  apply Option.ext
  intro n
  rw [h', h, holders_map hr hcells hq]

end Renaming
