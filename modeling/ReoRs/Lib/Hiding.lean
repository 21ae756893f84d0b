import Mathlib.Logic.Relation
import ReoRs.Lib.Run

/-!
# Hiding a silent relation

A labelled relation whose labels are `some p`, for what an observer sees, and
`none`, for what it does not. The observer sees a step when it comes, after
however many silent ones, and `Weak` is that relation.

A silent relation that does no more in two steps than in one can be taken out
without the observer noticing, if every other relation gets a second way to
go, through it. This is the one fact here. A program that takes its silent
steps out one by one uses it once for each.
-/

namespace Hiding

variable {S P : Type*}

/-- Silent steps, any number of them, and then one the observer sees. -/
def Weak (step : Option P → S → S → Prop) (p : P) (s s' : S) : Prop :=
  ∃ m, Relation.ReflTransGen (step none) s m ∧ step (some p) m s'

/-- A relation with one more silent part. -/
def Joined (r : S → S → Prop) (rest : Option P → S → S → Prop) :
    Option P → S → S → Prop :=
  fun l s s' => (l = none ∧ r s s') ∨ rest l s s'

/-- What is left of `Joined r rest` when `r` is taken out: everything else, by
itself or after `r`. -/
def Eliminated (r : S → S → Prop) (rest : Option P → S → S → Prop) :
    Option P → S → S → Prop :=
  fun l s s' => rest l s s' ∨ ∃ m, r s m ∧ rest l m s'

variable {r : S → S → Prop} {rest step step' : Option P → S → S → Prop}

theorem Weak.single {p : P} {s s' : S} (h : step (some p) s s') : Weak step p s s' :=
  ⟨s, .refl, h⟩

theorem Weak.head {p : P} {s m s' : S} (hs : step none s m) (h : Weak step p m s') :
    Weak step p s s' := by
  obtain ⟨n, hsilent, hlast⟩ := h
  exact ⟨n, .head hs hsilent, hlast⟩

/-- To show that a step is seen, show that a last step is and that a silent
step before one is. -/
theorem Weak.induction {p : P} {s' : S} {Q : S → Prop} (hlast : ∀ m, step (some p) m s' → Q m)
    (hsilent : ∀ s m, step none s m → Q m → Q s) {s : S} (h : Weak step p s s') : Q s := by
  obtain ⟨m, hs, hm⟩ := h
  induction hs using Relation.ReflTransGen.head_induction_on with
  | refl => exact hlast m hm
  | head hfirst _ ih => exact hsilent _ _ hfirst ih

theorem weak_congr (h : ∀ l s s', step l s s' ↔ step' l s s') {p : P} {s s' : S} :
    Weak step p s s' ↔ Weak step' p s s' := by
  obtain rfl : step = step' := by
    funext l a b
    exact propext (h l a b)
  exact Iff.rfl

/-- Where nothing is silent the observer sees every step. -/
theorem weak_iff_of_no_silent (h : ∀ s s', ¬ step none s s') {p : P} {s s' : S} :
    Weak step p s s' ↔ step (some p) s s' := by
  refine ⟨fun hw => ?_, Weak.single⟩
  exact hw.induction (fun _ hm => hm) fun a m ham _ => absurd ham (h a m)

/-- What an observer sees of a path: the labelled steps, each after some silent
ones. The last silent steps come to nothing yet. -/
theorem exists_weak_path {s t : S} {ls : List (Option P)}
    (h : Run.Reach (fun s l t => step l s t) s ls t) :
    ∃ m, Run.Reach (fun s p t => Weak step p s t) s (ls.filterMap id) m ∧
      Relation.ReflTransGen (step none) m t := by
  induction h with
  | refl => exact ⟨s, .refl, .refl⟩
  | @tail ls t u l _ hstep ih =>
      obtain ⟨m, hpath, hsilent⟩ := ih
      cases l with
      | none => exact ⟨m, hpath, hsilent.tail hstep⟩
      | some p => exact ⟨u, hpath.tail ⟨t, hsilent, hstep⟩, .refl⟩

/-- One step of `r` before an eliminated step is still an eliminated step. -/
theorem Eliminated.after (htrans : ∀ a b c, r a b → r b c → r a c) {l : Option P} {s m s' : S}
    (hr : r s m) (h : Eliminated r rest l m s') : Eliminated r rest l s s' := by
  rcases h with h | ⟨n, hn, h⟩
  · exact .inr ⟨m, hr, h⟩
  · exact .inr ⟨n, htrans s m n hr hn, h⟩

/-- Taking out a silent relation changes nothing that is seen. A block of its
steps is one step, and goes with the step after the block, which there is one
because the last step is no silent one. -/
theorem weak_eliminated (htrans : ∀ a b c, r a b → r b c → r a c) {p : P} {s s' : S} :
    Weak (Joined r rest) p s s' ↔ Weak (Eliminated r rest) p s s' := by
  constructor
  · intro h
    refine Weak.induction (Q := fun a => Weak (Eliminated r rest) p a s') ?_ ?_ h
    · rintro m (⟨hl, -⟩ | hm)
      · cases hl
      · exact .single (.inl hm)
    · rintro a m (⟨-, ham⟩ | ham) hm
      · obtain ⟨n, hsilent, hlast⟩ := hm
        cases hsilent using Relation.ReflTransGen.head_induction_on with
        | refl => exact .single (.after htrans ham hlast)
        | head hfirst hrest => exact .head (.after htrans ham hfirst) ⟨n, hrest, hlast⟩
      · exact .head (.inl ham) hm
  · intro h
    refine Weak.induction (Q := fun a => Weak (Joined r rest) p a s') ?_ ?_ h
    · rintro m (hm | ⟨n, hn, hlast⟩)
      · exact .single (.inr hm)
      · exact .head (.inl ⟨rfl, hn⟩) (.single (.inr hlast))
    · rintro a m (ham | ⟨n, hn, hlast⟩) hm
      · exact .head (.inr ham) hm
      · exact .head (.inl ⟨rfl, hn⟩) (.head (.inr hlast) hm)

end Hiding
