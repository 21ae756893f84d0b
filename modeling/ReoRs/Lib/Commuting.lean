import Mathlib.Data.List.Perm.Basic
import ReoRs.Lib.Run

/-!
# Systems whose steps commute

Two different steps of one state can each be taken after the other, and come
to the same state. Then whatever two runs do, they can be brought together
again, and by then have taken the same steps, in some order. A run that is
stuck has nothing left to be brought together with, so all other runs lead to
where it ends.

It is the diamond with its labels on. The labels are what a run can be asked
about afterwards.
-/

namespace Run

variable {S A : Type*} {step : S → A → S → Prop}

/-- Different steps commute, and a label is one step. -/
def Commuting (step : S → A → S → Prop) : Prop :=
  ∀ ⦃s t u : S⦄ ⦃a b : A⦄, step s a t → step s b u →
    a = b ∧ t = u ∨ ∃ v, step t b v ∧ step u a v

/-- A step that could have been taken was taken on the way, or still can be. -/
theorem Commuting.strip (hcomm : Commuting step) {s t u : S} {a : A} {h : List A}
    (hs : step s a t) (hr : Reach step s h u) :
    (∃ k, Reach step t k u ∧ h.Perm (a :: k)) ∨ ∃ v, step u a v ∧ Reach step t h v := by
  induction hr with
  | refl => exact .inr ⟨t, hs, .refl⟩
  | @tail h w u b _ hb ih =>
      rcases ih with ⟨k, hk, hperm⟩ | ⟨v, hv, htv⟩
      · refine .inl ⟨b :: k, hk.tail hb, ?_⟩
        exact (hperm.cons b).trans (List.Perm.swap a b k)
      · rcases hcomm hv hb with ⟨rfl, rfl⟩ | ⟨x, hx, hux⟩
        · exact .inl ⟨h, htv, List.Perm.refl _⟩
        · exact .inr ⟨x, hux, htv.tail hx⟩

/-- Two runs can be brought together. -/
theorem Commuting.join (hcomm : Commuting step) {s t t' : S} {h h' : List A}
    (hr : Reach step s h t) (hr' : Reach step s h' t') :
    ∃ k k' v, Reach step t k v ∧ Reach step t' k' v ∧ (k ++ h).Perm (k' ++ h') := by
  induction hr' with
  | refl => exact ⟨[], h, t, .refl, hr, by rw [List.append_nil, List.nil_append]⟩
  | @tail h' w t' b _ hb ih =>
      obtain ⟨k, k', v, htv, hwv, hperm⟩ := ih
      rcases hcomm.strip hb hwv with ⟨j, hj, hk'⟩ | ⟨x, hx, ht'x⟩
      · refine ⟨k, j, v, htv, hj, hperm.trans ?_⟩
        exact (hk'.append_right h').trans List.perm_middle.symm
      · refine ⟨b :: k, k', x, htv.tail hx, ht'x, ?_⟩
        exact (hperm.cons b).trans List.perm_middle.symm

/-- All runs lead to where one is stuck. -/
theorem Commuting.reach_of_stuck (hcomm : Commuting step) {s t t' : S} {h h' : List A}
    (hr : Reach step s h t) (hr' : Reach step s h' t') (hstuck : Stuck step t') :
    ∃ k, Reach step t k t' ∧ (k ++ h).Perm h' := by
  obtain ⟨k, k', v, htv, ht'v, hperm⟩ := hcomm.join hr hr'
  cases k' with
  | nil =>
      cases ht'v
      exact ⟨k, htv, hperm⟩
  | cons b k' =>
      obtain ⟨a, u, hau⟩ := ht'v.exists_step (List.cons_ne_nil b k')
      exact absurd hau (hstuck a u)

/-- And where two are stuck is the same place. -/
theorem Commuting.eq_of_stuck (hcomm : Commuting step) {s t t' : S} {h h' : List A}
    (hr : Reach step s h t) (hr' : Reach step s h' t') (hstuck : Stuck step t)
    (hstuck' : Stuck step t') : t = t' ∧ h.Perm h' := by
  obtain ⟨k, hk, hperm⟩ := hcomm.reach_of_stuck hr hr' hstuck'
  cases k with
  | nil =>
      cases hk
      exact ⟨rfl, hperm⟩
  | cons b k =>
      obtain ⟨a, u, hau⟩ := hk.exists_step (List.cons_ne_nil b k)
      exact absurd hau (hstuck a u)

end Run
