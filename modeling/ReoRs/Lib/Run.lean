import Mathlib.Logic.Basic
import Mathlib.Tactic.Push
import Mathlib.Tactic.TypeStar

/-!
# Runs of a labelled transition system

A system here is nothing but a step relation `step : S → A → S → Prop`. What
the concurrent half of a development keeps needing of one is the same few
facts whatever the states are: a run with the labels it took, induction over
the run with its history in hand, a stuck state at the end of a measure that
every step pays into, and the simulation argument that carries the labels an
outside observer sees from one system to another.

The history of a run is kept newest first, so that the step an induction adds
is the head of the list and a property of the history unfolds by `cases`.
-/

namespace Run

variable {S T A B : Type*}

/-- `Reach step s h t`: the labels `h`, newest first, lead from `s` to `t`. -/
inductive Reach (step : S → A → S → Prop) (s : S) : List A → S → Prop where
  | refl : Reach step s [] s
  | tail {h : List A} {t u : S} {a : A} :
      Reach step s h t → step t a u → Reach step s (a :: h) u

/-- No step leaves the state. -/
def Stuck (step : S → A → S → Prop) (s : S) : Prop := ∀ a t, ¬ step s a t

variable {step : S → A → S → Prop}

theorem Reach.single {s t : S} {a : A} (h : step s a t) : Reach step s [a] t :=
  .tail .refl h

theorem Reach.trans {s t u : S} {h k : List A} (hst : Reach step s h t)
    (htu : Reach step t k u) : Reach step s (k ++ h) u := by
  induction htu with
  | refl => exact hst
  | tail _ hstep ih => exact .tail ih hstep

/-- A step taken first rather than last: the same run read from its other
end. -/
theorem Reach.head {s t u : S} {a : A} {h : List A} (hs : step s a t)
    (ht : Reach step t h u) : Reach step s (h ++ [a]) u :=
  (Reach.single hs).trans ht

/-- The invariant rule, with the history in the invariant's hands. The step
case may use that the state it leaves was itself reached. -/
theorem Reach.invariant {s : S} {P : List A → S → Prop} (h0 : P [] s)
    (hstep : ∀ {h t a u}, Reach step s h t → P h t → step t a u → P (a :: h) u) :
    ∀ {h t}, Reach step s h t → P h t := by
  intro h t hr
  induction hr with
  | refl => exact h0
  | tail hr hs ih => exact hstep hr ih hs

/-- The invariant rule for a property of the state alone. -/
theorem Reach.preserves {s : S} {P : S → Prop} (h0 : P s)
    (hstep : ∀ {t a u}, P t → step t a u → P u) {h : List A} {t : S}
    (hr : Reach step s h t) : P t :=
  Reach.invariant (P := fun _ t => P t) h0 (fun _ ht hs => hstep ht hs) hr

/-- A measure that every step lowers ends every run: from any state some run
reaches a stuck one. The measure may need an invariant to go down. -/
theorem exists_stuck (μ : S → Nat) {I : S → Prop}
    (hstep : ∀ {s a t}, I s → step s a t → I t ∧ μ t < μ s) {s : S} (hs : I s) :
    ∃ h t, Reach step s h t ∧ Stuck step t ∧ I t := by
  induction hn : μ s using Nat.strongRecOn generalizing s with
  | _ n ih =>
      by_cases hstuck : Stuck step s
      · exact ⟨[], s, .refl, hstuck, hs⟩
      · simp only [Stuck, not_forall, not_not] at hstuck
        obtain ⟨a, t, hst⟩ := hstuck
        obtain ⟨ht, hlt⟩ := hstep hs hst
        obtain ⟨h, u, htu, hu, hI⟩ := ih (μ t) (hn ▸ hlt) ht rfl
        exact ⟨h ++ [a], u, .head hst htu, hu, hI⟩

/-- A run is no longer than what it pays out of such a measure. -/
theorem Reach.length_add_le (μ : S → Nat) {I : S → Prop}
    (hstep : ∀ {s a t}, I s → step s a t → I t ∧ μ t < μ s) {s t : S} {h : List A} (hs : I s)
    (hr : Reach step s h t) : I t ∧ h.length + μ t ≤ μ s := by
  induction hr with
  | refl => exact ⟨hs, by simp⟩
  | tail _ hst ih =>
      obtain ⟨ht, hle⟩ := ih
      obtain ⟨hu, hlt⟩ := hstep ht hst
      refine ⟨hu, ?_⟩
      rw [List.length_cons]
      omega

/-- Where no run is longer than some number, some run gets stuck. -/
theorem exists_stuck_of_length_le {n : Nat} {s : S}
    (hle : ∀ h t, Reach step s h t → h.length ≤ n) : ∃ h t, Reach step s h t ∧ Stuck step t := by
  refine Classical.byContradiction fun hnone => ?_
  have hlonger : ∀ k, ∃ h t, Reach step s h t ∧ h.length = k := by
    intro k
    induction k with
    | zero => exact ⟨[], s, .refl, rfl⟩
    | succ k ih =>
        obtain ⟨h, t, hr, hlen⟩ := ih
        have hgo : ¬ Stuck step t := fun hstuck => hnone ⟨h, t, hr, hstuck⟩
        simp only [Stuck, not_forall, not_not] at hgo
        obtain ⟨a, u, hu⟩ := hgo
        exact ⟨a :: h, u, hr.tail hu, congrArg Nat.succ hlen⟩
  obtain ⟨h, t, hr, hlen⟩ := hlonger (n + 1)
  have hbound := hle h t hr
  rw [hlen] at hbound
  exact Nat.not_succ_le_self n hbound

/-- A run of a system with fewer steps is a run. -/
theorem Reach.mono {step' : S → A → S → Prop} (hle : ∀ {s a t}, step' s a t → step s a t)
    {s t : S} {h : List A} (hr : Reach step' s h t) : Reach step s h t := by
  induction hr with
  | refl => exact .refl
  | tail _ hs ih => exact .tail ih (hle hs)

/-- A run under other labels. -/
theorem Reach.relabel {step' : S → B → S → Prop} (f : A → B)
    (hstep : ∀ {s a t}, step s a t → step' s (f a) t) {s t : S} {h : List A}
    (hr : Reach step s h t) : Reach step' s (h.map f) t := by
  induction hr with
  | refl => exact .refl
  | tail _ hs ih => exact .tail ih (hstep hs)

/-- A run all of whose labels are of one sort is a run of the steps of that
sort. -/
theorem Reach.restrict {Q : A → Prop} {s t : S} {h : List A} (hr : Reach step s h t)
    (hQ : ∀ a ∈ h, Q a) : Reach (fun s a t => Q a ∧ step s a t) s h t := by
  induction hr with
  | refl => exact .refl
  | @tail h _ _ a _ hs ih =>
      exact .tail (ih fun b hb => hQ b (List.mem_cons_of_mem a hb)) ⟨hQ a List.mem_cons_self, hs⟩

/-- What every step says of its label holds of all labels of a run. -/
theorem Reach.forall_mem {Q : A → Prop} (hQ : ∀ {s a t}, step s a t → Q a) {s t : S} {h : List A}
    (hr : Reach step s h t) : ∀ a ∈ h, Q a := by
  induction hr with
  | refl => exact fun a ha => absurd ha List.not_mem_nil
  | tail _ hs ih => exact List.forall_mem_cons.2 ⟨hQ hs, ih⟩

/-- Forward simulation with stuttering. Every concrete step is answered by
abstract steps that show an observer the same labels; then so is every run,
and the relation holds at its end. -/
theorem Reach.simulate {astep : T → B → T → Prop} {O : Type*}
    (obs : A → Option O) (aobs : B → Option O) {R : S → T → Prop}
    (hsim : ∀ {s a s' t}, R s t → step s a s' →
      ∃ k t', Reach astep t k t' ∧ k.filterMap aobs = [a].filterMap obs ∧ R s' t')
    {s s' : S} {t : T} {h : List A} (hR : R s t) (hr : Reach step s h s') :
    ∃ k t', Reach astep t k t' ∧ k.filterMap aobs = h.filterMap obs ∧ R s' t' := by
  induction hr with
  | refl => exact ⟨[], t, .refl, rfl, hR⟩
  | @tail h _ _ a _ hs ih =>
      obtain ⟨k, t', hk, hobs, hR'⟩ := ih
      obtain ⟨k', t'', hk', hobs', hR''⟩ := hsim hR' hs
      refine ⟨k' ++ k, t'', hk.trans hk', ?_, hR''⟩
      rw [List.filterMap_append, hobs, hobs', ← List.filterMap_append]
      rfl

/-! ## Runs that look alike

A system need not be deterministic to be so as far as somebody can see who is
shown `f` of its states and `g` of its labels. -/

section View

variable {T O : Type*} {f : S → T} {g : A → O}

/-- A history is taken apart at any step. -/
theorem Reach.split {s u : S} : ∀ {k h : List A}, Reach step s (k ++ h) u →
    ∃ t, Reach step s h t ∧ Reach step t k u
  | [], _, hr => ⟨u, hr, .refl⟩
  | _ :: _, _, .tail hr hs => by
      obtain ⟨t, hst, htu⟩ := hr.split
      exact ⟨t, hst, .tail htu hs⟩

theorem Reach.exists_step {s t : S} {h : List A} (hr : Reach step s h t) (hne : h ≠ []) :
    ∃ a u, step s a u := by
  induction hr with
  | refl => exact absurd rfl hne
  | @tail h _ _ _ hr hs ih =>
      cases h with
      | nil =>
          cases hr
          exact ⟨_, _, hs⟩
      | cons a h => exact ih (List.cons_ne_nil a h)

/-- Runs of one length that start alike show the same labels and end alike. -/
theorem Reach.view_eq
    (hdet : ∀ {s s' a a' t t'}, f s = f s' → step s a t → step s' a' t' → g a = g a' ∧ f t = f t')
    {s s' : S} (hs : f s = f s') : ∀ {h h' : List A} {t t' : S}, Reach step s h t →
      Reach step s' h' t' → h.length = h'.length → h.map g = h'.map g ∧ f t = f t'
  | [], [], _, _, .refl, .refl, _ => ⟨rfl, hs⟩
  | _ :: _, _ :: _, _, _, .tail hr hstep, .tail hr' hstep', hlen => by
      obtain ⟨hlabels, hbefore⟩ := Reach.view_eq @hdet hs hr hr' (Nat.succ.inj hlen)
      obtain ⟨hlabel, hafter⟩ := hdet hbefore hstep hstep'
      exact ⟨by rw [List.map_cons, List.map_cons, hlabel, hlabels], hafter⟩

/-- If states that look alike can go on alike, a run that is stuck is as long
as any. -/
theorem Reach.length_le_of_stuck
    (hdet : ∀ {s s' a a' t t'}, f s = f s' → step s a t → step s' a' t' → g a = g a' ∧ f t = f t')
    (hgo : ∀ {s s' a' t'}, f s = f s' → step s' a' t' → ∃ a t, step s a t)
    {s s' : S} (hs : f s = f s') {h h' : List A} {t t' : S} (hr : Reach step s h t)
    (hr' : Reach step s' h' t') (hstuck : Stuck step t) : h'.length ≤ h.length := by
  refine Nat.le_of_not_lt fun hlonger => ?_
  rw [← List.take_append_drop (h'.length - h.length) h'] at hr'
  obtain ⟨u, hru, hut⟩ := hr'.split
  have hlen : h.length = (h'.drop (h'.length - h.length)).length := by
    rw [List.length_drop]
    omega
  have halike := (Reach.view_eq @hdet hs hr hru hlen).2
  -- the longer run goes on from a state that looks like the stuck one
  have htaken : h'.take (h'.length - h.length) ≠ [] := by
    intro hnil
    have hzero := congrArg List.length hnil
    rw [List.length_take, List.length_nil] at hzero
    omega
  obtain ⟨a, v, hstep⟩ := hut.exists_step htaken
  obtain ⟨b, w, hback⟩ := hgo halike hstep
  exact hstuck b w hback

end View

end Run
