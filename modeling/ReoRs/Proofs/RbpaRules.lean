import ReoRs.Rbpa

/-!
# What rules of an automaton do

A rule is a partial function on memory states: it is enabled where the state
agrees with its guard, and overwrites the state with its assignment. Read so,
`compose` should be one rule after another and `fuse` the two of them
together. Both lose assignments.

`compose` drops what the first rule assigns to a location that the second one
only guards, on the grounds that a value already has been found equal; it is
the guard that was, and not the state before. `fuse` keeps the assignment of
its first rule, and compares it with the second's only where one of the guards
has something to say. What it then costs is the subject of `ComposeKeeps` and
`FuseKeeps`, which hold exactly when nothing is lost.
-/

namespace ReoRs

/-- The memory of an automaton: which cells are full. -/
abbrev MemState := LocId → Bool

namespace StatePred

def Agrees (m : StatePred) (s : MemState) : Prop := ∀ k v, m.lookup k = some v → s k = v

theorem agrees_iff {m : StatePred} {s : MemState} : m.Agrees s ↔ ∀ e ∈ m.entries, s e.1 = e.2 :=
  ⟨fun h e he => h e.1 e.2 (AList.mem_lookup_iff.2 he),
    fun h k v hv => h ⟨k, v⟩ (AList.mem_lookup_iff.1 hv)⟩

instance (m : StatePred) (s : MemState) : Decidable (m.Agrees s) :=
  decidable_of_iff _ agrees_iff.symm

def overwrite (s : MemState) (m : StatePred) : MemState := fun k => (m.lookup k).getD (s k)

/-- A state that agrees with a predicate and is chosen elsewhere. -/
theorem overwrite_agrees (m : StatePred) (s : MemState) : m.Agrees (overwrite s m) := by
  intro k v hv
  rw [overwrite, hv, Option.getD_some]

end StatePred

open StatePred

theorem HashMap.lookup_retain {K V : Type} [DecidableEq K] (m : HashMap K V) (p : K → V → Bool)
    (k : K) : (m.retain p).lookup k = (m.lookup k).filter (p k) := by
  apply Option.ext
  intro v
  have hmem : v ∈ (m.retain p).lookup k ↔ v ∈ m.lookup k ∧ p k v = true := by
    rw [AList.mem_lookup_iff, AList.mem_lookup_iff]
    exact List.mem_filter
  rw [Option.filter_eq_some_iff]
  exact hmem

namespace RbpaRule

/-- The rule leads from one state to another. -/
def Takes (r : RbpaRule) (s s' : MemState) : Prop := r.guard.Agrees s ∧ s' = overwrite s r.assign

/-- Dropping assignments the guard makes idle does not matter. -/
theorem takes_normalize (r : RbpaRule) (s s' : MemState) :
    r.normalize.Takes s s' ↔ r.Takes s s' := by
  refine and_congr_right fun hs => ?_
  suffices h : overwrite s r.normalize.assign = overwrite s r.assign by rw [h]
  funext k
  show ((r.assign.retain _).lookup k).getD (s k) = _
  rw [HashMap.lookup_retain, overwrite]
  cases hv : r.assign.lookup k with
  | none => rfl
  | some v =>
      by_cases hidle : r.guard.lookup k = some v
      · rw [Option.filter_some, hidle, bne_self_eq_false, hs k v hidle]
        rfl
      · rw [Option.filter_some, if_pos (by simpa using hidle)]

/-- Twice a rule is once the rule. -/
theorem takes_trans (r : RbpaRule) (a b c : MemState) (hab : r.Takes a b) (hbc : r.Takes b c) :
    r.Takes a c := by
  obtain ⟨ha, rfl⟩ := hab
  obtain ⟨-, rfl⟩ := hbc
  refine ⟨ha, ?_⟩
  funext k
  simp only [overwrite]
  cases r.assign.lookup k <;> rfl

/-! ## Composition -/

/-- The first rule assigns nothing that the second guards and leaves alone,
unless its own guard has the value already. -/
def ComposeKeeps (r₁ r₂ : RbpaRule) : Prop :=
  ∀ k v, r₁.assign.lookup k = some v → r₂.guard.lookup k ≠ none → r₂.assign.lookup k = none →
    r₁.guard.lookup k = some v

instance (r₁ r₂ : RbpaRule) : Decidable (ComposeKeeps r₁ r₂) :=
  decidable_of_iff (∀ e ∈ r₁.assign.entries, r₂.guard.lookup e.1 ≠ none →
      r₂.assign.lookup e.1 = none → r₁.guard.lookup e.1 = some e.2)
    ⟨fun h k v hv => h ⟨k, v⟩ (AList.mem_lookup_iff.1 hv),
      fun h e he => h e.1 e.2 (AList.mem_lookup_iff.2 he)⟩

/-- A value the first rule leaves behind and the second does not want. -/
def Clash (r₁ : RbpaRule) (e : (_ : LocId) × Bool) : Prop := ∃ v, r₁.outcome e.1 = some v ∧ v ≠ e.2

/-- A round of the loop either finds a clash, or adds what the first rule says
nothing about. -/
theorem composeGuard_cases (r₁ : RbpaRule) (guard : StatePred) (e : (_ : LocId) × Bool) :
    (Clash r₁ e ∧ composeGuard r₁ guard e = none) ∨
      (¬ Clash r₁ e ∧ composeGuard r₁ guard e =
        some (if r₁.outcome e.1 = none then guard.insert e.1 e.2 else guard)) := by
  rw [Clash, composeGuard, outcome]
  cases hg : r₁.guard.lookup e.1 with
  | none =>
      cases ha : r₁.assign.lookup e.1 with
      | none => exact .inr ⟨by simp, rfl⟩
      | some v =>
          by_cases hv : v = e.2
          · exact .inr ⟨by simp [hv], by simp [hv]⟩
          · exact .inl ⟨⟨v, rfl, hv⟩, if_pos hv⟩
  | some w =>
      cases ha : r₁.assign.lookup e.1 with
      | none =>
          by_cases hw : w = e.2
          · exact .inr ⟨by simp [hw], by simp [hw]⟩
          · exact .inl ⟨⟨w, rfl, hw⟩, if_pos hw⟩
      | some v =>
          by_cases hv : v = e.2
          · exact .inr ⟨by simp [hv], by simp [hv]⟩
          · exact .inl ⟨⟨v, rfl, hv⟩, if_pos hv⟩

/-- A loop that adds the entries at locations with `Q`, read off after one more
round. -/
theorem lookup_round (Q : LocId → Prop) [DecidablePred Q] {e : (_ : LocId) × Bool}
    {l : List ((_ : LocId) × Bool)} (hnot : e.1 ∉ l.keys) (m : StatePred) (k : LocId) :
    (if Q k then (l.dlookup k).or ((if Q e.1 then m.insert e.1 e.2 else m).lookup k)
      else (if Q e.1 then m.insert e.1 e.2 else m).lookup k) =
      if Q k then ((e :: l).dlookup k).or (m.lookup k) else m.lookup k := by
  by_cases hk : k = e.1
  · subst hk
    have hnone : l.dlookup e.1 = none := List.dlookup_eq_none.2 hnot
    rw [hnone, Option.none_or, List.dlookup_cons_eq]
    split
    · rw [AList.lookup_insert, Option.some_or]
    · rfl
  · have hsame : (if Q e.1 then m.insert e.1 e.2 else m).lookup k = m.lookup k := by
      split
      · exact AList.lookup_insert_ne hk
      · rfl
    rw [hsame, List.dlookup_cons_ne _ _ hk]

/-- The loop over the second guard. -/
theorem composeGuard_fold (r₁ : RbpaRule) : ∀ (l : List ((_ : LocId) × Bool)) (g : StatePred),
    l.NodupKeys →
      (l.foldlM (composeGuard r₁) g = none ∧ ∃ e ∈ l, Clash r₁ e) ∨
        ∃ g', l.foldlM (composeGuard r₁) g = some g' ∧ (∀ e ∈ l, ¬ Clash r₁ e) ∧
          ∀ k, g'.lookup k =
            if r₁.outcome k = none then (l.dlookup k).or (g.lookup k) else g.lookup k
  | [], g, _ => by
      refine .inr ⟨g, rfl, by simp, fun k => ?_⟩
      rw [List.dlookup_nil, Option.none_or, ite_self]
  | e :: l, g, hl => by
      obtain ⟨hnot, hl⟩ := List.nodupKeys_cons.1 hl
      rw [List.foldlM_cons]
      rcases composeGuard_cases r₁ g e with ⟨hclash, hnone⟩ | ⟨hfree, hsome⟩
      · rw [hnone]
        exact .inl ⟨rfl, e, List.mem_cons_self, hclash⟩
      · rw [hsome]
        rcases composeGuard_fold r₁ l (if r₁.outcome e.1 = none then g.insert e.1 e.2 else g) hl
          with ⟨hfold, e', he', hclash⟩ | ⟨g', hfold, hrest, hlookup⟩
        · exact .inl ⟨hfold, e', List.mem_cons_of_mem e he', hclash⟩
        · refine .inr ⟨g', hfold, List.forall_mem_cons.2 ⟨hfree, hrest⟩, fun k => ?_⟩
          rw [hlookup]
          exact lookup_round (fun k => r₁.outcome k = none) hnot g k

/-- The loop over the first assignment. -/
theorem composeAssign_fold (r₂ : RbpaRule) : ∀ (l : List ((_ : LocId) × Bool)) (a : StatePred),
    l.NodupKeys → ∀ k, (l.foldl (composeAssign r₂) a).lookup k =
      if r₂.guard.lookup k = none ∧ r₂.assign.lookup k = none then (l.dlookup k).or (a.lookup k)
      else a.lookup k
  | [], a, _, k => by rw [List.foldl_nil, List.dlookup_nil, Option.none_or, ite_self]
  | e :: l, a, hl, k => by
      obtain ⟨hnot, hl⟩ := List.nodupKeys_cons.1 hl
      have hround : composeAssign r₂ a e =
          if r₂.guard.lookup e.1 = none ∧ r₂.assign.lookup e.1 = none then a.insert e.1 e.2
          else a := by
        rw [composeAssign]
        cases r₂.guard.lookup e.1 <;> cases r₂.assign.lookup e.1 <;> simp
      rw [List.foldl_cons, composeAssign_fold r₂ l _ hl, hround]
      exact lookup_round (fun k => r₂.guard.lookup k = none ∧ r₂.assign.lookup k = none) hnot a k

/-- What a composed rule consists of. -/
structure Composed (r₁ r₂ c : RbpaRule) (guard assign : StatePred) : Prop where
  rule : c = normalize ⟨r₂.port, guard, assign⟩
  free : ∀ k v, r₂.guard.lookup k = some v → ∀ w, r₁.outcome k = some w → w = v
  guard : ∀ k, guard.lookup k =
    if r₁.outcome k = none then (r₂.guard.lookup k).or (r₁.guard.lookup k) else r₁.guard.lookup k
  assign : ∀ k, assign.lookup k =
    if r₂.guard.lookup k = none ∧ r₂.assign.lookup k = none then
      (r₁.assign.lookup k).or (r₂.assign.lookup k)
    else r₂.assign.lookup k

/-- The two loops, whatever order they go through the maps in. -/
theorem composed_cases {r₁ r₂ : RbpaRule} {guards assigns : List ((_ : LocId) × Bool)}
    (hguards : guards.Perm r₂.guard.entries) (hassigns : assigns.Perm r₁.assign.entries) :
    (guards.foldlM (composeGuard r₁) r₁.guard = none ∧
        ∃ k v w, r₂.guard.lookup k = some v ∧ r₁.outcome k = some w ∧ w ≠ v) ∨
      ∃ g, guards.foldlM (composeGuard r₁) r₁.guard = some g ∧
        Composed r₁ r₂ (normalize ⟨r₂.port, g, assigns.foldl (composeAssign r₂) r₂.assign⟩) g
          (assigns.foldl (composeAssign r₂) r₂.assign) := by
  have hkeys : guards.NodupKeys := (List.perm_nodupKeys hguards).2 r₂.guard.nodupKeys
  have hkeys' : assigns.NodupKeys := (List.perm_nodupKeys hassigns).2 r₁.assign.nodupKeys
  rcases composeGuard_fold r₁ guards r₁.guard hkeys with
    ⟨hfold, e, he, w, hw, hne⟩ | ⟨g, hfold, hfree, hlookup⟩
  · exact .inl ⟨hfold, e.1, e.2, w, AList.mem_lookup_iff.2 (hguards.mem_iff.1 he), hw, hne⟩
  · refine .inr ⟨g, hfold, rfl, ?_, fun k => ?_, fun k => ?_⟩
    · intro k v hv w hw
      by_contra hne
      exact hfree ⟨k, v⟩ (hguards.mem_iff.2 (AList.mem_lookup_iff.1 hv)) ⟨w, hw, hne⟩
    · rw [hlookup, List.perm_dlookup k hkeys hguards]
      rfl
    · rw [composeAssign_fold r₂ assigns r₂.assign hkeys', List.perm_dlookup k hkeys' hassigns]
      rfl

theorem compose_cases (r₁ r₂ : RbpaRule) :
    (r₁.compose r₂ = none ∧ ∃ k v w, r₂.guard.lookup k = some v ∧ r₁.outcome k = some w ∧ w ≠ v) ∨
      ∃ c guard assign, r₁.compose r₂ = some c ∧ Composed r₁ r₂ c guard assign := by
  rcases @composed_cases r₁ r₂ _ _ .rfl .rfl with ⟨hfold, hclash⟩ | ⟨g, hfold, h⟩
  · exact .inl ⟨by rw [compose, hfold], hclash⟩
  · exact .inr ⟨_, g, _, by rw [compose, hfold], h⟩

theorem composed_of_compose {r₁ r₂ c : RbpaRule} (hc : r₁.compose r₂ = some c) :
    ∃ guard assign, Composed r₁ r₂ c guard assign := by
  rcases compose_cases r₁ r₂ with ⟨hnone, -⟩ | ⟨c', g, a, hsome, h⟩
  · rw [hc] at hnone
    cases hnone
  · cases hc.symm.trans hsome
    exact ⟨g, a, h⟩

/-- Where the two clash, no state passes both. -/
theorem not_takes_of_compose_none {r₁ r₂ : RbpaRule} (h : r₁.compose r₂ = none)
    {s m s' : MemState} (h₁ : r₁.Takes s m) (h₂ : r₂.Takes m s') : False := by
  rcases compose_cases r₁ r₂ with ⟨-, k, v, w, hv, hw, hne⟩ | ⟨c, g, a, hsome, -⟩
  · obtain ⟨hs, rfl⟩ := h₁
    refine hne ?_
    rw [← h₂.1 k v hv, overwrite]
    rw [outcome] at hw
    cases ha : r₁.assign.lookup k with
    | some x =>
        rw [ha, Option.some_or] at hw
        exact (Option.some.inj hw).symm
    | none =>
        rw [ha, Option.none_or] at hw
        exact (hs k w hw).symm
  · rw [h] at hsome
    cases hsome

section Composed

variable {r₁ r₂ c : RbpaRule} {g a : StatePred} {s : MemState}

theorem Composed.port (h : Composed r₁ r₂ c g a) : c.port = r₂.port := by
  rw [h.rule, normalize]

theorem Composed.guard_eq (h : Composed r₁ r₂ c g a) : c.guard = g := by
  rw [h.rule, normalize]

theorem Composed.lookup_assign (h : Composed r₁ r₂ c g a) (k : LocId) :
    c.assign.lookup k = (a.lookup k).filter fun v => g.lookup k != some v := by
  rw [h.rule]
  exact HashMap.lookup_retain _ _ _

/-- The composed guard lets through what both guards do. -/
theorem Composed.agrees (h : Composed r₁ r₂ c g a) :
    g.Agrees s ↔ r₁.guard.Agrees s ∧ r₂.guard.Agrees (overwrite s r₁.assign) := by
  constructor
  · intro hg
    have hfirst : r₁.guard.Agrees s := by
      intro k v hv
      have hout : r₁.outcome k ≠ none := by
        rw [outcome, hv]
        cases r₁.assign.lookup k <;> simp
      exact hg k v (by rw [h.guard, if_neg hout, hv])
    refine ⟨hfirst, fun k v hv => ?_⟩
    rw [overwrite]
    cases ha : r₁.assign.lookup k with
    | some w => exact h.free k v hv w (by rw [outcome, ha, Option.some_or])
    | none =>
        rw [Option.getD_none]
        cases hr : r₁.guard.lookup k with
        | some w =>
            rw [hfirst k w hr]
            exact h.free k v hv w (by rw [outcome, ha, Option.none_or, hr])
        | none =>
            refine hg k v ?_
            rw [h.guard, if_pos (by rw [outcome, ha, Option.none_or, hr]), hv, Option.some_or]
  · rintro ⟨hfirst, hsecond⟩ k v hv
    rw [h.guard] at hv
    split at hv
    · next hout =>
        rw [outcome, Option.or_eq_none_iff] at hout
        rw [hout.2, Option.or_none] at hv
        have := hsecond k v hv
        rwa [overwrite, hout.1, Option.getD_none] at this
    · exact hfirst k v hv

/-- A location on which the composed assignment and the two one after the other
may differ. -/
theorem Composed.overwrite_eq (h : Composed r₁ r₂ c g a) {k : LocId}
    (hk : ∀ v, r₁.assign.lookup k = some v → r₂.guard.lookup k ≠ none →
      r₂.assign.lookup k = none → s k = v) :
    overwrite s a k = overwrite (overwrite s r₁.assign) r₂.assign k := by
  rw [overwrite, overwrite, overwrite, h.assign]
  cases h₂ : r₂.assign.lookup k with
  | some w => rw [if_neg (fun hcon => nomatch hcon.2)]; rfl
  | none =>
      rw [Option.or_none, Option.getD_none]
      cases hg : r₂.guard.lookup k with
      | none => rw [if_pos ⟨rfl, rfl⟩]
      | some w =>
          rw [if_neg (fun hcon => nomatch hcon.1), Option.getD_none]
          cases h₁ : r₁.assign.lookup k with
          | none => rfl
          | some v => exact hk v h₁ (by rw [hg]; simp) h₂

end Composed

/-- A composed rule is the one rule after the other exactly if nothing the
first assigns is lost. -/
theorem compose_exact_iff {r₁ r₂ c : RbpaRule} (hc : r₁.compose r₂ = some c) :
    (∀ s s', c.Takes s s' ↔ ∃ m, r₁.Takes s m ∧ r₂.Takes m s') ↔ ComposeKeeps r₁ r₂ := by
  obtain ⟨g, a, h⟩ := composed_of_compose hc
  have htakes : ∀ s s', c.Takes s s' ↔ g.Agrees s ∧ s' = overwrite s a := by
    intro s s'
    rw [h.rule, takes_normalize]
    rfl
  have hboth : ∀ s s', (∃ m, r₁.Takes s m ∧ r₂.Takes m s') ↔
      g.Agrees s ∧ s' = overwrite (overwrite s r₁.assign) r₂.assign := by
    intro s s'
    rw [h.agrees]
    constructor
    · rintro ⟨m, ⟨hs, rfl⟩, hm, rfl⟩
      exact ⟨⟨hs, hm⟩, rfl⟩
    · rintro ⟨⟨hs, hm⟩, rfl⟩
      exact ⟨_, ⟨hs, rfl⟩, hm, rfl⟩
  constructor
  · intro hexact k v hv hguard hassign
    by_contra hne
    -- a state in which the cell is not yet as the first rule leaves it
    have hstate := overwrite_agrees g fun _ => !v
    have hcell : overwrite (fun _ => !v) g k = !v := by
      rw [overwrite]
      cases hg : g.lookup k with
      | none => rfl
      | some w =>
          have hout : r₁.outcome k ≠ none := by rw [outcome, hv]; simp
          rw [h.guard, if_neg hout] at hg
          rw [Option.getD_some]
          cases v <;> cases w <;> simp_all
    have hsame := ((htakes _ _).1 ((hexact _ _).2 ((hboth _ _).2 ⟨hstate, rfl⟩))).2
    have hat := congrFun hsame k
    simp only [overwrite] at hat hcell
    rw [hassign, hv, h.assign, hassign, if_neg (fun hcon => hguard hcon.1), hcell] at hat
    cases v <;> cases hat
  · intro hkeeps s s'
    rw [htakes, hboth]
    refine and_congr_right fun hs => ?_
    suffices heq : overwrite s a = overwrite (overwrite s r₁.assign) r₂.assign by rw [heq]
    funext k
    refine h.overwrite_eq fun v hv hguard hassign => ?_
    exact (h.agrees.1 hs).1 k v (hkeeps k v hv hguard hassign)

theorem port_of_compose {r₁ r₂ c : RbpaRule} (hc : r₁.compose r₂ = some c) : c.port = r₂.port := by
  obtain ⟨g, a, h⟩ := composed_of_compose hc
  exact h.port

/-! ## One rule after the other, exactly

Whether `compose` finds a rule at all it decides rightly. What the rule does is
right where the two clash, so that there is none, or nothing is lost.
-/

/-- The first rule leaves a location with a value that the second refuses. -/
def Clashing (r₁ r₂ : RbpaRule) : Prop :=
  ∃ k v w, r₂.guard.lookup k = some v ∧ r₁.outcome k = some w ∧ w ≠ v

/-- `r₁.compose(r₂)` is what `r₁` and then `r₂` do. -/
structure ComposesInSequence (r₁ r₂ : RbpaRule) : Prop where
  none_iff : r₁.compose r₂ = none ↔ ¬ ∃ s m s', r₁.Takes s m ∧ r₂.Takes m s'
  port : ∀ c, r₁.compose r₂ = some c → c.port = r₂.port
  takes : ∀ c, r₁.compose r₂ = some c → ∀ s s', c.Takes s s' ↔ ∃ m, r₁.Takes s m ∧ r₂.Takes m s'

/-- Rules with a composition have a state that both of them let through. -/
theorem Composed.takes {r₁ r₂ c : RbpaRule} {g a : StatePred} (h : Composed r₁ r₂ c g a) :
    ∃ s m s', r₁.Takes s m ∧ r₂.Takes m s' := by
  have hstate := overwrite_agrees g fun _ => false
  obtain ⟨h₁, h₂⟩ := h.agrees.1 hstate
  exact ⟨_, _, _, ⟨h₁, rfl⟩, h₂, rfl⟩

theorem compose_none_iff (r₁ r₂ : RbpaRule) :
    r₁.compose r₂ = none ↔ ¬ ∃ s m s', r₁.Takes s m ∧ r₂.Takes m s' := by
  constructor
  · intro hnone hboth
    obtain ⟨s, m, s', h₁, h₂⟩ := hboth
    exact not_takes_of_compose_none hnone h₁ h₂
  · intro hno
    rcases compose_cases r₁ r₂ with ⟨hnone, -⟩ | ⟨c, g, a, -, h⟩
    · exact hnone
    · exact absurd h.takes hno

theorem clashing_iff (r₁ r₂ : RbpaRule) : Clashing r₁ r₂ ↔ r₁.compose r₂ = none := by
  rcases compose_cases r₁ r₂ with ⟨hnone, hclash⟩ | ⟨c, g, a, hsome, h⟩
  · exact ⟨fun _ => hnone, fun _ => hclash⟩
  · constructor
    · intro hclash
      obtain ⟨k, v, w, hv, hw, hne⟩ := hclash
      exact absurd (h.free k v hv w hw) hne
    · intro hnone
      rw [hsome] at hnone
      cases hnone

/-- A composition is the one rule after the other if and only if the two clash,
and there is none, or the first assigns nothing that the second only guards. -/
theorem composesInSequence_iff (r₁ r₂ : RbpaRule) :
    ComposesInSequence r₁ r₂ ↔ Clashing r₁ r₂ ∨ ComposeKeeps r₁ r₂ := by
  rw [clashing_iff]
  constructor
  · intro h
    cases hc : r₁.compose r₂ with
    | none => exact .inl rfl
    | some c => exact .inr ((compose_exact_iff hc).1 (h.takes c hc))
  · intro h
    refine ⟨compose_none_iff r₁ r₂, fun c hc => port_of_compose hc, fun c hc => ?_⟩
    have hkeeps : ComposeKeeps r₁ r₂ := h.resolve_left (by rw [hc]; exact Option.some_ne_none c)
    exact (compose_exact_iff hc).2 hkeeps

/-- Fills cell 0. -/
def fills : RbpaRule where
  port := none
  guard := (∅ : StatePred).insert 0 false
  assign := (∅ : StatePred).insert 0 true

/-- Port 1 finds cell 0 full. -/
def finds : RbpaRule where
  port := some 1
  guard := (∅ : StatePred).insert 0 true
  assign := ∅

theorem not_composesInSequence : fills.port = none ∧ ¬ ComposesInSequence fills finds := by
  refine ⟨rfl, fun h => ?_⟩
  obtain ⟨c, hc⟩ := Option.isSome_iff_exists.1
    (show (fills.compose finds).isSome = true by decide)
  have hempty : ∀ c ∈ fills.compose finds, c.assign.lookup 0 = none := by decide
  -- from the empty cell the two lead to the full one; the composition leaves it empty
  let s : MemState := fun _ => false
  have hboth : ∃ m, fills.Takes s m ∧ finds.Takes m (overwrite (overwrite s fills.assign) ∅) :=
    ⟨_, ⟨by decide, rfl⟩, by decide, rfl⟩
  have hcell := congrFun ((h.takes c hc s _).2 hboth).2 0
  rw [overwrite, overwrite, overwrite, hempty c hc] at hcell
  cases hcell

/-! ## Fusion -/

/-- What neither rule guards they assign alike, and what the first one guards
and the second does not, or does otherwise, the first assigns itself. -/
def FuseKeeps (a b : RbpaRule) : Prop :=
  (∀ k, a.guard.lookup k = none → b.guard.lookup k = none →
    a.assign.lookup k = b.assign.lookup k) ∧
    ∀ k w, a.guard.lookup k = some w → b.guard.lookup k ≠ some w → a.assign.lookup k ≠ none

/-- Only what is assigned or guarded has to be looked at. -/
theorem fuseKeeps_iff {a b : RbpaRule} : FuseKeeps a b ↔
    (∀ k ∈ a.assign.keys ++ b.assign.keys, a.guard.lookup k = none → b.guard.lookup k = none →
      a.assign.lookup k = b.assign.lookup k) ∧
      ∀ e ∈ a.guard.entries, b.guard.lookup e.1 ≠ some e.2 → a.assign.lookup e.1 ≠ none := by
  refine and_congr ⟨fun h k _ => h k, fun h k => ?_⟩ ?_
  · by_cases hk : k ∈ a.assign.keys ++ b.assign.keys
    · exact h k hk
    · rw [List.mem_append, not_or, ← AList.mem_keys, ← AList.mem_keys, ← AList.lookup_eq_none,
        ← AList.lookup_eq_none] at hk
      intro _ _
      rw [hk.1, hk.2]
  · exact ⟨fun h e he => h e.1 e.2 (AList.mem_lookup_iff.2 he),
      fun h k w hw => h ⟨k, w⟩ (AList.mem_lookup_iff.1 hw)⟩

instance (a b : RbpaRule) : Decidable (FuseKeeps a b) := decidable_of_iff _ fuseKeeps_iff.symm

/-- What each case of the loop says about the locations it was through. -/
def Related (a b : RbpaRule) (ids : List LocId) : FuseCase → Prop
  | .identical => ∀ k ∈ ids, a.guard.lookup k = b.guard.lookup k
  | .leftSubsumes => ∀ k ∈ ids, a.guard.lookup k = none ∨ a.guard.lookup k = b.guard.lookup k
  | .rightSubsumes => ∀ k ∈ ids, b.guard.lookup k = none ∨ a.guard.lookup k = b.guard.lookup k
  | .partitionAt id =>
      (∃ v, a.guard.lookup id = some v ∧ b.guard.lookup id = some !v) ∧
        ∀ k ∈ ids, k ≠ id → a.guard.lookup k = b.guard.lookup k

theorem related_nextCase {a b : RbpaRule} {ids : List LocId} {id : LocId} {g g' : FuseCase}
    (h : Related a b ids g) (hnext : nextCase a b g id = some g') :
    Related a b (ids ++ [id]) g' := by
  have hsnoc : ∀ {Q : LocId → Prop}, (∀ k ∈ ids, Q k) → Q id → ∀ k ∈ ids ++ [id], Q k := by
    intro Q hQ hid k hk
    rcases List.mem_append.1 hk with hk | hk
    · exact hQ k hk
    · rwa [List.mem_singleton.1 hk]
  -- a round in which the guards agree leaves the case as it was
  have hequal : a.guard.lookup id = b.guard.lookup id → g' = g → Related a b (ids ++ [id]) g' := by
    rintro heq rfl
    cases g' with
    | identical => exact hsnoc h heq
    | leftSubsumes => exact hsnoc h (.inr heq)
    | rightSubsumes => exact hsnoc h (.inr heq)
    | partitionAt x => exact ⟨h.1, hsnoc h.2 fun _ => heq⟩
  unfold nextCase at hnext
  cases ha : a.guard.lookup id with
  | none =>
      cases hb : b.guard.lookup id with
      | none =>
          rw [ha, hb] at hnext
          exact hequal (by rw [ha, hb]) (Option.some.inj hnext).symm
      | some y =>
          rw [ha, hb] at hnext
          cases g with
          | identical =>
              cases hnext
              exact hsnoc (fun k hk => .inr (h k hk)) (.inl ha)
          | leftSubsumes =>
              cases hnext
              exact hsnoc h (.inl ha)
          | rightSubsumes => cases hnext
          | partitionAt x => cases hnext
  | some x =>
      cases hb : b.guard.lookup id with
      | none =>
          rw [ha, hb] at hnext
          cases g with
          | identical =>
              cases hnext
              exact hsnoc (fun k hk => .inr (h k hk)) (.inl hb)
          | rightSubsumes =>
              cases hnext
              exact hsnoc h (.inl hb)
          | leftSubsumes => cases hnext
          | partitionAt x => cases hnext
      | some y =>
          rw [ha, hb] at hnext
          by_cases hxy : x = y
          · subst hxy
            exact hequal (by rw [ha, hb]) (by simpa using hnext.symm)
          · simp only [ne_eq, hxy, not_false_eq_true, if_true] at hnext
            cases g with
            | identical =>
                cases hnext
                refine ⟨⟨x, ha, ?_⟩, hsnoc (fun k hk _ => h k hk) fun hne => absurd rfl hne⟩
                rw [hb]
                cases x <;> cases y <;> simp_all
            | leftSubsumes => cases hnext
            | rightSubsumes => cases hnext
            | partitionAt z => cases hnext

theorem related_fold {a b : RbpaRule} : ∀ (l ids : List LocId) {g g' : FuseCase},
    Related a b ids g → l.foldlM (nextCase a b) g = some g' → Related a b (ids ++ l) g'
  | [], ids, g, g', h, hfold => by
      rw [List.foldlM_nil] at hfold
      cases hfold
      rwa [List.append_nil]
  | id :: l, ids, g, g', h, hfold => by
      rw [List.foldlM_cons] at hfold
      obtain ⟨m, hnext, hrest⟩ := Option.bind_eq_some_iff.1 hfold
      have := related_fold l (ids ++ [id]) (related_nextCase h hnext) hrest
      rwa [List.append_assoc] at this

theorem mem_guardIds {a b : RbpaRule} {k : LocId} :
    k ∈ guardIds a b ↔ a.guard.lookup k ≠ none ∨ b.guard.lookup k ≠ none := by
  rw [guardIds, List.mem_eraseDups, List.mem_append, ne_eq, ne_eq, AList.lookup_eq_none,
    AList.lookup_eq_none, not_not, not_not]
  exact Iff.rfl

/-- What a fused rule consists of. -/
structure Fused (a b f : RbpaRule) (g : FuseCase) : Prop where
  port : a.port = b.port
  related : Related a b (guardIds a b) g
  outcome : ∀ k, a.guard.lookup k ≠ none ∨ b.guard.lookup k ≠ none → a.outcome k = b.outcome k
  rule : f = normalize ⟨a.port, fusedGuard a b g, a.assign⟩

theorem fused_of_fuse {a b f : RbpaRule} (hf : a.fuse b = some f) : ∃ g, Fused a b f g := by
  rw [fuse] at hf
  split at hf
  · cases hf
  · next hport =>
      split at hf
      · cases hf
      · next g hfold =>
          split at hf
          · cases hf
          · next hany =>
              have hrelated : Related a b ([] ++ guardIds a b) g :=
                related_fold (guardIds a b) [] (g := .identical)
                  (fun k hk => absurd hk List.not_mem_nil) hfold
              refine ⟨g, not_not.1 hport, hrelated, fun k hk => ?_, (Option.some.inj hf).symm⟩
              by_contra hne
              exact hany (List.any_eq_true.2 ⟨k, mem_guardIds.2 hk, bne_iff_ne.2 hne⟩)

section Fused

variable {a b f : RbpaRule} {g : FuseCase} {s : MemState}

theorem Fused.ports (h : Fused a b f g) : f.port = a.port := by
  rw [h.rule, normalize]

/-- The relation between the guards extends to the locations neither has. -/
theorem lookups_of_guardIds {Q : LocId → Prop} (hids : ∀ k ∈ guardIds a b, Q k)
    (hnone : ∀ k, a.guard.lookup k = none → b.guard.lookup k = none → Q k) (k : LocId) : Q k := by
  by_cases hk : k ∈ guardIds a b
  · exact hids k hk
  · rw [mem_guardIds, not_or, not_not, not_not] at hk
    exact hnone k hk.1 hk.2

/-- The fused guard lets through what one of the guards does. -/
theorem Fused.agrees (h : Fused a b f g) :
    (fusedGuard a b g).Agrees s ↔ a.guard.Agrees s ∨ b.guard.Agrees s := by
  have hrel := h.related
  cases g with
  | identical =>
      have heq := lookups_of_guardIds hrel fun k ha hb => ha.trans hb.symm
      refine ⟨.inl, fun hs => hs.elim id fun hb k v hv => hb k v ?_⟩
      rw [← heq]
      exact hv
  | leftSubsumes =>
      have heq := lookups_of_guardIds hrel fun k ha _ => .inl ha
      refine ⟨.inl, fun hs => hs.elim id fun hb k v hv => hb k v ?_⟩
      rcases heq k with hnone | hk
      · rw [fusedGuard, hnone] at hv
        cases hv
      · rw [← hk]
        exact hv
  | rightSubsumes =>
      have heq := lookups_of_guardIds hrel fun k _ hb => .inl hb
      refine ⟨.inr, fun hs => hs.elim (fun ha k v hv => ha k v ?_) id⟩
      rcases heq k with hnone | hk
      · rw [fusedGuard, hnone] at hv
        cases hv
      · rw [hk]
        exact hv
  | partitionAt id =>
      obtain ⟨⟨x, hx, hy⟩, hids⟩ := hrel
      have heq := lookups_of_guardIds hids fun k ha hb _ => ha.trans hb.symm
      have herase : ∀ k v, (a.guard.erase id).lookup k = some v →
          k ≠ id ∧ a.guard.lookup k = some v := by
        intro k v hv
        have hne : k ≠ id := by
          rintro rfl
          rw [AList.lookup_erase] at hv
          cases hv
        rw [AList.lookup_erase_ne hne] at hv
        exact ⟨hne, hv⟩
      constructor
      · intro hs
        have hrest : ∀ k, k ≠ id → ∀ v, a.guard.lookup k = some v → s k = v := by
          intro k hne v hv
          exact hs k v (by rw [fusedGuard, AList.lookup_erase_ne hne, hv])
        -- the state has one of the two values at the location they differ on
        by_cases hid : s id = x
        · refine .inl fun k v hv => ?_
          by_cases hk : k = id
          · subst hk
            rw [hx] at hv
            rw [hid, Option.some.inj hv]
          · exact hrest k hk v hv
        · refine .inr fun k v hv => ?_
          by_cases hk : k = id
          · subst hk
            rw [hy] at hv
            rw [← Option.some.inj hv]
            cases x <;> simpa using hid
          · exact hrest k hk v (by rw [heq k hk, hv])
      · rintro (ha | hb) k v hv
        · exact ha k v (herase k v hv).2
        · obtain ⟨hne, hv⟩ := herase k v hv
          exact hb k v (by rw [← heq k hne, hv])

/-- Where the second rule is enabled the first one's assignment does the same. -/
theorem Fused.overwrite_eq (h : Fused a b f g) (hkeeps : FuseKeeps a b)
    (hb : b.guard.Agrees s) : overwrite s a.assign = overwrite s b.assign := by
  funext k
  rw [overwrite, overwrite]
  by_cases hguard : a.guard.lookup k = none ∧ b.guard.lookup k = none
  · rw [hkeeps.1 k hguard.1 hguard.2]
  · have hout := h.outcome k (by rwa [ne_eq, ne_eq, ← not_and_or])
    rw [RbpaRule.outcome, RbpaRule.outcome] at hout
    cases hbk : b.guard.lookup k with
    | none =>
        cases hak : a.guard.lookup k with
        | none => exact absurd ⟨hak, hbk⟩ hguard
        | some w =>
            have hassign := hkeeps.2 k w hak (by rw [hbk]; simp)
            obtain ⟨u, hu⟩ := Option.ne_none_iff_exists'.1 hassign
            rw [hu, Option.some_or, hbk, Option.or_none] at hout
            rw [hu, ← hout]
    | some x =>
        rw [hb k x hbk]
        rw [hbk] at hout
        cases hassign : a.assign.lookup k with
        | some u =>
            rw [hassign, Option.some_or] at hout
            cases hba : b.assign.lookup k with
            | some y =>
                rw [hba, Option.some_or] at hout
                rw [Option.some.inj hout]
            | none =>
                rw [hba, Option.none_or] at hout
                rw [Option.some.inj hout]
                rfl
        | none =>
            have hak : a.guard.lookup k = some x := by
              cases hak : a.guard.lookup k with
              | none =>
                  rw [hassign, hak] at hout
                  cases hba : b.assign.lookup k <;> rw [hba] at hout <;> cases hout
              | some w =>
                  by_contra hne
                  exact hkeeps.2 k w hak (by rw [hbk]; exact fun heq => hne heq.symm) hassign
            rw [hassign, hak, Option.none_or] at hout
            cases hba : b.assign.lookup k with
            | some y =>
                rw [hba, Option.some_or] at hout
                rw [← Option.some.inj hout]
                rfl
            | none => rfl

/-- And only if nothing is lost. -/
theorem Fused.keeps (h : Fused a b f g)
    (hsame : ∀ s, b.guard.Agrees s → overwrite s a.assign = overwrite s b.assign) :
    FuseKeeps a b := by
  constructor
  · intro k ha hb
    have hat : ∀ x : Bool,
        (a.assign.lookup k).getD x = (b.assign.lookup k).getD x := by
      intro x
      have hstate := overwrite_agrees b.guard fun _ => x
      have := congrFun (hsame _ hstate) k
      simpa only [overwrite, hb, Option.getD_none] using this
    have ht := hat true
    have hf := hat false
    cases hak : a.assign.lookup k <;> cases hbk : b.assign.lookup k <;> simp_all
  · intro k w ha hb hassign
    have hout := h.outcome k (.inl (by rw [ha]; simp))
    rw [RbpaRule.outcome, RbpaRule.outcome, hassign, ha, Option.none_or] at hout
    -- a state with the other value in the cell
    have hstate := overwrite_agrees b.guard fun _ => !w
    have hcell : overwrite (fun _ => !w) b.guard k = !w := by
      rw [overwrite]
      cases hbk : b.guard.lookup k with
      | none => rfl
      | some y =>
          rw [hbk] at hb
          rw [Option.getD_some]
          cases w <;> cases y <;> simp at hb ⊢
    have hat := congrFun (hsame _ hstate) k
    rw [overwrite, hassign, hcell, Option.getD_none, overwrite, hcell] at hat
    cases hba : b.assign.lookup k with
    | some y =>
        rw [hba, Option.some_or] at hout
        rw [hba, ← Option.some.inj hout] at hat
        cases w <;> cases hat
    | none =>
        rw [hba, Option.none_or] at hout
        exact hb hout.symm

end Fused

/-- A fused rule is either of the two exactly if nothing they assign is lost. -/
theorem fuse_exact_iff {a b f : RbpaRule} (hf : a.fuse b = some f) :
    (∀ s s', f.Takes s s' ↔ a.Takes s s' ∨ b.Takes s s') ↔ FuseKeeps a b := by
  obtain ⟨g, h⟩ := fused_of_fuse hf
  have htakes : ∀ s s', f.Takes s s' ↔
      (a.guard.Agrees s ∨ b.guard.Agrees s) ∧ s' = overwrite s a.assign := by
    intro s s'
    rw [h.rule, takes_normalize, ← h.agrees]
    rfl
  constructor
  · intro hexact
    refine h.keeps fun s hb => ?_
    exact ((htakes s _).1 ((hexact s _).2 (.inr ⟨hb, rfl⟩))).2.symm
  · intro hkeeps s s'
    rw [htakes]
    constructor
    · rintro ⟨ha | hb, rfl⟩
      · exact .inl ⟨ha, rfl⟩
      · exact .inr ⟨hb, h.overwrite_eq hkeeps hb⟩
    · rintro (⟨ha, rfl⟩ | ⟨hb, rfl⟩)
      · exact ⟨.inl ha, rfl⟩
      · exact ⟨.inr hb, (h.overwrite_eq hkeeps hb).symm⟩

theorem port_of_fuse {a b f : RbpaRule} (hf : a.fuse b = some f) :
    f.port = a.port ∧ a.port = b.port := by
  obtain ⟨g, h⟩ := fused_of_fuse hf
  exact ⟨h.ports, h.port⟩

/-! ## Both rules in one, exactly -/

/-- `c` is enabled where `a` or `b` is, and does there what the enabled one
does. -/
structure IsUnion (a b c : RbpaRule) : Prop where
  ports : c.port = a.port ∧ c.port = b.port
  enabled : ∀ s, c.guard.Agrees s ↔ a.guard.Agrees s ∨ b.guard.Agrees s
  left : ∀ s, a.guard.Agrees s → overwrite s c.assign = overwrite s a.assign
  right : ∀ s, b.guard.Agrees s → overwrite s c.assign = overwrite s b.assign

theorem IsUnion.takes {a b c : RbpaRule} (h : IsUnion a b c) (s s' : MemState) :
    c.Takes s s' ↔ a.Takes s s' ∨ b.Takes s s' := by
  constructor
  · rintro ⟨hc, rfl⟩
    rcases (h.enabled s).1 hc with ha | hb
    · exact .inl ⟨ha, h.left s ha⟩
    · exact .inr ⟨hb, h.right s hb⟩
  · rintro (⟨ha, rfl⟩ | ⟨hb, rfl⟩)
    · exact ⟨(h.enabled s).2 (.inl ha), (h.left s ha).symm⟩
    · exact ⟨(h.enabled s).2 (.inr hb), (h.right s hb).symm⟩

theorem isUnion_of_takes {a b c : RbpaRule} (hports : c.port = a.port ∧ c.port = b.port)
    (h : ∀ s s', c.Takes s s' ↔ a.Takes s s' ∨ b.Takes s s') : IsUnion a b c := by
  have hleft : ∀ s, a.guard.Agrees s → c.Takes s (overwrite s a.assign) :=
    fun s ha => (h s _).2 (.inl ⟨ha, rfl⟩)
  have hright : ∀ s, b.guard.Agrees s → c.Takes s (overwrite s b.assign) :=
    fun s hb => (h s _).2 (.inr ⟨hb, rfl⟩)
  refine ⟨hports, fun s => ?_, fun s ha => (hleft s ha).2.symm, fun s hb => (hright s hb).2.symm⟩
  constructor
  · intro hc
    rcases (h s _).1 ⟨hc, rfl⟩ with ha | hb
    · exact .inl ha.1
    · exact .inr hb.1
  · rintro (ha | hb)
    · exact (hleft s ha).1
    · exact (hright s hb).1

/-- A fusion is the union of the two rules if and only if nothing they assign
is lost. -/
theorem isUnion_iff_fuseKeeps {a b c : RbpaRule} (hc : a.fuse b = some c) :
    IsUnion a b c ↔ FuseKeeps a b := by
  obtain ⟨hleft, hboth⟩ := port_of_fuse hc
  rw [← fuse_exact_iff hc]
  exact ⟨fun h => h.takes, isUnion_of_takes ⟨hleft, hleft.trans hboth⟩⟩

/-- Port 1 fills cell 0. -/
def fillsAt : RbpaRule := { fills with port := some 1 }

/-- Seen from the rule that fills the cell nothing is lost. -/
theorem isUnion_fillsAt_finds : ∃ c, fillsAt.fuse finds = some c ∧ IsUnion fillsAt finds c := by
  obtain ⟨c, hc⟩ := Option.isSome_iff_exists.1
    (show (fillsAt.fuse finds).isSome = true by decide)
  exact ⟨c, hc, (isUnion_iff_fuseKeeps hc).2 (by decide)⟩

/-- Seen from the rule that finds it full the assignment is. -/
theorem not_isUnion_finds_fillsAt :
    ∃ c, finds.fuse fillsAt = some c ∧ ¬ IsUnion finds fillsAt c := by
  obtain ⟨c, hc⟩ := Option.isSome_iff_exists.1
    (show (finds.fuse fillsAt).isSome = true by decide)
  have hempty : ∀ c ∈ finds.fuse fillsAt, c.assign.lookup 0 = none := by decide
  refine ⟨c, hc, fun h => ?_⟩
  -- from the empty cell the second rule leads to the full one; the fusion leaves it empty
  have hcell := congrFun (h.right (fun _ => false) (by decide)) 0
  rw [overwrite, hempty c hc] at hcell
  cases hcell

end RbpaRule

end ReoRs
