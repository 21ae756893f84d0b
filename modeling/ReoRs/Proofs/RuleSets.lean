import ReoRs.Proto.Builder

/-!
# The actions of a rule, compiled

The compiler of rules keeps four bit sets per rule and updates them location
by location: set, overwrite, and for a cell that puts to itself, undo. The
invariant that survives every one of these steps is `RuleSets.Describes`: the
sets say, of the actions gone through so far, what the finished sets are to
say of the whole rule. An action under construction counts as the action with
the getters it has so far, so the putter and each getter are one step each.
-/

namespace ReoRs

variable {D : Type}

/-! ## Rules as their author means them -/

def ActionDef.mentions (a : ActionDef) (l : LocId) : Prop := l = a.putter ∨ l ∈ a.getters

/-- The location takes part in one of the actions. -/
def involved (actions : List ActionDef) (l : LocId) : Prop := ∃ a ∈ actions, a.mentions l

/-- The location is putter and getter of one action. -/
def putsToItself (actions : List ActionDef) (l : LocId) : Prop :=
  ∃ a ∈ actions, l = a.putter ∧ l ∈ a.getters

def isMemLoc (locKinds : HashMap LocId LocKind) (l : LocId) : Bool :=
  (locKinds.lookup l).any LocKind.isMem

/-- The rules `build_rules` is to accept, `typeAt` being the types of the
locations. -/
structure WellFormedRule (locKinds : HashMap LocId LocKind) (typeAt : LocId → Option TypeId)
    (actions : List ActionDef) : Prop where
  putters : ∀ a ∈ actions, ∃ k, locKinds.lookup a.putter = some k ∧ k.canPut = true
  getters : ∀ a ∈ actions, ∀ g ∈ a.getters, ∃ k, locKinds.lookup g = some k ∧
    k.canGet = true ∧ typeAt g = typeAt a.putter
  selfPut : ∀ a ∈ actions, a.putter ∈ a.getters → isMemLoc locKinds a.putter = true
  apart : actions.Pairwise fun a b => ∀ l, ¬ (a.mentions l ∧ b.mentions l)

/-- What the sets of a rule are to hold, read through `BitSet::test`. -/
structure RuleSets.Describes (locKinds : HashMap LocId LocKind) (s : RuleSets)
    (actions : List ActionDef) : Prop where
  ready : ∀ l, s.guardReady.test l = true ↔ involved actions l
  full : ∀ l, s.guardFull.test l = true ↔
    isMemLoc locKinds l = true ∧ ∃ a ∈ actions, l = a.putter
  mask : ∀ l, s.assignMask.test l = true ↔
    isMemLoc locKinds l = true ∧ involved actions l ∧ ¬ putsToItself actions l
  vals : ∀ l, s.assignVals.test l = true ↔
    isMemLoc locKinds l = true ∧ (∃ a ∈ actions, l ∈ a.getters) ∧ ¬ putsToItself actions l

/-- The run-time form of an action: its getters without repetition, by
kind. -/
def encodeAction (locKinds : HashMap LocId LocKind) (p : LocId) (getters : List LocId) :
    RunAction where
  putter := p
  mg := getters.filter (isMemLoc locKinds)
  pg := getters.filter fun g => !isMemLoc locKinds g

section

variable {locKinds : HashMap LocId LocKind} {id2TypeId : HashMap LocId TypeId}

theorem isMemLoc_of_lookup {l : LocId} {k : LocKind} (h : locKinds.lookup l = some k) :
    isMemLoc locKinds l = k.isMem := by
  rw [isMemLoc, h, Option.any_some]

/-! ## The sets, one location at a time -/

theorem describes_empty : RuleSets.empty.Describes locKinds [] where
  ready := by simp [RuleSets.empty, involved]
  full := by simp [RuleSets.empty]
  mask := by simp [RuleSets.empty, involved]
  vals := by simp [RuleSets.empty]

theorem involved_append {xs ys : List ActionDef} {l : LocId} :
    involved (xs ++ ys) l ↔ involved xs l ∨ involved ys l := by
  simp only [involved, List.mem_append, or_and_right, exists_or]

theorem putsToItself_append {xs ys : List ActionDef} {l : LocId} :
    putsToItself (xs ++ ys) l ↔ putsToItself xs l ∨ putsToItself ys l := by
  simp only [putsToItself, List.mem_append, or_and_right, exists_or]

theorem involved_singleton {p l : LocId} {gs : List LocId} :
    involved [⟨p, gs⟩] l ↔ l = p ∨ l ∈ gs := by
  simp [involved, ActionDef.mentions]

theorem putsToItself_singleton {p l : LocId} {gs : List LocId} :
    putsToItself [⟨p, gs⟩] l ↔ l = p ∧ l ∈ gs := by
  simp [putsToItself]

theorem involved_of_putsToItself {xs : List ActionDef} {l : LocId} (h : putsToItself xs l) :
    involved xs l := by
  obtain ⟨a, ha, hp, -⟩ := h
  exact ⟨a, ha, .inl hp⟩

/-- The putter of the next action. -/
theorem RuleSets.Describes.putter {s : RuleSets} {acts : List ActionDef} {p : LocId}
    (hs : s.Describes locKinds acts) (hfree : ¬ involved acts p) :
    ((if isMemLoc locKinds p then s.putterBits p else s).setReady p).Describes locKinds
      (acts ++ [⟨p, []⟩]) := by
  have hself : ∀ l, putsToItself (acts ++ [⟨p, []⟩]) l ↔ putsToItself acts l := by
    intro l
    rw [putsToItself_append, putsToItself_singleton]
    simp
  have hinv : ∀ l, involved (acts ++ [⟨p, []⟩]) l ↔ involved acts l ∨ l = p := by
    intro l
    rw [involved_append, involved_singleton]
    simp
  have hnself : ¬ putsToItself acts p := fun h => hfree (involved_of_putsToItself h)
  have hnget : ¬ ∃ a ∈ acts, p ∈ a.getters := fun ⟨a, ha, hg⟩ => hfree ⟨a, ha, .inr hg⟩
  refine ⟨?_, ?_, ?_, ?_⟩
  · intro l
    rw [hinv, RuleSets.setReady, BitSet.test_setTo]
    by_cases hl : l = p
    · simp [hl]
    · simp only [hl, if_false, or_false]
      rw [← hs.ready l]
      split <;> rfl
  · intro l
    have hex : (∃ a ∈ acts ++ [⟨p, []⟩], l = a.putter) ↔
        (∃ a ∈ acts, l = a.putter) ∨ l = p := by simp [or_and_right, exists_or]
    rw [hex]
    by_cases hm : isMemLoc locKinds p = true
    · rw [if_pos hm]
      show (s.guardFull.setTo p true).1.test l = true ↔ _
      rw [BitSet.test_setTo]
      by_cases hl : l = p
      · simp [hl, hm]
      · simpa [hl] using hs.full l
    · rw [if_neg hm]
      show s.guardFull.test l = true ↔ _
      rw [hs.full l]
      by_cases hl : l = p
      · simp [hl, hm]
      · simp [hl]
  · intro l
    rw [hinv, hself]
    by_cases hm : isMemLoc locKinds p = true
    · rw [if_pos hm]
      show (s.assignMask.setTo p true).1.test l = true ↔ _
      rw [BitSet.test_setTo]
      by_cases hl : l = p
      · simp [hl, hm, hnself]
      · simpa [hl] using hs.mask l
    · rw [if_neg hm]
      show s.assignMask.test l = true ↔ _
      rw [hs.mask l]
      by_cases hl : l = p
      · simp [hl, hm]
      · simp [hl]
  · intro l
    have hex : (∃ a ∈ acts ++ [⟨p, []⟩], l ∈ a.getters) ↔ ∃ a ∈ acts, l ∈ a.getters := by
      simp [or_and_right, exists_or]
    rw [hex, hself]
    by_cases hm : isMemLoc locKinds p = true
    · rw [if_pos hm]
      show (s.assignVals.setTo p false).1.test l = true ↔ _
      rw [BitSet.test_setTo]
      by_cases hl : l = p
      · subst hl
        simp only [if_true]
        constructor
        · intro h
          cases h
        · exact fun h => absurd h.2.1 hnget
      · simpa [hl] using hs.vals l
    · rw [if_neg hm]
      exact hs.vals l

/-- A getter of the action under construction that is not involved yet. -/
theorem RuleSets.Describes.getter {s : RuleSets} {acts : List ActionDef} {p g : LocId}
    {done : List LocId} (hs : s.Describes locKinds (acts ++ [⟨p, done⟩]))
    (hfree : ¬ involved acts g) (hgp : g ≠ p) :
    ((if isMemLoc locKinds g then s.getterBits g else s).setReady g).Describes locKinds
      (acts ++ [⟨p, done ++ [g]⟩]) := by
  have hself : ∀ l, putsToItself (acts ++ [⟨p, done ++ [g]⟩]) l ↔
      putsToItself (acts ++ [⟨p, done⟩]) l := by
    intro l
    simp only [putsToItself_append, putsToItself_singleton, List.mem_append, List.mem_singleton]
    constructor
    · rintro (h | ⟨hp, hd | hg⟩)
      · exact .inl h
      · exact .inr ⟨hp, hd⟩
      · exact absurd (hg.symm.trans hp) hgp
    · exact fun h => h.imp id fun ⟨hp, hd⟩ => ⟨hp, .inl hd⟩
  have hinv : ∀ l, involved (acts ++ [⟨p, done ++ [g]⟩]) l ↔
      involved (acts ++ [⟨p, done⟩]) l ∨ l = g := by
    intro l
    simp only [involved_append, involved_singleton, List.mem_append, List.mem_singleton]
    tauto
  have hnself : ¬ putsToItself (acts ++ [⟨p, done⟩]) g := by
    rw [putsToItself_append, putsToItself_singleton]
    rintro (h | ⟨h, -⟩)
    · exact hfree (involved_of_putsToItself h)
    · exact hgp h
  refine ⟨?_, ?_, ?_, ?_⟩
  · intro l
    rw [hinv, RuleSets.setReady, BitSet.test_setTo]
    by_cases hl : l = g
    · simp [hl]
    · simp only [hl, if_false, or_false]
      rw [← hs.ready l]
      split <;> rfl
  · intro l
    have hex : (∃ a ∈ acts ++ [⟨p, done ++ [g]⟩], l = a.putter) ↔
        ∃ a ∈ acts ++ [⟨p, done⟩], l = a.putter := by simp [or_and_right, exists_or]
    have hnput : ¬ ∃ a ∈ acts ++ [⟨p, done⟩], g = a.putter := by
      rintro ⟨a, ha, hga⟩
      rcases List.mem_append.1 ha with ha | ha
      · exact hfree ⟨a, ha, .inl hga⟩
      · obtain rfl := List.mem_singleton.1 ha
        exact hgp hga
    rw [hex]
    by_cases hm : isMemLoc locKinds g = true
    · rw [if_pos hm]
      show (s.guardFull.setTo g false).1.test l = true ↔ _
      rw [BitSet.test_setTo]
      by_cases hl : l = g
      · subst hl
        simp only [if_true]
        constructor
        · intro h
          cases h
        · exact fun h => absurd h.2 hnput
      · rw [if_neg hl]
        exact hs.full l
    · rw [if_neg hm]
      exact hs.full l
  · intro l
    rw [hinv, hself]
    by_cases hm : isMemLoc locKinds g = true
    · rw [if_pos hm]
      show (s.assignMask.setTo g true).1.test l = true ↔ _
      rw [BitSet.test_setTo]
      by_cases hl : l = g
      · simp [hl, hm, hnself]
      · simpa [hl] using hs.mask l
    · rw [if_neg hm]
      show s.assignMask.test l = true ↔ _
      rw [hs.mask l]
      by_cases hl : l = g
      · simp [hl, hm]
      · simp [hl]
  · intro l
    have hex : (∃ a ∈ acts ++ [⟨p, done ++ [g]⟩], l ∈ a.getters) ↔
        (∃ a ∈ acts ++ [⟨p, done⟩], l ∈ a.getters) ∨ l = g := by
      simp only [List.mem_append, List.mem_singleton, or_and_right, exists_or, exists_eq_left]
      exact or_assoc.symm
    rw [hex, hself]
    by_cases hm : isMemLoc locKinds g = true
    · rw [if_pos hm]
      show (s.assignVals.setTo g true).1.test l = true ↔ _
      rw [BitSet.test_setTo]
      by_cases hl : l = g
      · simp [hl, hm, hnself]
      · simpa [hl] using hs.vals l
    · rw [if_neg hm]
      show s.assignVals.test l = true ↔ _
      rw [hs.vals l]
      by_cases hl : l = g
      · simp [hl, hm]
      · simp [hl]

/-- A memory putter that turns out to be a getter of its own action. -/
theorem RuleSets.Describes.selfPut {s : RuleSets} {acts : List ActionDef} {p : LocId}
    {done : List LocId} (hs : s.Describes locKinds (acts ++ [⟨p, done⟩]))
    (hmem : isMemLoc locKinds p = true) :
    (((s.getterBits p).setReady p).selfPutBits p).Describes locKinds
      (acts ++ [⟨p, done ++ [p]⟩]) := by
  have hself : ∀ l, putsToItself (acts ++ [⟨p, done ++ [p]⟩]) l ↔
      putsToItself (acts ++ [⟨p, done⟩]) l ∨ l = p := by
    intro l
    simp only [putsToItself_append, putsToItself_singleton, List.mem_append, List.mem_singleton]
    tauto
  have hinv : ∀ l, involved (acts ++ [⟨p, done ++ [p]⟩]) l ↔
      involved (acts ++ [⟨p, done⟩]) l := by
    intro l
    simp only [involved_append, involved_singleton, List.mem_append, List.mem_singleton]
    tauto
  have hin : involved (acts ++ [⟨p, done⟩]) p := by
    rw [involved_append, involved_singleton]
    exact .inr (.inl rfl)
  refine ⟨?_, ?_, ?_, ?_⟩
  · intro l
    show (s.guardReady.setTo p true).1.test l = true ↔ _
    rw [hinv, BitSet.test_setTo]
    by_cases hl : l = p
    · simp [hl, hin]
    · rw [if_neg hl]
      exact hs.ready l
  · intro l
    have hex : (∃ a ∈ acts ++ [⟨p, done ++ [p]⟩], l = a.putter) ↔
        ∃ a ∈ acts ++ [⟨p, done⟩], l = a.putter := by simp [or_and_right, exists_or]
    show ((s.guardFull.setTo p false).1.setTo p true).1.test l = true ↔ _
    rw [hex, BitSet.test_setTo, BitSet.test_setTo]
    by_cases hl : l = p
    · subst hl
      simp only [if_true, true_iff]
      exact ⟨hmem, ⟨l, done⟩, by simp, rfl⟩
    · rw [if_neg hl, if_neg hl]
      exact hs.full l
  · intro l
    show ((s.assignMask.setTo p true).1.setTo p false).1.test l = true ↔ _
    rw [hself, hinv, BitSet.test_setTo, BitSet.test_setTo]
    by_cases hl : l = p
    · simp [hl]
    · rw [if_neg hl, if_neg hl, hs.mask l]
      simp [hl]
  · intro l
    have hex : (∃ a ∈ acts ++ [⟨p, done ++ [p]⟩], l ∈ a.getters) ↔
        (∃ a ∈ acts ++ [⟨p, done⟩], l ∈ a.getters) ∨ l = p := by
      simp only [List.mem_append, List.mem_singleton, or_and_right, exists_or, exists_eq_left]
      exact or_assoc.symm
    show ((s.assignVals.setTo p true).1.setTo p false).1.test l = true ↔ _
    rw [hex, hself, BitSet.test_setTo, BitSet.test_setTo]
    by_cases hl : l = p
    · simp [hl]
    · rw [if_neg hl, if_neg hl, hs.vals l]
      simp [hl]

/-! ## The getters of an action -/

/-- A getter that `build_rules` lets into an action of putter `p`, the
actions before it being `acts`. -/
structure GetterOk (locKinds : HashMap LocId LocKind) (id2TypeId : HashMap LocId TypeId)
    (acts : List ActionDef) (p g : LocId) : Prop where
  kind : ∃ k, locKinds.lookup g = some k ∧ k.canGet = true
  type : id2TypeId.lookup g = id2TypeId.lookup p
  free : ¬ involved acts g
  selfPut : g = p → isMemLoc locKinds p = true

theorem buildGetter_ok {acts : List ActionDef} {p g : LocId} {done : List LocId}
    {sets : RuleSets} {kp : LocKind} {tp : TypeId} (ruleId actionId : Nat)
    (hs : sets.Describes locKinds (acts ++ [⟨p, done⟩])) (hfresh : g ∉ done)
    (hp : locKinds.lookup p = some kp) (htp : id2TypeId.lookup p = some tp)
    (hok : GetterOk locKinds id2TypeId acts p g) :
    ∃ sets', buildGetter locKinds id2TypeId ruleId actionId p tp kp.isMem
        (sets, encodeAction locKinds p done) g =
          .ok (sets', encodeAction locKinds p (done ++ [g])) ∧
      sets'.Describes locKinds (acts ++ [⟨p, done ++ [g]⟩]) := by
  obtain ⟨kg, hg, hget⟩ := hok.kind
  have htg : id2TypeId.lookup g = some tp := hok.type.trans htp
  have hmem := isMemLoc_of_lookup hg
  have haction : (encodeAction locKinds p done).push g kg.isMem =
      encodeAction locKinds p (done ++ [g]) := by
    cases hk : kg.isMem <;> simp [RunAction.push, encodeAction, hmem, hk]
  by_cases hgp : g = p
  · subst hgp
    obtain rfl : kg = kp := Option.some.inj (hg.symm.trans hp)
    have hm : kg.isMem = true := hmem.symm.trans (hok.selfPut rfl)
    have hset : (sets.getterBits g).guardReady.test g = true :=
      (hs.ready g).2 (involved_append.2 (.inr (involved_singleton.2 (.inl rfl))))
    refine ⟨((sets.getterBits g).setReady g).selfPutBits g, ?_, hs.selfPut (hok.selfPut rfl)⟩
    rw [hm] at haction
    simp [buildGetter, kindOf, typeOf, hg, htg, hget, hm, hset, haction, bind, Except.bind, pure,
      Except.pure]
  · have hready : sets.guardReady.test g = false := by
      by_contra h
      simp only [Bool.not_eq_false] at h
      rcases involved_append.1 ((hs.ready g).1 h) with h | h
      · exact hok.free h
      · rcases involved_singleton.1 h with h | h
        · exact hgp h
        · exact hfresh h
    have hset : (if kg.isMem then sets.getterBits g else sets).guardReady.test g = false := by
      split
      · exact hready
      · exact hready
    refine ⟨(if kg.isMem then sets.getterBits g else sets).setReady g, ?_, ?_⟩
    · simp only [buildGetter, kindOf, typeOf, hg, htg, hget, hset, bind, Except.bind, pure,
        Except.pure]
      simp [haction]
    · rw [← hmem]
      exact hs.getter hok.free hgp

theorem getterOk_of_buildGetter {acts : List ActionDef} {p g : LocId} {done : List LocId}
    {sets : RuleSets} {action : RunAction} {kp : LocKind} {tp : TypeId} {ruleId actionId : Nat}
    {st : RuleSets × RunAction} (hs : sets.Describes locKinds (acts ++ [⟨p, done⟩]))
    (hp : locKinds.lookup p = some kp) (htp : id2TypeId.lookup p = some tp)
    (hnp : ¬ involved acts p)
    (h : buildGetter locKinds id2TypeId ruleId actionId p tp kp.isMem (sets, action) g = .ok st) :
    GetterOk locKinds id2TypeId acts p g := by
  have hmemp := isMemLoc_of_lookup hp
  cases hg : locKinds.lookup g with
  | none => simp [buildGetter, kindOf, hg, bind, Except.bind] at h
  | some kg =>
      cases htg : id2TypeId.lookup g with
      | none => simp [buildGetter, kindOf, typeOf, hg, htg, bind, Except.bind] at h
      | some tg =>
          simp only [buildGetter, kindOf, typeOf, hg, htg, bind, Except.bind] at h
          by_cases ht : tp = tg
          · by_cases hget : kg.canGet = true
            · simp only [ht, hget] at h
              have hready : ∀ b : Bool, (if b then sets.getterBits g else sets).guardReady.test g =
                  sets.guardReady.test g := by
                intro b
                cases b <;> rfl
              refine ⟨⟨kg, hg, hget⟩, by rw [htg, htp, ht], ?_, ?_⟩
              · intro hinv
                have hset : sets.guardReady.test g = true :=
                  (hs.ready g).2 (involved_append.2 (.inl hinv))
                have hne : g ≠ p := by
                  rintro rfl
                  exact hnp hinv
                simp [hready, hset, hne] at h
              · intro hgp
                have hset : sets.guardReady.test g = true :=
                  (hs.ready g).2 (involved_append.2 (.inr (involved_singleton.2 (.inl hgp))))
                rw [hmemp]
                by_contra hm
                simp [hready, hset, hm] at h
            · simp [ht, hget, throw, throwThe, MonadExceptOf.throw] at h
          · simp [ht, throw, throwThe, MonadExceptOf.throw] at h

/-- The loop over the getters. -/
theorem buildGetters_iff {acts : List ActionDef} {p : LocId} {kp : LocKind} {tp : TypeId}
    (ruleId actionId : Nat) (hp : locKinds.lookup p = some kp)
    (htp : id2TypeId.lookup p = some tp) (hnp : ¬ involved acts p) :
    ∀ (gs : List LocId) {done : List LocId} {sets : RuleSets},
      sets.Describes locKinds (acts ++ [⟨p, done⟩]) → (done ++ gs).Nodup →
      ((∃ st, gs.foldlM (buildGetter locKinds id2TypeId ruleId actionId p tp kp.isMem)
          (sets, encodeAction locKinds p done) = .ok st) ↔
        ∀ g ∈ gs, GetterOk locKinds id2TypeId acts p g) ∧
      ∀ st, gs.foldlM (buildGetter locKinds id2TypeId ruleId actionId p tp kp.isMem)
          (sets, encodeAction locKinds p done) = .ok st →
        st.2 = encodeAction locKinds p (done ++ gs) ∧
          st.1.Describes locKinds (acts ++ [⟨p, done ++ gs⟩]) := by
  intro gs
  induction gs with
  | nil =>
      intro done sets hs _
      refine ⟨by simp [pure, Except.pure], ?_⟩
      intro st hst
      cases hst
      rw [List.append_nil]
      exact ⟨rfl, hs⟩
  | cons g gs ih =>
      intro done sets hs hnd
      have hfresh : g ∉ done := by
        intro hg
        exact List.disjoint_of_nodup_append hnd hg List.mem_cons_self
      have hnd' : ((done ++ [g]) ++ gs).Nodup := by simpa using hnd
      by_cases hok : GetterOk locKinds id2TypeId acts p g
      · obtain ⟨sets', hrun, hs'⟩ := buildGetter_ok ruleId actionId hs hfresh hp htp hok
        obtain ⟨hiff, hres⟩ := ih hs' hnd'
        simp only [List.foldlM_cons, hrun, bind, Except.bind]
        refine ⟨?_, ?_⟩
        · rw [hiff]
          simp [hok]
        · intro st hst
          obtain ⟨h₂, h₁⟩ := hres st hst
          rw [List.append_assoc] at h₁ h₂
          exact ⟨h₂, h₁⟩
      · have hno : ∀ st, (g :: gs).foldlM
            (buildGetter locKinds id2TypeId ruleId actionId p tp kp.isMem)
            (sets, encodeAction locKinds p done) ≠ .ok st := by
          intro st hst
          rw [List.foldlM_cons] at hst
          cases hrun : buildGetter locKinds id2TypeId ruleId actionId p tp kp.isMem
              (sets, encodeAction locKinds p done) g with
          | error e =>
              rw [hrun] at hst
              cases hst
          | ok st' => exact hok (getterOk_of_buildGetter hs hp htp hnp hrun)
        refine ⟨⟨fun ⟨st, hst⟩ => absurd hst (hno st), ?_⟩, fun st hst => absurd hst (hno st)⟩
        intro hall
        exact absurd (hall g List.mem_cons_self) hok

/-! ## The actions of a rule -/

theorem nodup_eraseDups (xs : List LocId) : xs.eraseDups.Nodup := by
  induction hn : xs.length using Nat.strongRecOn generalizing xs with
  | _ n ih =>
      cases xs with
      | nil => simp
      | cons x xs =>
          rw [List.eraseDups_cons, List.nodup_cons]
          constructor
          · simp
          · have hlt : (xs.filter fun b => !b == x).length < n := by
              have := List.length_filter_le (fun b => !b == x) xs
              simp only [List.length_cons] at hn
              omega
            exact ih _ hlt _ rfl

/-- Repeating a getter changes nothing the sets say. -/
theorem RuleSets.Describes.of_eraseDups {s : RuleSets} {acts : List ActionDef} {a : ActionDef}
    (hs : s.Describes locKinds (acts ++ [⟨a.putter, a.getters.eraseDups⟩])) :
    s.Describes locKinds (acts ++ [a]) := by
  obtain ⟨p, gs⟩ := a
  have hinv : ∀ l, involved (acts ++ [⟨p, gs⟩]) l ↔
      involved (acts ++ [⟨p, gs.eraseDups⟩]) l := by
    intro l
    simp only [involved_append, involved_singleton, List.mem_eraseDups]
  have hself : ∀ l, putsToItself (acts ++ [⟨p, gs⟩]) l ↔
      putsToItself (acts ++ [⟨p, gs.eraseDups⟩]) l := by
    intro l
    simp only [putsToItself_append, putsToItself_singleton, List.mem_eraseDups]
  have hget : ∀ l, (∃ a ∈ acts ++ [⟨p, gs⟩], l ∈ a.getters) ↔
      ∃ a ∈ acts ++ [⟨p, gs.eraseDups⟩], l ∈ a.getters := by
    intro l
    simp [or_and_right, exists_or]
  have hput : ∀ l, (∃ a ∈ acts ++ [⟨p, gs⟩], l = a.putter) ↔
      ∃ a ∈ acts ++ [⟨p, gs.eraseDups⟩], l = a.putter := by
    intro l
    simp [or_and_right, exists_or]
  refine ⟨?_, ?_, ?_, ?_⟩
  · intro l
    rw [hinv, hs.ready]
  · intro l
    rw [hput, hs.full]
  · intro l
    rw [hinv, hself, hs.mask]
  · intro l
    rw [hget, hself, hs.vals]

/-- An action that `build_rules` lets follow `acts` in a rule. -/
structure ActionOk (locKinds : HashMap LocId LocKind) (id2TypeId : HashMap LocId TypeId)
    (acts : List ActionDef) (a : ActionDef) : Prop where
  kind : ∃ k, locKinds.lookup a.putter = some k ∧ k.canPut = true
  free : ¬ involved acts a.putter
  getters : ∀ g ∈ a.getters, GetterOk locKinds id2TypeId acts a.putter g

/-- The type map knows every location of the definition. -/
def TypesDefined (locKinds : HashMap LocId LocKind) (id2TypeId : HashMap LocId TypeId) : Prop :=
  ∀ l k, locKinds.lookup l = some k → ∃ t, id2TypeId.lookup l = some t

theorem buildAction_iff (htypes : TypesDefined locKinds id2TypeId) {acts : List ActionDef}
    (a : ActionDef) (n ruleId : Nat) {sets : RuleSets} (runs : List RunAction)
    (hs : sets.Describes locKinds acts) :
    ((∃ st, buildAction locKinds id2TypeId ruleId (sets, runs) (a, n) = .ok st) ↔
        ActionOk locKinds id2TypeId acts a) ∧
      ∀ st, buildAction locKinds id2TypeId ruleId (sets, runs) (a, n) = .ok st →
        st.2 = runs ++ [encodeAction locKinds a.putter a.getters.eraseDups] ∧
          st.1.Describes locKinds (acts ++ [a]) := by
  -- what the checks before the loop over the getters amount to
  by_cases hpre : (∃ k, locKinds.lookup a.putter = some k ∧ k.canPut = true) ∧
      ¬ involved acts a.putter
  · obtain ⟨⟨k, hk, hput⟩, hfree⟩ := hpre
    obtain ⟨t, ht⟩ := htypes _ _ hk
    have hnotset : sets.guardReady.test a.putter = false := by
      by_contra h
      exact hfree ((hs.ready _).1 (by simpa using h))
    have hnotset' : (if k.isMem then sets.putterBits a.putter else sets).guardReady.test
        a.putter = false := by
      split
      · exact hnotset
      · exact hnotset
    have hdesc : ((if k.isMem then sets.putterBits a.putter else sets).setReady
        a.putter).Describes locKinds (acts ++ [⟨a.putter, []⟩]) := by
      rw [← isMemLoc_of_lookup hk]
      exact hs.putter hfree
    obtain ⟨hiff, hres⟩ := buildGetters_iff ruleId n hk ht hfree a.getters.eraseDups hdesc
      (nodup_eraseDups a.getters)
    have hempty : (⟨a.putter, [], []⟩ : RunAction) = encodeAction locKinds a.putter [] := rfl
    have hrun : buildAction locKinds id2TypeId ruleId (sets, runs) (a, n) =
        (a.getters.eraseDups.foldlM
          (buildGetter locKinds id2TypeId ruleId n a.putter t k.isMem)
          ((if k.isMem then sets.putterBits a.putter else sets).setReady a.putter,
            encodeAction locKinds a.putter [])).bind
          fun st => .ok (st.1, runs ++ [st.2]) := by
      simp only [buildAction, kindOf, typeOf, hk, ht, hput, hnotset, hnotset', bind, Except.bind,
        pure, Except.pure, hempty]
      simp
    rw [hrun]
    refine ⟨?_, ?_⟩
    · constructor
      · rintro ⟨st, hst⟩
        cases hloop : a.getters.eraseDups.foldlM
            (buildGetter locKinds id2TypeId ruleId n a.putter t k.isMem)
            ((if k.isMem then sets.putterBits a.putter else sets).setReady a.putter,
              encodeAction locKinds a.putter []) with
        | error e =>
            rw [hloop] at hst
            cases hst
        | ok st' =>
            have hall := hiff.1 ⟨st', hloop⟩
            exact ⟨⟨k, hk, hput⟩, hfree, fun g hg => hall g (List.mem_eraseDups.2 hg)⟩
      · rintro ⟨-, -, hgetters⟩
        obtain ⟨st, hst⟩ := hiff.2 fun g hg => hgetters g (List.mem_eraseDups.1 hg)
        rw [hst]
        exact ⟨_, rfl⟩
    · intro st hst
      cases hloop : a.getters.eraseDups.foldlM
          (buildGetter locKinds id2TypeId ruleId n a.putter t k.isMem)
          ((if k.isMem then sets.putterBits a.putter else sets).setReady a.putter,
            encodeAction locKinds a.putter []) with
      | error e =>
          rw [hloop] at hst
          cases hst
      | ok st' =>
          obtain ⟨haction, hd⟩ := hres st' hloop
          rw [hloop] at hst
          cases hst
          exact ⟨by rw [haction]; rfl, hd.of_eraseDups⟩
  · have hno : ∀ st, buildAction locKinds id2TypeId ruleId (sets, runs) (a, n) ≠ .ok st := by
      intro st hst
      apply hpre
      cases hk : locKinds.lookup a.putter with
      | none => simp [buildAction, kindOf, hk, bind, Except.bind] at hst
      | some k =>
          obtain ⟨t, ht⟩ := htypes _ _ hk
          simp only [buildAction, kindOf, typeOf, hk, ht, bind, Except.bind] at hst
          by_cases hput : k.canPut = true
          · refine ⟨⟨k, rfl, hput⟩, ?_⟩
            intro hinv
            have hset := (hs.ready _).2 hinv
            simp [hput, hset, throw, throwThe, MonadExceptOf.throw] at hst
          · simp [hput, throw, throwThe, MonadExceptOf.throw] at hst
    refine ⟨⟨fun ⟨st, hst⟩ => absurd hst (hno st), ?_⟩, fun st hst => absurd hst (hno st)⟩
    intro hok
    exact absurd ⟨hok.kind, hok.free⟩ hpre

/-- The actions `rest` may follow the actions `acts` in a rule. -/
def ActionsOk (locKinds : HashMap LocId LocKind) (id2TypeId : HashMap LocId TypeId) :
    List ActionDef → List ActionDef → Prop
  | _, [] => True
  | acts, a :: rest =>
      ActionOk locKinds id2TypeId acts a ∧ ActionsOk locKinds id2TypeId (acts ++ [a]) rest

theorem buildActions_loop (htypes : TypesDefined locKinds id2TypeId) (ruleId : Nat) :
    ∀ (rest : List ActionDef) (n : Nat) (runs : List RunAction) {acts : List ActionDef}
      {sets : RuleSets},
      sets.Describes locKinds acts →
      ((∃ st, (rest.zipIdx n).foldlM (buildAction locKinds id2TypeId ruleId) (sets, runs) =
          .ok st) ↔ ActionsOk locKinds id2TypeId acts rest) ∧
      ∀ st, (rest.zipIdx n).foldlM (buildAction locKinds id2TypeId ruleId) (sets, runs) =
          .ok st →
        st.2 = runs ++ rest.map (fun a => encodeAction locKinds a.putter a.getters.eraseDups) ∧
          st.1.Describes locKinds (acts ++ rest) := by
  intro rest
  induction rest with
  | nil =>
      intro n runs acts sets hs
      refine ⟨by simp [ActionsOk, pure, Except.pure], ?_⟩
      intro st hst
      cases hst
      simpa using hs
  | cons a rest ih =>
      intro n runs acts sets hs
      obtain ⟨hiff, hres⟩ := buildAction_iff htypes a n ruleId runs hs
      rw [List.zipIdx_cons, List.foldlM_cons]
      cases hrun : buildAction locKinds id2TypeId ruleId (sets, runs) (a, n) with
      | error e =>
          refine ⟨⟨?_, ?_⟩, ?_⟩
          · rintro ⟨st, hst⟩
            cases hst
          · rintro ⟨hok, -⟩
            obtain ⟨st, hst⟩ := hiff.2 hok
            rw [hrun] at hst
            cases hst
          · intro st hst
            cases hst
      | ok st' =>
          obtain ⟨hst₂, hst₁⟩ := hres st' hrun
          obtain ⟨sets', runs'⟩ := st'
          obtain ⟨hiff', hres'⟩ := ih (n + 1) runs' hst₁
          have hok := hiff.1 ⟨_, hrun⟩
          simp only [bind, Except.bind]
          refine ⟨?_, ?_⟩
          · rw [hiff', ActionsOk]
            exact ⟨fun h => ⟨hok, h⟩, fun h => h.2⟩
          · intro st hst
            obtain ⟨h₂, h₁⟩ := hres' st hst
            rw [show runs' = _ from hst₂, List.append_assoc] at h₂
            rw [List.append_assoc] at h₁
            exact ⟨h₂, h₁⟩

/-- The order of earlier actions in the checks comes out as a condition
without an order. -/
theorem actionsOk_iff {acts : List ActionDef} : ∀ {rest : List ActionDef},
    ActionsOk locKinds id2TypeId acts rest ↔
      WellFormedRule locKinds (id2TypeId.lookup ·) rest ∧
        ∀ a ∈ rest, ∀ l, a.mentions l → ¬ involved acts l := by
  intro rest
  induction rest generalizing acts with
  | nil =>
      simp only [ActionsOk, List.not_mem_nil, false_imp_iff, implies_true, and_true, true_iff]
      exact ⟨by simp, by simp, by simp, .nil⟩
  | cons a rest ih =>
      rw [ActionsOk, ih]
      constructor
      · rintro ⟨hok, hwf, hfree⟩
        refine ⟨⟨?_, ?_, ?_, ?_⟩, ?_⟩
        · intro b hb
          rcases List.mem_cons.1 hb with rfl | hb
          · exact hok.kind
          · exact hwf.putters b hb
        · intro b hb g hg
          rcases List.mem_cons.1 hb with rfl | hb
          · obtain ⟨k, hk, hget⟩ := (hok.getters g hg).kind
            exact ⟨k, hk, hget, (hok.getters g hg).type⟩
          · exact hwf.getters b hb g hg
        · intro b hb hself
          rcases List.mem_cons.1 hb with rfl | hb
          · exact (hok.getters _ hself).selfPut rfl
          · exact hwf.selfPut b hb hself
        · refine List.pairwise_cons.2 ⟨?_, hwf.apart⟩
          intro b hb l ⟨hal, hbl⟩
          exact hfree b hb l hbl (involved_append.2 (.inr ⟨a, List.mem_singleton.2 rfl, hal⟩))
        · intro b hb l hl
          rcases List.mem_cons.1 hb with rfl | hb
          · rcases hl with rfl | hl
            · exact hok.free
            · exact (hok.getters l hl).free
          · exact fun hinv => hfree b hb l hl (involved_append.2 (.inl hinv))
      · rintro ⟨hwf, hfree⟩
        obtain ⟨hapart, hrest⟩ := List.pairwise_cons.1 hwf.apart
        refine ⟨⟨?_, ?_, ?_⟩, ⟨?_, ?_, ?_, hrest⟩, ?_⟩
        · exact hwf.putters a List.mem_cons_self
        · exact hfree a List.mem_cons_self _ (.inl rfl)
        · intro g hg
          obtain ⟨k, hk, hget, hty⟩ := hwf.getters a List.mem_cons_self g hg
          refine ⟨⟨k, hk, hget⟩, hty, hfree a List.mem_cons_self g (.inr hg), ?_⟩
          rintro rfl
          exact hwf.selfPut a List.mem_cons_self hg
        · exact fun b hb => hwf.putters b (List.mem_cons_of_mem a hb)
        · exact fun b hb => hwf.getters b (List.mem_cons_of_mem a hb)
        · exact fun b hb => hwf.selfPut b (List.mem_cons_of_mem a hb)
        · intro b hb l hl hinv
          rcases involved_append.1 hinv with hinv | hinv
          · exact hfree b (List.mem_cons_of_mem a hb) l hl hinv
          · obtain ⟨c, hc, hcl⟩ := hinv
            obtain rfl := List.mem_singleton.1 hc
            exact hapart b hb l ⟨hcl, hl⟩

/-- What `build_rules` makes of the actions of one rule. -/
theorem buildActions_spec (htypes : TypesDefined locKinds id2TypeId) (ruleId : Nat)
    (actions : List ActionDef) :
    ((∃ st, buildActions locKinds id2TypeId ruleId actions = .ok st) ↔
        WellFormedRule locKinds (id2TypeId.lookup ·) actions) ∧
      ∀ st, buildActions locKinds id2TypeId ruleId actions = .ok st →
        st.2 = actions.map (fun a => encodeAction locKinds a.putter a.getters.eraseDups) ∧
          st.1.Describes locKinds actions := by
  obtain ⟨hiff, hres⟩ := buildActions_loop htypes ruleId actions 0 [] describes_empty
  refine ⟨?_, ?_⟩
  · refine hiff.trans (actionsOk_iff.trans ⟨fun h => h.1, fun h => ⟨h, ?_⟩⟩)
    rintro a - l - ⟨b, hb, -⟩
    cases hb
  · intro st hst
    simpa using hres st hst

end

end ReoRs
