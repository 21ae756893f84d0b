import ReoRs.Exchanges
import ReoRs.Lib.Commuting

/-!
# Sessions of the automaton

The automaton with threads that make the calls of a script, none of them
timed, and what the threads have been told. The threads are independent, and
what they can do to each other is to have calls ready for the same rule. Where
no two rules ever compete for a location, the steps of a session commute.

A rule sees of a cell what is in it and of a port what has been called there,
and of locations it does not involve nothing (`SameAt`). That is all that is
used of a firing. The steps of the automaton commute because of it, but for two
calls at one port (`Move.commute`); who makes the calls comes after that.
-/

namespace ReoRs

variable {D : Type}

namespace Automaton

variable {locKinds : HashMap LocId LocKind} {A B : Automaton D} {actions : List ActionDef}
  {l p : LocId}

/-! ## What a rule sees -/

def SameAt (locKinds : HashMap LocId LocKind) (A B : Automaton D) (l : LocId) : Prop :=
  if isMemLoc locKinds l then B.cells l = A.cells l else B.ports l = A.ports l

theorem SameAt.offered (h : SameAt locKinds A B l) :
    B.offered locKinds l = A.offered locKinds l := by
  rw [SameAt] at h
  rw [Automaton.offered, Automaton.offered]
  split at h
  · next hmem => rw [if_pos hmem, if_pos hmem, h]
  · next hmem => rw [if_neg hmem, if_neg hmem, h]

theorem SameAt.accepts (h : SameAt locKinds A B l) :
    B.Accepts locKinds l ↔ A.Accepts locKinds l := by
  rw [SameAt] at h
  rw [Automaton.Accepts, Automaton.Accepts]
  split at h
  · next hmem => rw [if_pos hmem, if_pos hmem, h]
  · next hmem => rw [if_neg hmem, if_neg hmem, h]

theorem SameAt.takes (h : SameAt locKinds A B l) : B.takes locKinds l = A.takes locKinds l := by
  rw [SameAt] at h
  rw [Automaton.takes, Automaton.takes]
  split at h
  · next hmem => rw [hmem, Bool.true_or, Bool.true_or]
  · next hmem => rw [h]

theorem sameAt_of_eq (hcells : B.cells l = A.cells l) (hports : B.ports l = A.ports l) :
    SameAt locKinds A B l := by
  rw [SameAt]
  split
  · exact hcells
  · exact hports

section

variable (h : ∀ l, involved actions l → SameAt locKinds A B l)
include h

theorem enabled_congr : B.Enabled locKinds actions ↔ A.Enabled locKinds actions := by
  refine forall₂_congr fun a ha => and_congr ?_ ?_
  · rw [(h a.putter ⟨a, ha, .inl rfl⟩).offered]
  · exact forall₂_congr fun g hg => (h g ⟨a, ha, .inr hg⟩).accepts

theorem fire_cells_congr (hl : B.cells l = A.cells l) :
    (B.fire locKinds actions).cells l = (A.fire locKinds actions).cells l := by
  simp only [fire]
  split
  · split
    · next a ha => exact (h a.putter ⟨a, List.mem_of_find?_eq_some ha, .inl rfl⟩).offered
    · rw [hl]
  · exact hl

theorem fire_ports_congr (hl : B.ports l = A.ports l) :
    (B.fire locKinds actions).ports l = (A.fire locKinds actions).ports l := by
  simp only [fire, hl]
  split
  · split
    · next a ha =>
        have hmem := List.mem_of_find?_eq_some ha
        have htakes : a.getters.any (B.takes locKinds) = a.getters.any (A.takes locKinds) := by
          rw [Bool.eq_iff_iff, List.any_eq_true, List.any_eq_true]
          refine exists_congr fun g => and_congr_right fun hg => ?_
          rw [(h g ⟨a, hmem, .inr hg⟩).takes]
        rw [htakes]
    · next a _ ha =>
        rw [(h a.putter ⟨a, List.mem_of_find?_eq_some ha, .inl rfl⟩).offered]
    · rfl
  · rfl
  · rfl

end

theorem ext_of (hcells : ∀ l, A.cells l = B.cells l) (hports : ∀ l, A.ports l = B.ports l) :
    A = B := by
  cases A
  cases B
  congr
  · exact funext hcells
  · exact funext hports

theorem sameAt_fire (locKinds : HashMap LocId LocKind) (A : Automaton D)
    (hl : ¬ involved actions l) :
    (A.fire locKinds actions).cells l = A.cells l ∧
      (A.fire locKinds actions).ports l = A.ports l :=
  ⟨fire_cells_other fun b hb hbl => hl ⟨b, hb, hbl⟩,
    fire_ports_other fun b hb hbl => hl ⟨b, hb, hbl⟩⟩

/-! ## Two firings -/

section Apart

variable {actions' : List ActionDef}

/-- A rule leaves what another sees. -/
theorem sameAt_of_apart (hapart : ∀ l, ¬ (involved actions l ∧ involved actions' l))
    (hl : involved actions' l) : SameAt locKinds A (A.fire locKinds actions) l := by
  obtain ⟨hcells, hports⟩ := sameAt_fire locKinds A fun hcon =>
    hapart l ⟨hcon, hl⟩
  exact sameAt_of_eq hcells hports

theorem fire_comm (hapart : ∀ l, ¬ (involved actions l ∧ involved actions' l)) :
    (A.fire locKinds actions).fire locKinds actions' =
      (A.fire locKinds actions').fire locKinds actions := by
  have hapart' : ∀ l, ¬ (involved actions' l ∧ involved actions l) :=
    fun l hl => hapart l hl.symm
  have hsee : ∀ l, involved actions' l → SameAt locKinds A (A.fire locKinds actions) l :=
    fun l => sameAt_of_apart hapart
  have hsee' : ∀ l, involved actions l → SameAt locKinds A (A.fire locKinds actions') l :=
    fun l => sameAt_of_apart hapart'
  have hboth : ∀ l,
      ((A.fire locKinds actions).fire locKinds actions').cells l =
        ((A.fire locKinds actions').fire locKinds actions).cells l ∧
      ((A.fire locKinds actions).fire locKinds actions').ports l =
        ((A.fire locKinds actions').fire locKinds actions).ports l := by
    intro l
    by_cases hl : involved actions l
    · have hl' : ¬ involved actions' l := fun hcon => hapart l ⟨hl, hcon⟩
      have hlast := sameAt_fire locKinds (A.fire locKinds actions) hl'
      have hfirst := sameAt_fire locKinds A hl'
      rw [hlast.1, hlast.2]
      exact ⟨(fire_cells_congr hsee' hfirst.1).symm, (fire_ports_congr hsee' hfirst.2).symm⟩
    · have hlast := sameAt_fire locKinds (A.fire locKinds actions') hl
      have hfirst := sameAt_fire locKinds A hl
      rw [hlast.1, hlast.2]
      exact ⟨fire_cells_congr hsee hfirst.1, fire_ports_congr hsee hfirst.2⟩
  exact ext_of (fun l => (hboth l).1) fun l => (hboth l).2

end Apart

/-- Calls are made at ports. -/
theorem isMemLoc_of_callable {c : PortCall D}
    (hkind : locKinds.lookup p = some (if c.datum.isSome then .portPutter else .portGetter)) :
    isMemLoc locKinds p = false := by
  rw [isMemLoc_of_lookup hkind]
  split <;> rfl

theorem fire_ports_settled {a : Answer D} (h : A.ports l = .settled a) :
    (A.fire locKinds actions).ports l = .settled a := by
  simp only [fire, h]

/-- The ports of a rule that is enabled have calls. -/
theorem exists_pending (henabled : A.Enabled locKinds actions) (hl : involved actions l)
    (hmem : isMemLoc locKinds l = false) : ∃ c, A.ports l = .pending c := by
  obtain ⟨a, ha, rfl | hg⟩ := hl
  · obtain ⟨c, -, hc, -⟩ := exists_of_offered hmem (henabled a ha).1
    exact ⟨c, hc⟩
  · obtain ⟨c, hc, -⟩ := (accepts_port hmem).1 ((henabled a ha).2 l hg)
    exact ⟨c, hc⟩

section Port

variable {x : PortState D}

/-- A rule that is enabled does not see a port without a pending call. -/
theorem sameAt_setPort (henabled : A.Enabled locKinds actions)
    (hnot : ∀ c, A.ports p ≠ .pending c) (hl : involved actions l) :
    SameAt locKinds A (A.setPort p x) l := by
  rw [SameAt]
  split
  · rfl
  · next hmem =>
      obtain ⟨c, hc⟩ := exists_pending henabled hl (Bool.eq_false_iff.2 hmem)
      refine setPort_ne x fun hlp => hnot c ?_
      rw [← hlp, hc]

theorem fire_setPort (hsee : ∀ l, involved actions l → SameAt locKinds A (A.setPort p x) l)
    (hself : ((A.setPort p x).fire locKinds actions).ports p = x) :
    (A.setPort p x).fire locKinds actions = (A.fire locKinds actions).setPort p x := by
  refine ext_of (fun l => fire_cells_congr hsee rfl) fun l => ?_
  by_cases hlp : l = p
  · rw [hlp, hself, setPort_self]
  · rw [setPort_ne x hlp]
    exact fire_ports_congr hsee (setPort_ne x hlp)

theorem setPort_comm {q : LocId} {y : PortState D} (hpq : p ≠ q) :
    (A.setPort p x).setPort q y = (A.setPort q y).setPort p x := by
  rw [setPort, setPort, setPort, setPort, Function.update_comm hpq]

end Port

end Automaton

/-! ## Protocols without conflicts -/

/-- The one rule takes from a cell that the other gives to. -/
def Contrary (locKinds : HashMap LocId LocKind) (r r' : RuleDef) : Prop :=
  ∃ l, isMemLoc locKinds l = true ∧ (∃ a ∈ r.actions, l = a.putter) ∧
    ∃ a ∈ r'.actions, l ∈ a.getters

/-- No rule has a guard, and no two rules compete: they have no location in
common, or disagree on a cell of the two. -/
structure ConflictFree (P : Proto D) : Prop where
  unguarded : ∀ r ∈ P.typelessProtoDef.behaviour.rules, r.guard = .true
  rules : P.typelessProtoDef.behaviour.rules.Pairwise fun r r' =>
    (∀ l, ¬ (involved r.actions l ∧ involved r'.actions l)) ∨
      Contrary P.typelessProtoDef.locKinds r r' ∨ Contrary P.typelessProtoDef.locKinds r' r

theorem Contrary.not_enabled {locKinds : HashMap LocId LocKind} {r r' : RuleDef}
    {A : Automaton D} (h : Contrary locKinds r r') (hr : A.Enabled locKinds r.actions)
    (hr' : A.Enabled locKinds r'.actions) : False := by
  obtain ⟨l, hmem, ⟨a, ha, rfl⟩, b, hb, hg⟩ := h
  have hfull := (hr a ha).1
  rw [Automaton.offered_cell hmem] at hfull
  exact hfull ((Automaton.accepts_cell hmem).1 ((hr' b hb).2 _ hg))

theorem ConflictFree.apart {P : Proto D} (h : ConflictFree P) {i j : RuleId} {r r' : RuleDef}
    {A : Automaton D} (hr : P.typelessProtoDef.behaviour.rules[i]? = some r)
    (hr' : P.typelessProtoDef.behaviour.rules[j]? = some r') (hij : i ≠ j)
    (hen : A.Enabled P.typelessProtoDef.locKinds r.actions)
    (hen' : A.Enabled P.typelessProtoDef.locKinds r'.actions) (l : LocId) :
    ¬ (involved r.actions l ∧ involved r'.actions l) := by
  obtain ⟨hi, rfl⟩ := List.getElem?_eq_some_iff.1 hr
  obtain ⟨hj, rfl⟩ := List.getElem?_eq_some_iff.1 hr'
  have hpairs := List.pairwise_iff_getElem.1 h.rules
  rcases Nat.lt_or_gt_of_ne hij with hlt | hlt
  · rcases hpairs i j hi hj hlt with hapart | hcon | hcon
    · exact hapart l
    · exact (hcon.not_enabled hen hen').elim
    · exact (hcon.not_enabled hen' hen).elim
  · rcases hpairs j i hj hi hlt with hapart | hcon | hcon
    · exact fun hl => hapart l hl.symm
    · exact (hcon.not_enabled hen' hen).elim
    · exact (hcon.not_enabled hen hen').elim

/-! ## Steps without timeouts -/

namespace Automaton

/-- The port an action is taken at. -/
def Act.port : Act D → Option LocId
  | .call p _ | .ret p _ => some p
  | .fire _ => none

/-- A step that the clock has no part in. -/
inductive Move (P : Proto D) (A : Automaton D) : Act D → Automaton D → Prop where
  | call {p : LocId} {c : PortCall D} (hidle : A.ports p = .idle)
      (hkind : P.typelessProtoDef.locKinds.lookup p =
        some (if c.datum.isSome then .portPutter else .portGetter)) :
      Move P A (.call p c) (A.setPort p (.pending c))
  | fire {i : RuleId} {r : RuleDef} (hr : P.typelessProtoDef.behaviour.rules[i]? = some r)
      (henabled : A.Enabled P.typelessProtoDef.locKinds r.actions) :
      Move P A (.fire i) (A.fire P.typelessProtoDef.locKinds r.actions)
  | ret {p : LocId} {a : Answer D} (hsettled : A.ports p = .settled a) :
      Move P A (.ret p a) (A.setPort p .idle)

section Moves

variable {P : Proto D} {A B C : Automaton D} {i j : RuleId} {p q : LocId} {a b : Act D}
  {x y : Answer D} {c d : PortCall D}

theorem Step.move (h : Step P A a B) (huntimed : ∀ p c, A.ports p = .pending c → c.timed = false) :
    Move P A a B := by
  cases h with
  | call hidle hkind => exact .call hidle hkind
  | fire hr henabled => exact .fire hr henabled
  | ret hsettled => exact .ret hsettled
  | timeout hpending htimed => cases (huntimed _ _ hpending).symm.trans htimed

theorem Move.unique (hB : Move P A a B) (hC : Move P A a C) : B = C := by
  cases hB with
  | call _ _ =>
      cases hC with
      | call _ _ => rfl
  | fire hr _ =>
      cases hC with
      | fire hr' _ =>
          cases hr.symm.trans hr'
          rfl
  | ret _ =>
      cases hC with
      | ret _ => rfl

theorem Move.call_call (hpq : p ≠ q) (hp : Move P A (.call p c) B) (hq : Move P A (.call q d) C) :
    ∃ E, Move P B (.call q d) E ∧ Move P C (.call p c) E := by
  cases hp with
  | call hidle hkind =>
      cases hq with
      | call hidle' hkind' =>
          refine ⟨_, .call ((setPort_ne _ (Ne.symm hpq)).trans hidle') hkind', ?_⟩
          rw [setPort_comm hpq]
          exact .call ((setPort_ne _ hpq).trans hidle) hkind

theorem Move.call_fire (hp : Move P A (.call p c) B) (hi : Move P A (.fire i) C) :
    ∃ E, Move P B (.fire i) E ∧ Move P C (.call p c) E := by
  cases hp with
  | call hidle hkind =>
      cases hi with
      | @fire _ r hr henabled =>
          have hnot : ∀ c, A.ports p ≠ .pending c := by
            intro c hc
            cases hidle.symm.trans hc
          have hsee := fun l (hl : involved r.actions l) =>
            sameAt_setPort (x := .pending c) henabled hnot hl
          have hout : ¬ involved r.actions p := by
            intro hin
            obtain ⟨c, hc⟩ := exists_pending henabled hin (isMemLoc_of_callable hkind)
            exact hnot c hc
          refine ⟨_, .fire hr ((enabled_congr hsee).2 henabled), ?_⟩
          rw [fire_setPort hsee ((sameAt_fire _ _ hout).2.trans (setPort_self p _))]
          exact .call (fire_ports_idle hidle) hkind

theorem Move.ne_of_call_ret (hp : Move P A (.call p c) B) (hq : Move P A (.ret q y) C) :
    p ≠ q := by
  rintro rfl
  cases hp with
  | call hidle _ =>
      cases hq with
      | ret hsettled => cases hidle.symm.trans hsettled

theorem Move.call_ret (hp : Move P A (.call p c) B) (hq : Move P A (.ret q y) C) :
    ∃ E, Move P B (.ret q y) E ∧ Move P C (.call p c) E := by
  have hpq := hp.ne_of_call_ret hq
  cases hp with
  | call hidle hkind =>
      cases hq with
      | ret hsettled =>
          refine ⟨_, .ret ((setPort_ne _ (Ne.symm hpq)).trans hsettled), ?_⟩
          rw [setPort_comm hpq]
          exact .call ((setPort_ne _ hpq).trans hidle) hkind

theorem Move.fire_fire (hfree : ConflictFree P) (hij : i ≠ j) (hi : Move P A (.fire i) B)
    (hj : Move P A (.fire j) C) : ∃ E, Move P B (.fire j) E ∧ Move P C (.fire i) E := by
  cases hi with
  | fire hr henabled =>
      cases hj with
      | fire hr' henabled' =>
          have hapart := hfree.apart hr hr' hij henabled henabled'
          have hapart' := hfree.apart hr' hr (Ne.symm hij) henabled' henabled
          refine ⟨_, .fire hr' ((enabled_congr fun l => sameAt_of_apart hapart).2 henabled'), ?_⟩
          rw [fire_comm hapart]
          exact .fire hr ((enabled_congr fun l => sameAt_of_apart hapart').2 henabled)

theorem Move.fire_ret (hi : Move P A (.fire i) B) (hp : Move P A (.ret p x) C) :
    ∃ E, Move P B (.ret p x) E ∧ Move P C (.fire i) E := by
  cases hi with
  | @fire _ r hr henabled =>
      cases hp with
      | ret hsettled =>
          have hnot : ∀ c, A.ports p ≠ .pending c := by
            intro c hc
            cases hsettled.symm.trans hc
          have hsee := fun l (hl : involved r.actions l) =>
            sameAt_setPort (x := .idle) henabled hnot hl
          refine ⟨_, .ret (fire_ports_settled hsettled), ?_⟩
          rw [← fire_setPort hsee (fire_ports_idle (setPort_self p _))]
          exact .fire hr ((enabled_congr hsee).2 henabled)

theorem Move.ret_ret (hpq : p ≠ q) (hp : Move P A (.ret p x) B) (hq : Move P A (.ret q y) C) :
    ∃ E, Move P B (.ret q y) E ∧ Move P C (.ret p x) E := by
  cases hp with
  | ret hsettled =>
      cases hq with
      | ret hsettled' =>
          refine ⟨_, .ret ((setPort_ne _ (Ne.symm hpq)).trans hsettled'), ?_⟩
          rw [setPort_comm hpq]
          exact .ret ((setPort_ne _ hpq).trans hsettled)

theorem Move.answer_unique (hB : Move P A (.ret p x) B) (hC : Move P A (.ret p y) C) : x = y := by
  cases hB with
  | ret hsettled =>
      cases hC with
      | ret hsettled' =>
          cases hsettled.symm.trans hsettled'
          rfl

/-- Two steps that are not calls at one port are one step, or are taken at
different ports and commute. -/
theorem Move.commute (hfree : ConflictFree P)
    (hcalls : ∀ p c d, a = .call p c → b = .call p d → c = d)
    (ha : Move P A a B) (hb : Move P A b C) : (a = b ∧ B = C) ∨
      (∀ p, a.port = some p → b.port ≠ some p) ∧ ∃ E, Move P B b E ∧ Move P C a E := by
  by_cases hab : a = b
  · subst hab
    exact .inl ⟨rfl, ha.unique hb⟩
  right
  have hports : ∀ {p q : LocId}, p ≠ q → ∀ l, some p = some l → some q ≠ some l :=
    fun hpq l hp hq => hpq (Option.some.inj (hp.trans hq.symm))
  cases a with
  | call p c =>
      cases b with
      | call q d =>
          have hpq : p ≠ q := by
            rintro rfl
            exact hab (congrArg _ (hcalls p c d rfl rfl))
          exact ⟨hports hpq, ha.call_call hpq hb⟩
      | fire j => exact ⟨fun _ _ => nofun, ha.call_fire hb⟩
      | ret q y => exact ⟨hports (ha.ne_of_call_ret hb), ha.call_ret hb⟩
  | fire i =>
      refine ⟨fun _ => nofun, ?_⟩
      cases b with
      | call q d =>
          obtain ⟨E, hE, hE'⟩ := hb.call_fire ha
          exact ⟨E, hE', hE⟩
      | fire j => exact ha.fire_fire hfree (fun hij => hab (congrArg _ hij)) hb
      | ret q y => exact ha.fire_ret hb
  | ret p x =>
      cases b with
      | call q d =>
          obtain ⟨E, hE, hE'⟩ := hb.call_ret ha
          exact ⟨hports (Ne.symm (hb.ne_of_call_ret ha)), E, hE', hE⟩
      | fire j =>
          obtain ⟨E, hE, hE'⟩ := hb.fire_ret ha
          exact ⟨fun _ _ => nofun, E, hE', hE⟩
      | ret q y =>
          have hpq : p ≠ q := by
            rintro rfl
            exact hab (congrArg _ (ha.answer_unique hb))
          exact ⟨hports hpq, ha.ret_ret hpq hb⟩

end Moves

end Automaton

/-! ## Sessions -/

structure Session (D : Type) where
  automaton : Automaton D
  todo : LocId → List (PortCall D)
  told : LocId → List (Answer D)

namespace Session

open Automaton

def start (script : LocId → List (PortCall D)) : Session D := ⟨.start, script, fun _ => []⟩

/-- A thread makes the first call it has yet to make. -/
def Offers (todo : LocId → List (PortCall D)) : Act D → Prop
  | .call p c => (todo p).head? = some c
  | .fire _ | .ret _ _ => True

def todoAfter (todo : LocId → List (PortCall D)) : Act D → LocId → List (PortCall D)
  | .call p _ => Function.update todo p (todo p).tail
  | .fire _ | .ret _ _ => todo

def toldAfter (told : LocId → List (Answer D)) : Act D → LocId → List (Answer D)
  | .ret p a => Function.update told p (told p ++ [a])
  | .call _ _ | .fire _ => told

inductive Step (P : Proto D) (s : Session D) : Act D → Session D → Prop where
  | mk {a : Act D} {B : Automaton D} (hnext : Offers s.todo a)
      (hmove : Move P s.automaton a B) :
      Step P s a ⟨B, todoAfter s.todo a, toldAfter s.told a⟩

section Apart

variable {a b : Act D} {todo : LocId → List (PortCall D)} {told : LocId → List (Answer D)}
  (hapart : ∀ p, a.port = some p → b.port ≠ some p)
include hapart

theorem offers_todoAfter (hnext : Offers todo b) : Offers (todoAfter todo a) b := by
  cases b with
  | fire _ | ret _ _ => trivial
  | call q d =>
      cases a with
      | fire _ | ret _ _ => exact hnext
      | call p c =>
          have hqp : q ≠ p := fun heq => hapart p rfl (congrArg some heq)
          show (Function.update todo p (todo p).tail q).head? = some d
          rw [Function.update_of_ne hqp]
          exact hnext

theorem todoAfter_comm : todoAfter (todoAfter todo a) b = todoAfter (todoAfter todo b) a := by
  cases a with
  | fire _ | ret _ _ => rfl
  | call p c =>
      cases b with
      | fire _ | ret _ _ => rfl
      | call q d =>
          have hpq : p ≠ q := fun heq => hapart p rfl (congrArg some heq.symm)
          rw [todoAfter, todoAfter, todoAfter, todoAfter, Function.update_of_ne (Ne.symm hpq),
            Function.update_of_ne hpq, Function.update_comm hpq]

theorem toldAfter_comm : toldAfter (toldAfter told a) b = toldAfter (toldAfter told b) a := by
  cases a with
  | fire _ | call _ _ => rfl
  | ret p x =>
      cases b with
      | fire _ | call _ _ => rfl
      | ret q y =>
          have hpq : p ≠ q := fun heq => hapart p rfl (congrArg some heq.symm)
          rw [toldAfter, toldAfter, toldAfter, toldAfter, Function.update_of_ne (Ne.symm hpq),
            Function.update_of_ne hpq, Function.update_comm hpq]

end Apart

theorem commuting {P : Proto D} (hfree : ConflictFree P) : Run.Commuting (Step P) := by
  intro s t u a b ht hu
  cases ht with
  | mk hnext hmove =>
      cases hu with
      | mk hnext' hmove' =>
          have hcalls : ∀ p c d, a = .call p c → b = .call p d → c = d := by
            rintro p c d rfl rfl
            exact Option.some.inj ((show (s.todo p).head? = _ from hnext).symm.trans hnext')
          rcases hmove.commute hfree hcalls hmove' with ⟨rfl, rfl⟩ | ⟨hapart, E, hE, hE'⟩
          · exact .inl ⟨rfl, rfl⟩
          · have hapart' : ∀ p, b.port = some p → a.port ≠ some p :=
              fun p hb ha => hapart p ha hb
            refine .inr ⟨_, .mk (offers_todoAfter hapart hnext') hE, ?_⟩
            dsimp only
            rw [todoAfter_comm hapart, toldAfter_comm hapart]
            exact .mk (offers_todoAfter hapart' hnext) hE'

end Session

end ReoRs
