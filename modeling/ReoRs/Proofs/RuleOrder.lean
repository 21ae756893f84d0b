import ReoRs.Proofs.Determinacy

/-!
# The order of the rules

`exhaust_rules` goes through the rules in the order of the definition and
fires the first that may fire. So of two rules that compete the earlier has its
way, and the same rules in another order are another protocol.

Without conflicts they are not. The automaton has no order of rules: what the
one definition calls rule `i` the other calls by another id, and that is all
there is between their sessions. These commute, and so a run of an instance of
the one and a run of an instance of the other lead to the same end.
-/

namespace ReoRs

variable {D : Type}

/-- The definition with other rules. -/
def Proto.withRules (P : Proto D) (rules : List RuleDef) : Proto D :=
  { P with typelessProtoDef := { P.typelessProtoDef with behaviour := ⟨rules⟩ } }

section

variable {P : Proto D} {rules : List RuleDef}
  (hperm : rules.Perm P.typelessProtoDef.behaviour.rules)
include hperm

theorem Ports.Plain.withRules (hP : Ports.Plain P) : Ports.Plain (P.withRules rules) where
  pos := hP.pos
  le := hP.le
  uninitialized := hP.uninitialized
  oneGetter r hr := hP.oneGetter r (hperm.mem_iff.1 hr)
  guards r hr := hP.guards r (hperm.mem_iff.1 hr)
  actions r hr := hP.actions r (hperm.mem_iff.1 hr)

theorem ConflictFree.withRules (hfree : ConflictFree P) : ConflictFree (P.withRules rules) where
  unguarded r hr := hfree.unguarded r (hperm.mem_iff.1 hr)
  rules := by
    refine (hperm.pairwise_iff ?_).2 hfree.rules
    rintro r r' (hapart | hcon | hcon)
    · exact .inl fun l hl => hapart l hl.symm
    · exact .inr (.inr hcon)
    · exact .inr (.inl hcon)

/-- It is instantiated as before. -/
theorem finish_withRules (hun : Uninitialized P) (hfree : ConflictFree P) {heap : Heap D}
    {b : Build D} {s₀ : ProtoAll D} (hfin : (finish P).run (.new heap) = .ok s₀ b)
    (heap' : Heap D) : ∃ s b', (finish (P.withRules rules)).run (.new heap') = .ok s b' := by
  obtain ⟨htypes, hrules, -⟩ := (finish_iff_of_uninitialized hun _).1.1 ⟨s₀, b, hfin⟩
  have hun' : Uninitialized (P.withRules rules) := hun
  exact finish_of_unguarded hun' htypes (fun r hr => hrules r (hperm.mem_iff.1 hr))
    (fun r hr => hfree.unguarded r (hperm.mem_iff.1 hr)) (.new heap')

end

/-- Where the rules of one list are in another one. -/
theorem exists_index {rules rules' : List RuleDef} (hsub : rules ⊆ rules') :
    ∃ σ : RuleId → RuleId, ∀ i r, rules[i]? = some r → rules'[σ i]? = some r := by
  have hindex : ∀ i : RuleId, ∃ j : RuleId, ∀ r, rules[i]? = some r → rules'[j]? = some r := by
    intro i
    cases hi : rules[i]? with
    | none =>
        refine ⟨0, fun r hr => ?_⟩
        cases hr
    | some r =>
        obtain ⟨j, hj⟩ := List.getElem?_of_mem (hsub (List.mem_of_getElem? hi))
        refine ⟨j, fun r' hr' => ?_⟩
        cases hr'
        exact hj
  exact Classical.axiomOfChoice hindex

namespace Automaton

/-- A step under the other definition. -/
def Act.renamed (σ : RuleId → RuleId) : Act D → Act D
  | .call p c => .call p c
  | .fire i => .fire (σ i)
  | .ret p a => .ret p a

end Automaton

namespace Session

open Automaton

variable {P R : Proto D} {σ : RuleId → RuleId}
  (hkinds : R.typelessProtoDef.locKinds = P.typelessProtoDef.locKinds)
  (hσ : ∀ i r, P.typelessProtoDef.behaviour.rules[i]? = some r →
    R.typelessProtoDef.behaviour.rules[σ i]? = some r)
include hkinds hσ

theorem Step.renamed {s t : Session D} {a : Act D} (h : Step P s a t) :
    Step R s (a.renamed σ) t := by
  cases h with
  | mk hnext hmove =>
      cases hmove with
      | call hidle hkind => exact .mk (a := .call _ _) hnext (.call hidle (hkinds ▸ hkind))
      | fire hr henabled =>
          rw [← hkinds] at henabled ⊢
          exact .mk (a := .fire _) trivial (.fire (hσ _ _ hr) henabled)
      | ret hsettled => exact .mk (a := .ret _ _) trivial (.ret hsettled)

theorem reach_renamed {s t : Session D} {h : List (Act D)} (hrun : Run.Reach (Step P) s h t) :
    Run.Reach (Step R) s (h.map (Act.renamed σ)) t :=
  hrun.relabel _ fun hstep => hstep.renamed hkinds hσ

end Session

namespace Threads

variable {P : Proto D} {rules : List RuleDef} {script : LocId → List (PortCall D)}
  {t t' : Threads D} {h h' : List (Ports.Act D)} {s₀ s₀' : ProtoAll D}

/-- An instance of a protocol without conflicts and one whose definition has
the rules in another order: whatever the threads have heard so far in a run of
the one, they have heard in a run of the other that has come to its end, and
if both have they have heard the same. -/
theorem rule_order_irrelevant (P : Proto D)
    (hperm : rules.Perm P.typelessProtoDef.behaviour.rules) {heap heap' : Heap D}
    {b b' : Build D} (hfin : (finish P).run (.new heap) = .ok s₀ b)
    (hfin' : (finish (P.withRules rules)).run (.new heap') = .ok s₀' b') (hP : Ports.Plain P)
    (hfree : ConflictFree P) (hkinds : WellKinded P script)
    (huntimed : ∀ p, ∀ c ∈ script p, c.timed = false)
    (hrun : Run.Reach (Step .actual) (start s₀ script) h t)
    (hrun' : Run.Reach (Step .actual) (start s₀' script) h' t')
    (hstuck' : Run.Stuck (Step .actual) t') :
    (∀ p, Automaton.completed p (h.filterMap Ports.Act.observed) <+:
        Automaton.completed p (h'.filterMap Ports.Act.observed)) ∧
      (Run.Stuck (Step .actual) t →
        (∀ p, Automaton.completed p (h.filterMap Ports.Act.observed) =
          Automaton.completed p (h'.filterMap Ports.Act.observed)) ∧ t.todo = t'.todo) := by
  have hP' := hP.withRules hperm
  have hfree' := hfree.withRules hperm
  have hcomm : Run.Commuting (Session.Step (P.withRules rules)) := Session.commuting hfree'
  obtain ⟨σ, hσ⟩ := exists_index hperm.symm.subset
  obtain ⟨τ, hτ⟩ := exists_index hperm.subset
  obtain ⟨_, _, A, hA, -⟩ := Ports.reach_tracked hP hfin (reach_ports hrun)
  obtain ⟨A', hA', hover'⟩ := over_of_stuck hP' hfin' hkinds hrun' hstuck'
  have hsession' := reach_session huntimed hrun' hA'
  have hend' := hover'.session_stuck hfree' h'
  constructor
  · intro p
    have hsession := Session.reach_renamed (P := P) (R := P.withRules rules) rfl hσ
      (reach_session huntimed hrun hA)
    obtain ⟨k, hk, -⟩ := hcomm.reach_of_stuck hsession hsession' hend'
    exact completed_initial huntimed hrun hA hrun' hA' (Session.told_initial hk p)
  · intro hstuck
    obtain ⟨B, hB, hover⟩ := over_of_stuck hP hfin hkinds hrun hstuck
    have hsession := Session.reach_renamed (P := P) (R := P.withRules rules) rfl hσ
      (reach_session huntimed hrun hB)
    have hend : Run.Stuck (Session.Step (P.withRules rules)) (t.session B h) :=
      fun a u hstep => hover.session_stuck hfree h _ u
        (hstep.renamed (P := P.withRules rules) (R := P) rfl hτ)
    obtain ⟨heq, -⟩ := hcomm.eq_of_stuck hsession hsession' hend hend'
    refine ⟨fun p => ?_, congrArg Session.todo heq⟩
    exact completed_eq huntimed hrun hB hrun' hA' (congrFun (congrArg Session.told heq) p)

end Threads

/-! ## The alternator -/

/-- The rules of the alternator, the last first. -/
def alternatorRulesReversed : List RuleDef :=
  [⟨.true, [⟨3, [2]⟩]⟩, ⟨.true, [⟨0, [2]⟩, ⟨1, [3]⟩]⟩]

theorem rule_order_irrelevant_alternator : ∃ s b s' b' h t h' t',
    (finish (alternatorProto cellInfo)).run (.new .empty) = .ok s b ∧
    (finish ((alternatorProto cellInfo).withRules alternatorRulesReversed)).run (.new .empty) =
      .ok s' b' ∧
    Run.Reach (Threads.Step .actual) (.start s (alternatorThreads [.put (.data 7)]
      [.put (.data 8)] [.get, .getSignal])) h t ∧ Run.Stuck (Threads.Step .actual) t ∧
    Run.Reach (Threads.Step .actual) (.start s' (alternatorThreads [.put (.data 7)]
      [.put (.data 8)] [.get, .getSignal])) h' t' ∧ Run.Stuck (Threads.Step .actual) t' ∧
    (∀ p, Automaton.completed p (h.filterMap Ports.Act.observed) =
      Automaton.completed p (h'.filterMap Ports.Act.observed)) ∧ t.todo = t'.todo := by
  have hplain := alternator_plain cellInfo
  have hfree := alternator_conflictFree cellInfo
  have hports := alternator_involvesPort cellInfo
  have hperm : alternatorRulesReversed.Perm
      (alternatorProto cellInfo).typelessProtoDef.behaviour.rules := .swap ..
  have hscript := alternatorScript_round (.data 7 : Datum Nat) (.data 8)
  obtain ⟨s, b, hfin⟩ := finish_alternator cellInfo .empty
  obtain ⟨s', b', hfin'⟩ := finish_withRules hperm hplain.uninitialized hfree hfin .empty
  obtain ⟨h, t, hrun, hstuck⟩ := Threads.exists_stuck .actual hplain hports hfin
    (alternatorThreads [.put (.data 7)] [.put (.data 8)] [.get, .getSignal])
  obtain ⟨h', t', hrun', hstuck'⟩ := Threads.exists_stuck .actual (hplain.withRules hperm)
    (fun r hr => hports r (hperm.mem_iff.1 hr)) hfin'
    (alternatorThreads [.put (.data 7)] [.put (.data 8)] [.get, .getSignal])
  exact ⟨s, b, s', b', h, t, h', t', hfin, hfin', hrun, hstuck, hrun', hstuck',
    (Threads.rule_order_irrelevant (alternatorProto cellInfo) hperm hfin hfin' hplain hfree
      (hscript.wellKinded cellInfo) hscript.untimed hrun hrun' hstuck').2 hstuck⟩

end ReoRs
