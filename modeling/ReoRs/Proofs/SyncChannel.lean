import ReoRs.Proofs.Scripts
import ReoRs.Proto.Circuits

/-!
# The synchronous channel

The calls at the two ends of the channel go together, one by one. What timed
out at either end is as if it had never been called.
-/

namespace ReoRs

variable {D : Type}

theorem sync_rules {r : RuleDef} (hr : r ∈ syncDef.behaviour.rules) :
    r = ⟨.true, [⟨0, [1]⟩]⟩ := by
  simpa [syncDef] using hr

theorem sync_plain (info : TypeInfo D) : Ports.Plain (syncProto info) where
  pos := (by decide : 1 ≤ maxLocId syncDef)
  le := (by decide : maxLocId syncDef ≤ 63)
  uninitialized := .of_pairs (by show ∀ e ∈ syncDef.locKinds.pairs, _; decide)
  oneGetter := by
    intro r hr a ha
    obtain rfl := sync_rules hr
    obtain rfl := List.mem_singleton.1 ha
    exact ⟨1, by decide, rfl⟩
  guards := by
    show ∀ r ∈ syncDef.behaviour.rules, _
    decide
  actions := by
    show ∀ r ∈ syncDef.behaviour.rules, _
    decide

theorem finish_sync (info : TypeInfo D) (heap : Heap D) :
    ∃ s b, (finish (syncProto info)).run (.new heap) = .ok s b := by
  refine finish_of_unguarded (sync_plain info).uninitialized (fun l k hl => ?_) (fun r hr => ?_)
    (fun r hr => ?_) (.new heap)
  · have hall : ∀ e ∈ syncDef.locKinds.pairs, e.1 ≤ 1 := by decide
    exact ⟨info, if_pos (hall _ (mem_pairs.2 hl))⟩
  · obtain rfl := sync_rules hr
    refine ⟨fun a ha => ?_, fun a ha g hg => ?_, by simp, List.pairwise_singleton _ _⟩
    · obtain rfl := List.mem_singleton.1 ha
      exact ⟨.portPutter, (by decide : syncDef.locKinds.lookup 0 = _), rfl⟩
    · obtain rfl := List.mem_singleton.1 ha
      obtain rfl := List.mem_singleton.1 hg
      exact ⟨.portGetter, (by decide : syncDef.locKinds.lookup 1 = _), rfl, rfl⟩
  · obtain rfl := sync_rules hr
    rfl

theorem sync_involvesPort (info : TypeInfo D) :
    ∀ r ∈ (syncProto info).typelessProtoDef.behaviour.rules, ∃ l, involved r.actions l ∧
      isMemLoc (syncProto info).typelessProtoDef.locKinds l = false := by
  intro r hr
  obtain rfl := sync_rules hr
  have hm₀ : isMemLoc syncDef.locKinds 0 = false := by decide
  exact ⟨0, ⟨⟨0, [1]⟩, List.mem_singleton_self _, .inl rfl⟩, hm₀⟩

/-- A put and the call that got its datum, or a signal for it. -/
def HandedOver (x z : PortCall D × Answer D) : Prop :=
  ∃ v, x.1.datum = some v ∧ x.2 = x.1.putAnswer z.1.wantsData ∧
    z.2 = .got (if z.1.wantsData then some v else none)

theorem handedOver_of_reach (info : TypeInfo D) {h : List (Automaton.Act D)} {A : Automaton D}
    (hrun : Run.Reach (Automaton.Step (syncProto info)) .start h A) :
    (∀ p, Automaton.Recorded p h (A.ports p)) ∧
      List.Forall₂ HandedOver (Automaton.settledAt 0 h A) (Automaton.settledAt 1 h A) := by
  have hm₀ : isMemLoc syncDef.locKinds 0 = false := by decide
  have hm₁ : isMemLoc syncDef.locKinds 1 = false := by decide
  refine Automaton.settled_of_reach (Q := fun S _ => List.Forall₂ HandedOver (S 0) (S 1))
    .nil ?_ hrun
  intro A S i r hr henabled hS
  obtain rfl := sync_rules (List.mem_of_getElem? hr)
  have ha : (⟨0, [1]⟩ : ActionDef) ∈ [(⟨0, [1]⟩ : ActionDef)] := List.mem_singleton_self _
  obtain ⟨hput, hget⟩ := henabled _ ha
  obtain ⟨c, v, hp₀, hc⟩ := Automaton.exists_of_offered hm₀ hput
  obtain ⟨g, hp₁, -⟩ := (Automaton.accepts_port hm₁).1 (hget 1 (List.mem_singleton_self 1))
  have hq₀ : (A.fire syncDef.locKinds [⟨0, [1]⟩]).ports 0 =
      .settled (c.putAnswer g.wantsData) := by
    rw [Automaton.fire_ports_putter hp₀ ha rfl (by simp)]
    simp [Automaton.takes, hm₁, hp₁]
  have hq₁ : (A.fire syncDef.locKinds [⟨0, [1]⟩]).ports 1 =
      .settled (.got (if g.wantsData then some v else none)) := by
    rw [Automaton.fire_ports_getter hp₁ ha (by simp) (by simp) (by simp),
      Automaton.offered_port hm₀ hp₀, hc]
  show List.Forall₂ HandedOver (S 0 ++ Automaton.settles (A.ports 0) _)
    (S 1 ++ Automaton.settles (A.ports 1) _)
  rw [hp₀, hp₁]
  exact hq₀ ▸ hq₁ ▸ List.rel_append hS (.cons ⟨v, hc, rfl, rfl⟩ .nil)

/-- The answers of the channel: the getter's calls and the putter's go
together, one by one, leaving out those that timed out. -/
structure SyncAnswers (h : List (Automaton.Act D)) : Prop where
  getter : ∀ (n : Nat) (g : PortCall D) (a : Answer D),
    (Automaton.completed 1 h)[n]? = some (g, a) → ∃ c v, (Automaton.asked 0 h)[n]? = some c ∧
      c.datum = some v ∧ a = .got (if g.wantsData then some v else none)
  putter : ∀ (n : Nat) (c : PortCall D) (a : Answer D),
    (Automaton.completed 0 h)[n]? = some (c, a) →
      ∃ g, (Automaton.asked 1 h)[n]? = some g ∧ a = c.putAnswer g.wantsData

theorem syncAnswers_of_reach (info : TypeInfo D) {h : List (Automaton.Act D)} {A : Automaton D}
    (hrun : Run.Reach (Automaton.Step (syncProto info)) .start h A) : SyncAnswers h := by
  obtain ⟨hrec, hall⟩ := handedOver_of_reach info hrun
  refine ⟨fun n g a hg => ?_, fun n c a hc => ?_⟩
  · obtain ⟨⟨c, b⟩, hput, v, hv, -, ha⟩ :=
      exists_of_forall₂ hall (getElem?_of_initial (Automaton.completed_prefix 1 h A) hg)
    exact ⟨c, v, (hrec 0).asked_of_settled hput, hv, ha⟩
  · obtain ⟨⟨g, b⟩, hget, v, -, ha, -⟩ :=
      exists_of_forall₂ hall.flip (getElem?_of_initial (Automaton.completed_prefix 0 h A) hc)
    exact ⟨g, (hrec 1).asked_of_settled hget, ha⟩

namespace Ports

/-- Whoever calls the ports of the channel, and whatever times out. -/
theorem sync_answers (info : TypeInfo D) {heap : Heap D} {b : Build D} {s₀ : ProtoAll D}
    (hfin : (finish (syncProto info)).run (.new heap) = .ok s₀ b) {h : List (Act D)}
    {t : Ports D} (hrun : Run.Reach (Step .actual) (start s₀) h t) :
    SyncAnswers (h.filterMap Act.observed) := by
  obtain ⟨_, _, A, hA, -⟩ := reach_tracked (sync_plain info) hfin hrun
  exact syncAnswers_of_reach info hA

end Ports

/-- A put with a timeout, one without and a get, to the end. -/
theorem sync_answers_puts : ∃ s b h t,
    (finish (syncProto cellInfo)).run (.new .empty) = .ok s b ∧
    Run.Reach (Ports.Step .actual) (.start s) h t ∧ Ports.Resting .actual t ∧
    SyncAnswers (h.filterMap Ports.Act.observed) := by
  obtain ⟨s, b, hfin⟩ := finish_sync cellInfo .empty
  obtain ⟨h, t, hrun, hstuck⟩ := Threads.exists_stuck .actual
    (sync_plain cellInfo) (sync_involvesPort cellInfo) hfin fun p =>
      if p = 0 then [.putTimeout (.data 7), .put (.data 8)] else [.get]
  have hrun := Threads.reach_ports hrun
  exact ⟨s, b, h, t.ports, hfin, hrun, Threads.resting_of_stuck hstuck,
    Ports.sync_answers cellInfo hfin hrun⟩

end ReoRs
