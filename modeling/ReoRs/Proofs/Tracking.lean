import ReoRs.Proofs.Refinement
import ReoRs.Proofs.Settling
import ReoRs.Proofs.WakeUp

/-!
# What is known of a state

The invariants of the runs are about one thing each, and most were proved with
no panics excluded. Where guards read memory bits only there are none, and then
more is true: the lock is with the one call that is in a pass, a call that came
too late to withdraw stays fired, and while the lock is free no rule is enabled,
from the very start. Where moreover every action has one getter, the getters
need no permits, and there is the automaton to compare with.

`Tracked` has all of this in one place, for the arguments about what a state
leaves to be done.
-/

namespace ReoRs

variable {D : Type}

open ProtoAll Coordination

/-! ## The lock -/

namespace Coordination

variable {P : Proto D} {infos : HashMap TypeId (TypeInfo D)} {s t : Coordination D}

/-- With guards that read memory bits no pass panics. -/
theorem Sound.pass_ok (hs : Standing P infos s.proto) (hself : NoSelfPut P)
    (hclone : FanOutClones P)
    (hguards : ∀ r ∈ P.typelessProtoDef.behaviour.rules, r.guard.bitsOnly = true)
    (h : Sound s) (htrue : Truthful P s.proto) :
    ∃ fin u, exhaustPass.run s.proto = .ok fin u := by
  have hpass := h.pass hs hself hclone htrue
  cases hran : exhaustPass.run s.proto with
  | ok fin u => exact ⟨fin, u, rfl⟩
  | error e u =>
      rw [hran] at hpass
      cases hpass with
      | @guardFault i rule _ hrule hguard =>
          obtain ⟨r, hr, henc⟩ := hs.rule_at hrule
          obtain ⟨x, hx⟩ := exists_evalFormula (s := s.proto) rule.guardPred
            (henc.guardPred ▸ hguards r hr)
          cases hx.symm.trans hguard

/-- While the lock is free the ready bits keep their vector. -/
theorem Step.length_ready (hs : Standing P infos s.proto) (hsound : Sound s) {a : Act D}
    (h : Step s a t) (hwas : s.locked = false) (hfree : t.locked = false) :
    t.proto.w.active.ready.data.length = s.proto.w.active.ready.data.length := by
  cases h with
  | offer _ _ | request _ _ | receive _ _ | acquire _ _ _ => rfl
  | arrive _ _ hrun =>
      rw [run_readySet hs.ungrouped] at hrun
      cases hrun
      cases hfree
  | fire hlock _ _ | leave hlock _ _ | panic hlock _ => cases hwas.symm.trans hlock
  | withdraw _ _ _ => exact BitSet.length_setTo_false _ _
  | finalizePort _ _ hrun =>
      obtain rfl := ok_of_send hrun
      rfl
  | finalizeCell howed _ hspace hrun =>
      obtain ⟨_, u, -, hran, -⟩ := hsound.finalizeMemo_ok hs howed hspace _
      cases hran.symm.trans hrun
      cases hfree
  | fault howed _ hspace hrun =>
      obtain ⟨_, u, -, hran, -⟩ := hsound.finalizeMemo_ok hs howed hspace _
      cases hran.symm.trans hrun

section Start

variable {b : Build D} {s₀ : ProtoAll D} {heap : Heap D}

/-- Nothing is enabled to begin with, if there is anything to look at. -/
theorem quiet_start (hun : Uninitialized P) (hself : NoSelfPut P)
    (hpos : 1 ≤ maxLocId P.typelessProtoDef) (hle : maxLocId P.typelessProtoDef ≤ 63)
    (hacts : ∀ r ∈ P.typelessProtoDef.behaviour.rules, r.actions ≠ [])
    (hfin : (finish P).run (.new heap) = .ok s₀ b) (hready : s₀.w.active.ready.data ≠ []) :
    Quiet s₀ := by
  have hbuilt := built_of_finish hfin
  obtain ⟨infos, hs⟩ := hbuilt.standing
  have htrue : Truthful P s₀ := truthful_of_bitsTrue (s := start s₀) hs hself hpos hle
    (bitsTrue_start hun hfin) hready
  intro rule hrule henabled
  obtain ⟨i, hi⟩ := List.getElem?_of_mem hrule
  have hlt := (List.getElem?_eq_some_iff.1 hi).1
  rw [← hs.rules.length_eq] at hlt
  have hr := List.getElem?_eq_getElem hlt
  have hgen := htrue i _ rule hr hi henabled
  obtain ⟨a, rest, hactions⟩ := List.exists_cons_of_ne_nil (hacts _ (List.mem_of_getElem? hr))
  have ha : a ∈ (P.typelessProtoDef.behaviour.rules[i]).actions := by
    rw [hactions]
    exact List.mem_cons_self
  -- the putter is ready, so it is a cell, and a cell is not full yet
  have hput := hgen.ready a.putter ⟨a, ha, .inl rfl⟩
  rw [hbuilt.ready_test] at hput
  exact hgen.full a ha hput (held_start hun hfin a.putter)

/-- As long as the lock is free, a scan would find nothing. -/
theorem quiet_of_reach (hun : Uninitialized P) (hself : NoSelfPut P) (hclone : FanOutClones P)
    (hpos : 1 ≤ maxLocId P.typelessProtoDef) (hle : maxLocId P.typelessProtoDef ≤ 63)
    (hguards : ∀ r ∈ P.typelessProtoDef.behaviour.rules, r.guard.bitsOnly = true)
    (hacts : ∀ r ∈ P.typelessProtoDef.behaviour.rules, r.actions ≠ [])
    (hfin : (finish P).run (.new heap) = .ok s₀ b) {h : List (Act D)}
    (hrun : Run.Reach Step (start s₀) h t) (hfree : t.locked = false)
    (hready : t.proto.w.active.ready.data ≠ []) : Quiet t.proto := by
  have hinv : t.locked = false → t.proto.w.active.ready.data ≠ [] → Quiet t.proto := by
    refine hrun.invariant (P := fun _ t => t.locked = false → t.proto.w.active.ready.data ≠ [] →
      Quiet t.proto) (fun _ => quiet_start hun hself hpos hle hacts hfin) ?_
    intro h u a v hu hprev hstep hfree hready
    obtain ⟨infos, hs, hsound, -, htrue⟩ := reach_sound hun hself hclone hpos hle hfin hu
    have hrules : ∀ rule ∈ u.proto.r.rules, rule.guardPred.bitsOnly = true := by
      intro rule hrule
      obtain ⟨i, hi⟩ := List.getElem?_of_mem hrule
      obtain ⟨r, hr, henc⟩ := hs.rule_at hi
      rw [henc.guardPred]
      exact hguards r hr
    refine hstep.quiet hs hrules (fun hwas => hprev hwas fun hnil => hready ?_) ?_ hfree
    · have hlen := hstep.length_ready hs hsound hwas hfree
      rw [hnil] at hlen
      exact List.eq_nil_of_length_eq_zero hlen
    · rintro rfl
      cases hstep with
      | panic hlock hrun =>
          obtain ⟨fin, w, hok⟩ := hsound.pass_ok hs hself hclone hguards (htrue hlock)
          cases hok.symm.trans hrun
  exact hinv hfree hready

end Start

end Coordination

/-- The call has the lock for passes over the rules. -/
def Phase.holds : Phase → Bool
  | coordinating | finalizing _ => true
  | entering | awaiting | expired | late | acquiring _ _ => false

theorem Phase.holds_afterPass (ph : Phase) : ph.afterPass.holds = false := by
  cases ph <;> rfl

namespace Ports

variable {P : Proto D} {infos : HashMap TypeId (TypeInfo D)} {s t : Ports D}
  {owed : LocId → Nat} {A : Automaton D} {moves : Transfers D}

/-! ## Who holds the lock -/

/-- The lock is with the one call that is in a pass. -/
def OneHolder (s : Ports D) : Prop :=
  ∀ p, s.holder = some p ↔ (s.calls p).any (·.phase.holds) = true

section

variable {p : LocId} {x : Option (Active D)} {proto : ProtoAll D} {holder : Option LocId}
  {dropped : List (Datum D)}

theorem OneHolder.setCall (h : OneHolder s) (hself : holder = some p ↔ x.any (·.phase.holds) = true)
    (hother : ∀ l, l ≠ p → (holder = some l ↔ s.holder = some l)) :
    OneHolder (Ports.setCall ⟨proto, holder, s.calls, dropped⟩ p x) := by
  intro l
  show holder = some l ↔ (Function.update s.calls p x l).any _ = true
  by_cases hlp : l = p
  · rw [hlp, Function.update_self]
    exact hself
  · rw [Function.update_of_ne hlp, hother l hlp]
    exact h l

/-- A step that leaves the lock where it is. -/
theorem OneHolder.within (h : OneHolder s)
    (hsame : x.any (·.phase.holds) = (s.calls p).any (·.phase.holds)) :
    OneHolder (Ports.setCall ⟨proto, s.holder, s.calls, dropped⟩ p x) :=
  h.setCall (by rw [h p, hsame]) fun _ _ => Iff.rfl

end

/-- Every step but a panic, after which the call stays where it is. -/
theorem Step.oneHolder (hs : Standing P infos s.proto) (h : OneHolder s) {a : Act D}
    (hstep : Step moves s a t) (hpanic : ∀ p, a ≠ .panic p) : OneHolder t := by
  cases hstep with
  | callPut hidle _ _ | callGet hidle _ _ => exact h.within (by rw [hidle]; rfl)
  | enter _ hfree hrun =>
      rw [run_readySet hs.ungrouped] at hrun
      cases hrun
      refine h.setCall (by simp [Phase.holds]) fun l hl => ?_
      simp [hfree, Ne.symm hl]
  | fire _ _ => exact h
  | leave hlock _ _ _ =>
      refine h.setCall (by simp [Phase.holds_afterPass]) fun l hl => ?_
      simp [hlock, Ne.symm hl]
  | panic _ _ => exact absurd rfl (hpanic _)
  | expire hcall _ | withdraw hcall _ _ | tooLate hcall _ _ | acquire hcall _ _ _ _
  | finalizePort hcall _ _ | getReturn hcall => exact h.within (by rw [hcall]; rfl)
  | @putReturn p c ph out v msg moved hcall hphase hdatum hmsg hmoved =>
      refine h.within ?_
      rw [hcall]
      cases ph with
      | awaiting | late => rfl
      | entering | coordinating | expired | acquiring q pc | finalizing q => cases hphase
  | @receive p c ph out q space kind sp hcall hphase hdatum hmsg hspace hsource =>
      refine h.within ?_
      rw [hcall]
      cases ph with
      | awaiting | late => rfl
      | entering | coordinating | expired | acquiring q pc | finalizing q => cases hphase
  | finalizeCell _ hfree hspace hrun =>
      obtain ⟨rfl, -⟩ := hs.readyPorts_finalizeMemo hspace hrun
      refine h.setCall (by simp [Phase.holds]) fun l hl => ?_
      simp [hfree, Ne.symm hl]

/-! ## Who was too late -/

/-- A call that was too late to withdraw is not ready. -/
def LateSpent (s : Ports D) : Prop :=
  ∀ p c out, s.calls p = some ⟨c, .late, out⟩ → s.proto.w.active.ready.test p = false

theorem late_of_setCall {p l : LocId} {x : Option (Active D)} {proto : ProtoAll D}
    {holder : Option LocId} {dropped : List (Datum D)} {c : PortCall D} {out : Option (Datum D)}
    (hx : ∀ c out, x ≠ some ⟨c, .late, out⟩)
    (h : (Ports.setCall ⟨proto, holder, s.calls, dropped⟩ p x).calls l = some ⟨c, .late, out⟩) :
    s.calls l = some ⟨c, .late, out⟩ := by
  have h : Function.update s.calls p x l = some ⟨c, .late, out⟩ := h
  by_cases hlp : l = p
  · rw [hlp, Function.update_self] at h
    exact absurd h (hx c out)
  · rwa [Function.update_of_ne hlp] at h

/-- A call becomes late by finding its readiness spent. -/
theorem Step.late_cases {a : Act D} (hstep : Step moves s a t) {l : LocId} {c : PortCall D}
    {out : Option (Datum D)} (h : t.calls l = some ⟨c, .late, out⟩) :
    s.calls l = some ⟨c, .late, out⟩ ∨ t.proto.w.active.ready.test l = false := by
  cases hstep with
  | callPut | callGet | expire | withdraw | putReturn | receive | acquire | finalizePort
  | getReturn => exact .inl (late_of_setCall (by rintro c out ⟨⟩) h)
  | @enter p c out go proto =>
      refine .inl (late_of_setCall ?_ h)
      cases go <;> rintro c out ⟨⟩
  | fire _ _ | panic _ _ => exact .inl h
  | @leave p c ph out fin proto hlock hcall =>
      cases ph with
      | late =>
          have h : Function.update s.calls p (some ⟨c, .late, out⟩) l = _ := h
          rw [← hcall, Function.update_eq_self] at h
          exact .inl h
      | entering | coordinating | awaiting | expired | acquiring q pc | finalizing q =>
          exact .inl (late_of_setCall (by rintro c out ⟨⟩) h)
  | @tooLate p c out hcall hfree hready =>
      by_cases hlp : l = p
      · right
        show (s.proto.setReady p false).w.active.ready.test l = false
        rw [ready_setReady, if_pos hlp]
      · left
        have h : Function.update s.calls p _ l = _ := h
        rwa [Function.update_of_ne hlp] at h
  | @finalizeCell p c q m go =>
      refine .inl (late_of_setCall ?_ h)
      cases go <;> rintro c out ⟨⟩

theorem Step.lateSpent (hs : Standing P infos s.proto) (hself : NoSelfPut P)
    (hclone : FanOutClones P) (hsound : Sound (s.coordination owed))
    (htrue : s.holder.isSome = true → Truthful P s.proto) (hk : Kept s owed) (h : LateSpent s)
    {a : Act D} (hstep : Step moves s a t) : LateSpent t := by
  intro p c out hcall
  rcases hstep.late_cases hcall with hwas | hspent
  · have hstate : s.callState p = .waiting := callState_of_call hwas
    have hstate' : t.callState p = .waiting := callState_of_call hcall
    cases hstep.ready hs hself hclone hsound htrue hk p with
    | began _ hentering => cases hstate'.symm.trans hentering
    | entered _ hentering _ _ => cases hstate.symm.trans hentering
    | fired _ _ _ hspent => exact hspent
    | ended hidle => cases hstate'.symm.trans hidle
    | same _ _ hsame => rw [hsame, h p c out hwas]
  · exact hspent

/-! ## No permit is ever released -/

/-- No space has a permit. -/
def NoPermits (s : ProtoAll D) : Prop := ∀ q c, s.counters q = some c → c.permits = 0

theorem NoPermits.congr {s t : ProtoAll D} (h : NoPermits s)
    (hcounters : ∀ q, t.counters q = s.counters q) : NoPermits t :=
  fun q c hc => h q c (hcounters q ▸ hc)

theorem noPermits_start {b b' : Build D} {s₀ : ProtoAll D}
    (hfin : (finish P).run b = .ok s₀ b') : NoPermits s₀ := by
  obtain ⟨infos, hspaces⟩ := (built_of_finish hfin).spaceAt
  intro q c hc
  rw [counters, Option.bind_eq_some_iff] at hc
  obtain ⟨space, hspace, hc⟩ := hc
  cases hspaces q space hspace with
  | putter _ _ | filled _ _ | empty _ _ =>
      cases hc
      rfl
  | getter _ | unused _ => cases hc

/-- A firing sets the countdowns and the flags, and not the semaphores. -/
theorem NoPermits.fired {run : RunRule D} {proto : ProtoAll D} (h : NoPermits s.proto)
    (hf : Fired (s.proto.prepare run) run.actions proto) : NoPermits proto := by
  intro q c hc
  by_cases hopen : ∃ x ∈ run.actions, x.putter = q ∧ x.pg ≠ []
  · obtain ⟨x, hx, rfl, hne⟩ := hopen
    obtain ⟨kind, sp, v, d, ha, hout, -, -⟩ := hf.each x hx
    obtain ⟨space, hspace, hsource⟩ := source_of_putterReady ha.putter
    have hspace : s.proto.getSpace x.putter = some space := hspace
    have hempty : x.pg.isEmpty = false := List.isEmpty_eq_false_iff.2 hne
    have hafter : proto.counters x.putter =
        some (countersOf kind (sp.beginHandOff x.pg.length d)) := by
      have hput := hout.putter
      cases kind with
      | port | memory =>
          rw [RunAction.putterAfter, hempty] at hput
          exact counters_of_source hput rfl
    obtain rfl := Option.some.inj (hc.symm.trans hafter)
    have hzero : sp.moverSema = 0 := h x.putter _ (counters_of_source hspace hsource)
    exact hzero
  · have hclosed : ∀ x ∈ run.actions, x.putter = q → x.pg = [] := by
      intro x hx hxq
      by_contra hne
      exact hopen ⟨x, hx, hxq, hne⟩
    rw [counters_fired hf hclosed] at hc
    exact h q c hc

/-- Only the last out that leaves a winner waiting releases one. -/
theorem acquireStep_permits {kind : SourceKind} {sp : PutterSpace D} {pc : AcquirePc}
    {acq : Acquired D} (h : acquireStep kind sp pc = some acq) (hpc : pc ≠ .release) :
    acq.space.moverSema ≤ sp.moverSema := by
  cases pc with
  | storeMoved | loadMoved | loserClone | copyCountdown | winnerCountdown | loserCountdown
  | signalCountdown | askMove | signalAsk =>
      cases h
      exact Nat.le_refl _
  | copyData | winnerMove =>
      cases h
      cases kind <;> exact Nat.le_refl _
  | winnerWait =>
      rw [acquireStep] at h
      split at h
      · cases h
        exact Nat.sub_le _ _
      · cases h
  | release => exact absurd rfl hpc
  | finalize m | returned => cases h

theorem Step.noPermits (hs : Standing P infos s.proto) (hone : OneGetter P)
    (hsound : Sound (s.coordination owed)) (htrue : s.holder.isSome = true → Truthful P s.proto)
    (hk : Kept s owed) (hA : Matches s A) (h : NoPermits s.proto) {a : Act D}
    (hstep : Step moves s a t) : NoPermits t.proto := by
  have hself := hone.noSelfPut
  have hclone := hone.fanOutClones
  cases hstep with
  | @callPut p c v sp b hidle hspace hdatum =>
      exact h.congr
        (counters_setPtr { s.proto with heap := s.proto.heap.write (.stack p) (some v) } p _)
  | callGet | expire | getReturn => exact h
  | enter _ _ hrun =>
      rw [run_readySet hs.ungrouped] at hrun
      cases hrun
      exact h
  | @fire p i proto hlock hrun =>
      have hpass := pass_of_run hs hself hclone hsound htrue hlock hrun
      cases hpass with
      | fired _ _ _ _ _ hf => exact h.fired hf
  | @leave p c ph out fin proto hlock hcall hend hrun =>
      have hpass := pass_of_run hs hself hclone hsound htrue hlock hrun
      cases hpass with
      | @fired i _ _ _ _ _ _ _ _ _ => exact absurd rfl (hend i)
      | quiet => exact h
  | @panic p e proto hlock hrun =>
      have hpass := pass_of_run hs hself hclone hsound htrue hlock hrun
      cases hpass with
      | guardFault _ _ => exact h
  | withdraw | tooLate => exact h
  | putReturn | receive => exact h.congr (counters_setDropbox s.proto _ none)
  | @acquire p c q pc out v space kind sp acq hcall hspace hsource hstep _ =>
      have hpc : pc ≠ .release := by
        rintro rfl
        obtain ⟨r, -, hway⟩ :=
          (hA.ports p).underway hk hsound hcall (by simp) ⟨space, hspace, hsource⟩
        exact hway.track
      have hzero : sp.moverSema = 0 := h q _ (counters_of_source hspace hsource)
      have hless := acquireStep_permits hstep hpc
      intro q' c' hc'
      by_cases hq : q' = q
      · subst hq
        obtain ⟨space', hspace', hsource'⟩ :=
          Handing.mapPutter ⟨space, hspace, hsource⟩ acq.space
        obtain rfl := Option.some.inj (hc'.symm.trans (counters_of_source hspace' hsource'))
        exact Nat.eq_zero_of_le_zero (hzero ▸ hless)
      · exact h q' c' ((counters_mapPutter_ne s.proto (fun _ => acq.space) hq).symm.trans hc')
  | finalizePort _ _ hrun =>
      obtain rfl := ok_of_send hrun
      exact h.congr (counters_setDropbox s.proto _ _)
  | @finalizeCell p c q m go out sp proto hcall hfree hspace hrun =>
      obtain ⟨v, u, rfl, rfl, -, hemptied, -⟩ := emptied_of_finalize hs hsound hk hcall hspace hrun
      exact h.congr (hemptied.counters_eq hspace)

/-! ## Together -/

/-- What is known of a state of a run, with what its putters are owed and where
the automaton is. -/
structure Tracked (P : Proto D) (infos : HashMap TypeId (TypeInfo D)) (owed : LocId → Nat)
    (A : Automaton D) (s : Ports D) : Prop where
  standing : Standing P infos s.proto
  sound : Sound (s.coordination owed)
  bits : BitsTrue s.proto
  kept : Kept s owed
  matched : Matches s A
  holder : OneHolder s
  late : LateSpent s
  permits : NoPermits s.proto
  quiet : s.holder = none → s.proto.w.active.ready.data ≠ [] → Quiet s.proto

/-- The protocols this is about: all locations in one chunk, memory that is
empty at first, one getter an action, no empty rules, and guards that read
memory bits only. -/
structure Plain (P : Proto D) : Prop where
  pos : 1 ≤ maxLocId P.typelessProtoDef
  le : maxLocId P.typelessProtoDef ≤ 63
  uninitialized : Uninitialized P
  oneGetter : OneGetter P
  guards : ∀ r ∈ P.typelessProtoDef.behaviour.rules, r.guard.bitsOnly = true
  actions : ∀ r ∈ P.typelessProtoDef.behaviour.rules, r.actions ≠ []

theorem reach_tracked {b : Build D} {s₀ : ProtoAll D} {heap : Heap D} (hP : Plain P)
    (hfin : (finish P).run (.new heap) = .ok s₀ b) {h : List (Act D)}
    (hrun : Run.Reach (Step .actual) (start s₀) h t) : ∃ infos owed A,
      Run.Reach (Automaton.Step P) .start (h.filterMap Act.observed) A ∧
        Tracked P infos owed A t := by
  obtain ⟨hpos, hle, hun, hone, hguards, hacts⟩ := hP
  have hself := hone.noSelfPut
  have hclone := hone.fanOutClones
  have hinv : ∃ k owed A, Run.Reach Coordination.Step (Coordination.start s₀) k
      (t.coordination owed) ∧ Kept t owed ∧
      Run.Reach (Automaton.Step P) .start (h.filterMap Act.observed) A ∧ Matches t A ∧
      OneHolder t ∧ LateSpent t ∧ NoPermits t.proto := by
    refine hrun.invariant (P := fun h t => ∃ k owed A, Run.Reach Coordination.Step
      (Coordination.start s₀) k (t.coordination owed) ∧ Kept t owed ∧
      Run.Reach (Automaton.Step P) .start (h.filterMap Act.observed) A ∧ Matches t A ∧
      OneHolder t ∧ LateSpent t ∧ NoPermits t.proto) ?_ ?_
    · refine ⟨[], fun _ => 0, .start, .refl, kept_start hfin, .refl, .start hun hfin, ?_, ?_, ?_⟩
      · exact fun p => iff_of_false (fun hp => by cases hp) fun hp => by cases hp
      · rintro p c out ⟨⟩
      · exact noPermits_start hfin
    · rintro h u a v - ⟨k, owed, A, hk, hkept, hauto, hA, hholder, hlate, hpermits⟩ hstep
      obtain ⟨infos, hs, hsound, -, htrue⟩ := reach_sound hun hself hclone hpos hle hfin hk
      obtain ⟨k', owed', hk', hkept'⟩ := hstep.refined hs hself hclone hsound htrue hkept
      have hpanic : ∀ p, a ≠ .panic p := by
        rintro p rfl
        cases hstep with
        | panic hlock hrun =>
            have hholds : u.holder.isSome = true := by
              rw [hlock]
              rfl
            obtain ⟨fin, w, hok⟩ := hsound.pass_ok hs hself hclone hguards (htrue hholds)
            cases hok.symm.trans hrun
      have hanswer := hstep.answered hs hone hsound htrue hkept hA
      obtain ⟨B, hAB, hB⟩ : ∃ B, Run.Reach (Automaton.Step P) .start
          ((a :: h).filterMap Act.observed) B ∧ Matches v B := by
        cases ha : a.observed with
        | none =>
            rw [ha] at hanswer
            exact ⟨A, by rwa [List.filterMap_cons_none ha], hanswer⟩
        | some b =>
            rw [ha] at hanswer
            obtain ⟨B, hAB, hB⟩ := hanswer
            exact ⟨B, by rw [List.filterMap_cons_some ha]; exact hauto.tail hAB, hB⟩
      exact ⟨k' ++ k, owed', B, hk.trans hk', hkept', hAB, hB, hstep.oneHolder hs hholder hpanic,
        hstep.lateSpent hs hself hclone hsound htrue hkept hlate,
        hstep.noPermits hs hone hsound htrue hkept hA hpermits⟩
  obtain ⟨k, owed, A, hk, hkept, hauto, hA, hholder, hlate, hpermits⟩ := hinv
  obtain ⟨infos, hs, hsound, hbits, -⟩ := reach_sound hun hself hclone hpos hle hfin hk
  refine ⟨infos, owed, A, hauto, hs, hsound, hbits, hkept, hA, hholder, hlate, hpermits, ?_⟩
  intro hfree hready
  exact quiet_of_reach (t := t.coordination owed) hun hself hclone hpos hle hguards hacts hfin hk
    (show t.holder.isSome = false by rw [hfree]; rfl) hready

end Ports

end ReoRs
