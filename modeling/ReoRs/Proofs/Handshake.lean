import ReoRs.Proofs.Coherence
import ReoRs.Proofs.PortsSteps

/-!
# The handshake of the ports

In every run of the ports a message is in a dropbox only while its port is
inside a call whose readiness is spent, so that no `send` ever finds a message
there. A call that times out takes its readiness back, and nothing had fired
it. A call that was fired has its message, or has received it, or is a put
whose getters still owe it exactly one `finalize`.

The history of a run says which firings there were since a call began.
`ReadyStep` ties them to the readiness bit: it is set as a call enters, and
only a firing that involves the port clears it before the call is over.
-/

namespace ReoRs

variable {D : Type}

open ProtoAll Coordination

namespace Ports

variable {P : Proto D} {infos : HashMap TypeId (TypeInfo D)} {s t : Ports D}
  {owed : LocId → Nat} {moves : Transfers D}

/-! ## From the start -/

section Start

variable {b : Build D} {s₀ : ProtoAll D} {heap : Heap D}

theorem kept_start (hfin : (finish P).run (.new heap) = .ok s₀ b) :
    Kept (start s₀) fun _ => 0 := by
  obtain ⟨infos, hspaces⟩ := (built_of_finish hfin).spaceAt
  have htold : ∀ q g, s₀.told q g = false := by
    intro q g
    rw [Bool.eq_false_iff]
    intro h
    have := hspaces g _ (told_eq_true.1 h)
    cases this
  refine ⟨fun p x hp => (by cases hp), fun q c hc => ?_⟩
  have hnew : c.countdown = 0 ∧ c.permits = 0 := by
    have hc : s₀.counters q = some c := hc
    rw [counters, Option.bind_eq_some_iff] at hc
    obtain ⟨space, hspace, hc⟩ := hc
    cases hspaces q space hspace with
    | putter _ _ | filled _ _ | empty _ _ =>
        cases hc
        exact ⟨rfl, rfl⟩
    | getter _ | unused _ => cases hc
  refine ⟨?_, ?_, fun _ => ⟨hnew.2, fun _ => rfl, fun hpos => absurd hpos (Nat.lt_irrefl 0)⟩⟩
  · rw [hnew.1]
    refine (Count.upTo_eq_zero.2 fun g _ => ?_).symm
    show (s₀.told q g || false) = false
    rw [htold]
    rfl
  · have hzero : Count.upTo s₀.r.spaces.length ((start s₀).acquiringAt AcquirePc.lastOut q) = 0 :=
      Count.upTo_eq_zero.2 fun g _ => rfl
    rw [hnew.1, hnew.2]
    show Count.upTo s₀.r.spaces.length _ + 0 + _ = 0
    rw [hzero]
    rfl

/-- Every run of the ports is one of the coordination. -/
theorem reach_coordination (hun : Uninitialized P) (hself : NoSelfPut P) (hclone : FanOutClones P)
    (hpos : 1 ≤ maxLocId P.typelessProtoDef) (hle : maxLocId P.typelessProtoDef ≤ 63)
    (hfin : (finish P).run (.new heap) = .ok s₀ b) {h : List (Act D)}
    (hrun : Run.Reach (Step moves) (start s₀) h t) : ∃ k owed,
      Run.Reach Coordination.Step (Coordination.start s₀) k (t.coordination owed) ∧ Kept t owed := by
  refine hrun.preserves (P := fun u => ∃ k owed, Run.Reach Coordination.Step
    (Coordination.start s₀) k (u.coordination owed) ∧ Kept u owed)
    ⟨[], fun _ => 0, .refl, kept_start hfin⟩ ?_
  rintro u a v ⟨k, owed, hk, hkept⟩ hstep
  obtain ⟨infos, hs, hsound, -, htrue⟩ := reach_sound hun hself hclone hpos hle hfin hk
  obtain ⟨k', owed', hk', hkept'⟩ := hstep.refined hs hself hclone hsound htrue hkept
  exact ⟨k' ++ k, owed', hk.trans hk', hkept'⟩

/-- In every run of the ports the books are right. -/
theorem reach_kept (hun : Uninitialized P) (hself : NoSelfPut P) (hclone : FanOutClones P)
    (hpos : 1 ≤ maxLocId P.typelessProtoDef) (hle : maxLocId P.typelessProtoDef ≤ 63)
    (hfin : (finish P).run (.new heap) = .ok s₀ b) {h : List (Act D)}
    (hrun : Run.Reach (Step moves) (start s₀) h t) : ∃ infos owed, Standing P infos t.proto ∧
      Sound (t.coordination owed) ∧ BitsTrue t.proto ∧
      (t.holder.isSome = true → Truthful P t.proto) ∧ Kept t owed := by
  obtain ⟨k, owed, hk, hkept⟩ := reach_coordination hun hself hclone hpos hle hfin hrun
  obtain ⟨infos, hs, hsound, hbits, htrue⟩ := reach_sound hun hself hclone hpos hle hfin hk
  exact ⟨infos, owed, hs, hsound, hbits, htrue, hkept⟩

end Start

/-! ## Firings since a call began -/

def Involves (P : Proto D) (i : RuleId) (p : LocId) : Prop :=
  ∃ r, P.typelessProtoDef.behaviour.rules[i]? = some r ∧ involved r.actions p

/-- What an action makes of the fact that the port was fired. -/
def Act.firedSince (P : Proto D) (p : LocId) (fired : Prop) : Act D → Prop
  | .call q _ => q ≠ p ∧ fired
  | .fire _ i => Involves P i p ∨ fired
  | .enter _ | .leave _ | .panic _ | .expire _ | .late _ | .receive _ | .acquire _ | .finalize _
  | .ret _ _ => fired

/-- The history has a firing that involves the port, since its last call
began. -/
def FiredSince (P : Proto D) (p : LocId) : List (Act D) → Prop
  | [] => False
  | a :: h => a.firedSince P p (FiredSince P p h)

/-- What a step does to the readiness of the call at `p`. -/
inductive ReadyStep (P : Proto D) (s : Ports D) (a : Act D) (t : Ports D) (p : LocId) : Prop where
  | began {c : PortCall D} (ha : a = .call p c) (hcall : t.callState p = .entering)
  | entered (ha : a = .enter p) (hwas : s.callState p = .entering)
      (hcall : t.callState p = .waiting) (hready : t.proto.w.active.ready.test p = true)
  | fired {q : LocId} {i : RuleId} (ha : a = .fire q i) (hinv : Involves P i p)
      (hcall : t.callState p = .waiting) (hready : t.proto.w.active.ready.test p = false)
  | ended (hcall : t.callState p = .idle)
  | same (ha : ∀ fired, a.firedSince P p fired ↔ fired) (hcall : t.callState p = s.callState p)
      (hready : t.proto.w.active.ready.test p = s.proto.w.active.ready.test p)

section

variable {p l : LocId} {x : Option (Active D)} {proto : ProtoAll D} {holder : Option LocId}
  {dropped : List (Datum D)}

/-- A step of another call, with the readiness of `l` left alone. -/
theorem ReadyStep.other {a : Act D} (hlp : l ≠ p) (ha : ∀ fired, a.firedSince P l fired ↔ fired)
    (hready : proto.w.active.ready.test l = s.proto.w.active.ready.test l) :
    ReadyStep P s a (Ports.setCall ⟨proto, holder, s.calls, dropped⟩ p x) l := by
  refine .same ha ?_ hready
  rw [callState_setCall, Function.update_of_ne hlp]
  rfl

theorem callState_setCall_self (s : Ports D) (p : LocId) (x : Option (Active D)) :
    (s.setCall p x).callState p = callStateOf x := by
  rw [callState_setCall, Function.update_self]

/-- A step after which the call is over, or in `acquire_data`. -/
theorem ReadyStep.idle {a : Act D} (hx : callStateOf x = .idle)
    (ha : ∀ fired, a.firedSince P l fired ↔ fired)
    (hready : l ≠ p → proto.w.active.ready.test l = s.proto.w.active.ready.test l) :
    ReadyStep P s a (Ports.setCall ⟨proto, holder, s.calls, dropped⟩ p x) l := by
  by_cases hlp : l = p
  · subst hlp
    exact .ended ((callState_setCall_self _ _ _).trans hx)
  · exact .other hlp ha (hready hlp)

/-- A step within a call that has to do with no readiness. -/
theorem ReadyStep.within {a : Act D} (hx : callStateOf x = s.callState p)
    (ha : ∀ fired, a.firedSince P l fired ↔ fired) :
    ReadyStep P s a (Ports.setCall ⟨s.proto, holder, s.calls, dropped⟩ p x) l := by
  by_cases hlp : l = p
  · subst hlp
    exact .same ha ((callState_setCall_self _ _ _).trans hx) rfl
  · exact .other hlp ha rfl

end

/-- A firing takes the readiness of the ports it involves. -/
theorem ReadyStep.ofFire (hs : Standing P infos s.proto) (hsound : Sound (s.coordination owed))
    {i : RuleId} {r : RuleDef} {run : RunRule D} {proto : ProtoAll D} {q : LocId}
    (hr : P.typelessProtoDef.behaviour.rules[i]? = some r)
    (henc : Encodes P.typelessProtoDef.locKinds r run)
    (hgen : Genuine P.typelessProtoDef.locKinds s.proto r.actions)
    (hf : Fired (s.proto.prepare run) run.actions proto) (l : LocId) :
    ReadyStep P s (.fire q i) { s with proto } l := by
  by_cases hidle : s.callState l = .idle
  · exact .ended hidle
  have hready := hgen.ready l
  by_cases hinv : involved r.actions l
  · obtain ⟨b, hb, -⟩ := hsound.port (l := l) hidle
    have hwait : s.callState l = .waiting := (hsound.dropbox hb (hready hinv)).2.1
    refine .fired rfl ⟨r, hr, hinv⟩ hwait (Bool.eq_false_iff.2 fun hcon => ?_)
    obtain ⟨a, ha, hal⟩ := hinv
    have hx := henc.mem_actions.2 ⟨a, ha, rfl⟩
    have hapart := henc.apart (hs.wellFormed r (List.mem_of_getElem? hr))
    have hnot : ∀ sp, s.proto.getSpace l ≠ some (.memo sp) := by
      intro sp hsp
      have hb : s.proto.getDropbox l = some b := hb
      rw [getDropbox, hsp] at hb
      cases hb
    rcases (ready_of_mentions (s := s.coordination owed) henc hapart hf hx
      (ActionDef.mentions_encode.2 hal)).1 hcon with hmg | ⟨-, -, sp, hsp⟩
    · obtain ⟨sp, hsp, -⟩ := hs.shaped.isCell (ActionDef.mem_mg.1 hmg).2
      exact hnot sp hsp
    · exact hnot sp hsp
  · refine .same (fun fired => or_iff_right ?_) rfl
      (ready_of_not_involved (s := s.coordination owed) henc hf hinv)
    rintro ⟨r', hr', hinv'⟩
    cases hr.symm.trans hr'
    exact hinv hinv'

theorem Step.ready (hs : Standing P infos s.proto) (hself : NoSelfPut P)
    (hclone : FanOutClones P) (hsound : Sound (s.coordination owed))
    (htrue : s.holder.isSome = true → Truthful P s.proto) (hk : Kept s owed) {a : Act D}
    (hstep : Step moves s a t) (l : LocId) : ReadyStep P s a t l := by
  cases hstep with
  | @callPut p | @callGet p =>
      by_cases hlp : l = p
      · subst hlp
        exact .began rfl (callState_setCall_self _ _ _)
      · exact .other hlp (fun _ => and_iff_right (Ne.symm hlp)) rfl
  | @enter p c out go proto hcall hfree hrun =>
      rw [run_readySet hs.ungrouped] at hrun
      cases hrun
      by_cases hlp : l = p
      · subst hlp
        refine .entered rfl (callState_of_call hcall) (callState_setCall_self _ _ _) ?_
        show (s.proto.setReady l true).w.active.ready.test l = true
        rw [ready_setReady, if_pos rfl]
      · refine .other hlp (fun _ => Iff.rfl) ?_
        rw [ready_setReady, if_neg hlp]
  | @fire p i proto hlock hrun =>
      have hpass := pass_of_run hs hself hclone hsound htrue hlock hrun
      cases hpass with
      | fired hr _ henc _ hgen hf => exact .ofFire hs hsound hr henc hgen hf l
  | @leave p c ph out fin proto hlock hcall hend hrun =>
      have hpass := pass_of_run hs hself hclone hsound htrue hlock hrun
      cases hpass with
      | @fired i _ _ _ _ _ _ _ _ _ => exact absurd rfl (hend i)
      | quiet =>
          refine .within ?_ fun _ => Iff.rfl
          rw [callState_of_call hcall]
          exact Phase.callState_afterPass ph
  | @panic p e proto hlock hrun =>
      have hpass := pass_of_run hs hself hclone hsound htrue hlock hrun
      cases hpass with
      | guardFault _ _ => exact .same (fun _ => Iff.rfl) rfl rfl
  | expire hcall _ => exact .within (callState_of_call hcall).symm fun _ => Iff.rfl
  | @withdraw p _ _ _ _ _ =>
      refine .idle rfl (fun _ => Iff.rfl) fun hlp => ?_
      show (s.proto.setReady p false).w.active.ready.test l = _
      rw [ready_setReady, if_neg hlp]
  | tooLate hcall _ hready =>
      rw [setReady_false_of_not_ready hready]
      exact .within (callState_of_call hcall).symm fun _ => Iff.rfl
  | putReturn | receive | acquire | getReturn =>
      exact .idle rfl (fun _ => Iff.rfl) fun _ => rfl
  | finalizePort _ _ hrun =>
      obtain rfl := ok_of_send hrun
      exact .idle rfl (fun _ => Iff.rfl) fun _ => rfl
  | @finalizeCell p c q m go out sp proto hcall hfree hspace hrun =>
      obtain ⟨v, u, rfl, rfl, -, hemptied, -⟩ := emptied_of_finalize hs hsound hk hcall hspace hrun
      by_cases hlq : l = q
      · -- the cell itself makes no calls
        subst hlq
        have hidle : s.callState l = .idle := (hsound.cell (l := l) hspace).1
        refine .ended ?_
        rw [callState_setCall]
        by_cases hlp : l = p
        · rw [hlp, Function.update_self]
          rfl
        · rw [Function.update_of_ne hlp]
          exact hidle
      · refine .idle rfl (fun _ => Iff.rfl) fun _ => ?_
        rw [ready_setReady, if_neg hlq, hemptied.ready, decide_eq_false hlq, Bool.false_or]

/-- The readiness of a call says whether it was fired. -/
structure Recorded (P : Proto D) (h : List (Act D)) (s : Ports D) : Prop where
  entering : ∀ p, s.callState p = .entering → ¬ FiredSince P p h
  waiting : ∀ p, s.callState p = .waiting →
    (s.proto.w.active.ready.test p = true ↔ ¬ FiredSince P p h)

theorem Recorded.step {h : List (Act D)} (hprev : Recorded P h s) {a : Act D}
    (hready : ∀ l, ReadyStep P s a t l) : Recorded P (a :: h) t := by
  refine ⟨fun p hp hfired => ?_, fun p hp => ?_⟩
  · cases hready p with
    | began ha _ =>
        subst ha
        exact hfired.1 rfl
    | entered _ _ hcall _ | fired _ _ hcall _ => cases hp.symm.trans hcall
    | ended hcall => cases hp.symm.trans hcall
    | same ha hcall _ => exact hprev.entering p (hcall.symm.trans hp) ((ha _).1 hfired)
  · cases hready p with
    | began _ hcall => cases hp.symm.trans hcall
    | entered ha hwas _ hset =>
        subst ha
        exact iff_of_true hset (hprev.entering p hwas)
    | fired ha hinv _ hclear =>
        subst ha
        exact iff_of_false (fun hset => by cases hset.symm.trans hclear)
          fun hnot => hnot (.inl hinv)
    | ended hcall => cases hp.symm.trans hcall
    | same ha hcall hsame =>
        rw [hsame, hprev.waiting p (hcall.symm.trans hp)]
        exact not_congr (ha _).symm

/-! ## The handshake -/

/-- Exactly one `finalize` of a put is to come: from the last of the getters
that are to count down, or from the one that was the last. -/
inductive FinalizeDue (s : Ports D) (q : LocId) : Prop where
  | counting {sp : PutterSpace D} {b : MsgDropbox} (hspace : s.proto.getSpace q = some (.poPu sp b))
      (hpos : 0 < sp.clonerCountdown)
      (hcount : Count.upTo s.proto.r.spaces.length (s.pends q) = sp.clonerCountdown)
      (hnobody : ∀ g, s.acquiringAt AcquirePc.lastOut q g = false)
  | last {g : LocId} (hlast : s.acquiringAt AcquirePc.lastOut q g = true)
      (honly : ∀ g', s.acquiringAt AcquirePc.lastOut q g' = true → g' = g)
      (hnobody : ∀ g', s.pends q g' = false)

/-- Where the message of a call is whose readiness is spent. -/
inductive Settled (s : Ports D) (p : LocId) (x : Active D) : Prop where
  | boxed {m : Nat} (hbox : s.proto.getDropbox p = some ⟨some m⟩)
  | received {q : LocId} (hphase : (∃ pc, x.phase = .acquiring q pc) ∨ x.phase = .finalizing q)
  | due {v : Datum D} (hput : x.call.datum = some v) (hbox : s.proto.getDropbox p = some ⟨none⟩)
      (hdue : FinalizeDue s p)

structure Handshake (P : Proto D) (moves : Transfers D) (h : List (Act D)) (s : Ports D) :
    Prop where
  message : ∀ p m, s.proto.getDropbox p = some ⟨some m⟩ →
    s.proto.w.active.ready.test p = false ∧
      ∃ x, s.calls p = some x ∧ x.phase.callState = .waiting
  pass : s.holder ≠ none → ∃ fin t, exhaustPass.run s.proto = .ok fin t
  finalize : ∀ g c q m out, s.calls g = some ⟨c, .acquiring q (.finalize m), out⟩ →
    (∃ sp t, s.proto.getSpace q = some (.poPu sp .new) ∧
        (finalizePoPu q m).run s.proto = .ok () t) ∨
      ∃ sp t, s.proto.getSpace q = some (.memo sp) ∧ (finalizeMemo q m).run s.proto = .ok true t
  timeout : ∀ p d t, Step moves s (.ret p (.timeout d)) t →
    ¬ FiredSince P p h ∧ s.proto.getDropbox p = some ⟨none⟩ ∧ t.proto.getDropbox p = some ⟨none⟩
  spent : ∀ p x, s.calls p = some x → FiredSince P p h → Settled s p x

/-- A getter of the system has a place among its spaces. -/
theorem Kept.lt_of_acquiringAt (h : Kept s owed) {which : AcquirePc → Bool} {q g : LocId}
    (hg : s.acquiringAt which q g = true) : g < s.proto.r.spaces.length := by
  rw [acquiringAt] at hg
  split at hg
  · next x hx => exact (h.fits g x hx).lt
  · cases hg

theorem Kept.lt_of_pends (h : Kept s owed) {q g : LocId} (hg : s.pends q g = true) :
    g < s.proto.r.spaces.length := by
  rcases Bool.or_eq_true_iff.1 hg with hg | hg
  · exact lt_of_told hg
  · exact h.lt_of_acquiringAt hg

/-- A port that is owed for is owed by its getters. -/
theorem Kept.finalizeDue (h : Kept s owed) {q : LocId} {sp : PutterSpace D} {b : MsgDropbox}
    (hspace : s.proto.getSpace q = some (.poPu sp b)) (howed : owed q = 1) :
    FinalizeDue s q := by
  obtain ⟨hcount, hduty, hmoving⟩ := h.books q _ (counters_of_source hspace rfl)
  have hsema : sp.moverSema = 0 := (hmoving rfl).1
  have hcount : sp.clonerCountdown = Count.upTo s.proto.r.spaces.length (s.pends q) := hcount
  have hduty : Count.upTo s.proto.r.spaces.length (s.acquiringAt AcquirePc.lastOut q) +
      sp.moverSema + (if 0 < sp.clonerCountdown then 1 else 0) = owed q := hduty
  rw [hsema, howed] at hduty
  by_cases hpos : 0 < sp.clonerCountdown
  · rw [if_pos hpos] at hduty
    refine .counting hspace hpos hcount.symm fun g => ?_
    rw [Bool.eq_false_iff]
    intro hg
    have := Count.upTo_pos (h.lt_of_acquiringAt hg) hg
    omega
  · rw [if_neg hpos] at hduty
    obtain ⟨g, -, hg⟩ := Count.exists_of_upTo_pos (n := s.proto.r.spaces.length)
      (f := s.acquiringAt AcquirePc.lastOut q) (by omega)
    refine .last hg (fun g' hg' => ?_) fun g' => ?_
    · exact Count.eq_of_upTo_le_one (by omega) (h.lt_of_acquiringAt hg')
        (h.lt_of_acquiringAt hg) hg' hg
    · rw [Bool.eq_false_iff]
      intro hg'
      have := Count.upTo_pos (h.lt_of_pends hg') hg'
      omega

theorem PortCall.putAnswer_ne_timeout (c : PortCall D) (moved : Bool) (d : Option (Datum D)) :
    c.putAnswer moved ≠ .timeout d := by
  cases moved with
  | true => simp [PortCall.putAnswer]
  | false => cases c <;> simp [PortCall.putAnswer]

/-- A call times out by withdrawing its readiness. -/
theorem Step.timed_out {p : LocId} {d : Option (Datum D)}
    (hstep : Step moves s (.ret p (.timeout d)) t) : ∃ c out,
      s.calls p = some ⟨c, .expired, out⟩ ∧ s.proto.w.active.ready.test p = true ∧
        t = { s with proto := (s.proto.setReady p false).endCall p
                     dropped := c.timeoutDrops ++ s.dropped }.setCall p none := by
  generalize ha : Act.ret p (.timeout d) = a at hstep
  cases hstep with
  | @withdraw p' c out hcall _ hready =>
      obtain ⟨rfl, -⟩ := Act.ret.inj ha
      exact ⟨c, out, hcall, hready, rfl⟩
  | @putReturn _ c _ _ _ _ moved =>
      exact absurd (Act.ret.inj ha).2.symm (PortCall.putAnswer_ne_timeout c moved d)
  | getReturn _ => cases (Act.ret.inj ha).2
  | callPut | callGet | enter | fire | leave | panic | expire | tooLate | receive | acquire
  | finalizePort | finalizeCell => cases ha

/-- In every run of the ports, whatever the transfers do, of a protocol in one
chunk with empty memory, no action that puts to itself and guards that read
memory bits only. -/
theorem handshake (P : Proto D) {heap : Heap D} {b : Build D} {s₀ : ProtoAll D}
    (hfin : (finish P).run (.new heap) = .ok s₀ b) (hpos : 1 ≤ maxLocId P.typelessProtoDef)
    (hle : maxLocId P.typelessProtoDef ≤ 63) (hun : Uninitialized P) (hself : NoSelfPut P)
    (hclone : FanOutClones P)
    (hguards : ∀ r ∈ P.typelessProtoDef.behaviour.rules, r.guard.bitsOnly = true)
    {moves : Transfers D} {h : List (Act D)} {t : Ports D}
    (hrun : Run.Reach (Step moves) (start s₀) h t) : Handshake P moves h t := by
  have hall : ∀ {k : List (Act D)} {u : Ports D}, Run.Reach (Step moves) (start s₀) k u →
      ∃ infos owed, Standing P infos u.proto ∧ Sound (u.coordination owed) ∧ BitsTrue u.proto ∧
        (u.holder.isSome = true → Truthful P u.proto) ∧ Kept u owed :=
    fun hu => reach_kept hun hself hclone hpos hle hfin hu
  have hrecorded : Recorded P h t := by
    refine hrun.invariant (P := Recorded P) ⟨fun _ _ => id, fun p hp => by cases hp⟩ ?_
    intro k u a v hu hprev hstep
    obtain ⟨infos, owed, hs, hsound, -, htrue, hk⟩ := hall hu
    exact hprev.step (hstep.ready hs hself hclone hsound htrue hk)
  obtain ⟨infos, owed, hs, hsound, -, htrue, hk⟩ := hall hrun
  refine ⟨?_, ?_, ?_, ?_, ?_⟩
  · intro p m hbox
    cases hsound.ofDropbox (l := p) hbox with
    | outside _ _ h₃ _ | pending _ _ h₃ _ | served _ _ h₃ _ => cases h₃
    | told hcall hready _ _ =>
        have hcall : t.callState p = .waiting := hcall
        refine ⟨hready, ?_⟩
        rw [callState] at hcall
        cases hx : t.calls p with
        | none =>
            rw [hx] at hcall
            cases hcall
        | some x =>
            rw [hx] at hcall
            exact ⟨x, rfl, hcall⟩
  · intro hheld
    have hholds : t.holder.isSome = true := Option.isSome_iff_ne_none.2 hheld
    have hpass := hsound.pass hs hself hclone (htrue hholds)
    cases hran : exhaustPass.run t.proto with
    | ok fin u => exact ⟨fin, u, rfl⟩
    | error e u =>
        rw [show exhaustPass.run (t.coordination owed).proto = _ from hran] at hpass
        cases hpass with
        | @guardFault i rule _ hrule hguard =>
            obtain ⟨r, hr, henc⟩ := hs.rule_at hrule
            obtain ⟨x, hx⟩ := exists_evalFormula (s := t.proto) rule.guardPred
              (henc.guardPred ▸ hguards r hr)
            cases hx.symm.trans hguard
  · intro g c q m out hcall
    cases hk.fits g _ hcall with
    | putter _ _ hphase => exact absurd rfl hphase
    | getter _ _ hsource =>
        rcases (hsource q rfl).cases with ⟨sp, b, hsp⟩ | ⟨sp, hsp⟩
        · left
          have howed := hk.owed_of_finalize hcall hsp rfl
          cases (hsound.putter (l := q) hsp).1 with
          | outside _ _ _ h₄ | pending _ _ _ h₄ | told _ _ _ h₄ =>
              exact absurd h₄ (Nat.pos_iff_ne_zero.1 howed)
          | served _ _ hbox _ =>
              obtain ⟨slot⟩ := b
              cases hbox
              have hbox : t.proto.getDropbox q = some ⟨none⟩ := getDropbox_eq hsp
              exact ⟨sp, _, hsp, run_send _ hbox rfl⟩
        · right
          have howed := hk.owed_of_finalize hcall hsp rfl
          obtain ⟨v, u, -, hran, -⟩ := hsound.finalizeMemo_ok hs (p := q) howed hsp m
          exact ⟨sp, _, hsp, hran⟩
  · intro p d u hstep
    obtain ⟨c, out, hcall, hready, rfl⟩ := hstep.timed_out
    have hwait : t.callState p = .waiting := callState_of_call hcall
    obtain ⟨b, hb, -⟩ := hsound.port (l := p) (show t.callState p ≠ .idle by rw [hwait]; simp)
    obtain ⟨rfl, -⟩ := hsound.dropbox hb hready
    exact ⟨(hrecorded.waiting p hwait).1 hready, hb, hb⟩
  · intro p x hx hfired
    cases hcall : t.callState p with
    | entering => exact absurd hfired (hrecorded.entering p hcall)
    | waiting =>
        have hspent : t.proto.w.active.ready.test p = false := by
          rw [Bool.eq_false_iff]
          exact fun hready => (hrecorded.waiting p hcall).1 hready hfired
        obtain ⟨b, hb, hstatus⟩ :=
          hsound.port (l := p) (show t.callState p ≠ .idle by rw [hcall]; simp)
        cases hstatus with
        | outside hnot _ _ _ => exact absurd hcall hnot
        | pending _ hready _ _ => cases hspent.symm.trans hready
        | told _ _ hbox _ =>
            obtain ⟨slot⟩ := b
            cases hbox
            exact .boxed hb
        | served _ _ hbox howed =>
            obtain ⟨slot⟩ := b
            cases hbox
            cases hk.fits p x hx with
            | putter hput _ _ =>
                obtain ⟨sp, b', hsp⟩ := (hk.fits p x hx).isPutter hput
                exact .due hput hb (hk.finalizeDue hsp howed)
            | getter hget _ _ =>
                obtain ⟨b', hsp⟩ := (hk.fits p x hx).isGetter hget
                have hzero := (hsound.getter (l := p) hsp).2
                cases hzero.symm.trans howed
    | idle =>
        rw [callState, hx] at hcall
        obtain ⟨c, ph, out⟩ := x
        cases ph with
        | acquiring q pc => exact .received (.inl ⟨pc, rfl⟩)
        | finalizing q => exact .received (.inr rfl)
        | entering | coordinating | awaiting | expired | late => cases hcall

end Ports

/-! ## A timed put at a channel -/

/-- A timed put at a fresh channel gets as far as the scan of the rules. -/
theorem channel_reach_enter : ∃ s b t, (finish (channel 1)).run (.new .empty) = .ok s b ∧
    Run.Reach (Ports.Step .actual) (.start s) [.enter 0, .call 0 (.putTimeout (.data 7))] t ∧
      t.holder = some 0 := by
  obtain ⟨s, b, hfin⟩ := finish_channel (g := 1) (by decide)
  obtain ⟨infos, hs⟩ := (built_of_finish hfin).standing
  obtain ⟨sp, b', hsp, -⟩ := hs.shaped.isPutter (l := 0)
    (by rw [channel_lookup, if_neg (by decide), if_pos rfl])
  have hcall : Ports.Step .actual (.start s) (.call 0 (.putTimeout (.data 7))) _ :=
    .callPut (b := b') rfl hsp rfl
  have hready : (readySet 0).run (s.offer 0 (.data 7)) =
      .ok true ((s.offer 0 (.data 7)).setReady 0 true) :=
    run_readySet ((frame_offer s 0 (.data 7)).ungrouped hs.ungrouped) 0
  have henter : Ports.Step .actual _ (.enter 0) _ := .enter
    (s := ({ (Ports.start s) with proto := s.offer 0 (.data 7) }.setCall 0
      (some ⟨.putTimeout (.data 7), .entering, none⟩)))
    (Ports.calls_setCall_self _ 0 _) rfl hready
  exact ⟨s, b, _, hfin, (Run.Reach.single hcall).tail henter, rfl⟩

/-! ## A put into a cell -/

/-- The put fills the cell, and is told that its datum was moved. -/
theorem link_put_moved {c : PortCall Nat} {v : Datum Nat} (hdatum : c.datum = some v) : ∃ s b t,
    (tryInstantiate (link .memUninitialized .true 1)).run (.new .empty) = .ok s b ∧
    Run.Reach (Ports.Step .actual) (.start s) [.leave 0, .fire 0 0, .enter 0, .call 0 c] t ∧
    (∀ p, p ≠ 0 → t.calls p = none) ∧ t.calls 0 = some ⟨c, .awaiting, none⟩ ∧
    t.proto.getDropbox 0 = some ⟨some 1⟩ := by
  have hun := link_uninitialized .memUninitialized .true (g := 1) (by decide)
  obtain ⟨s, b, hfin⟩ := finish_link .memUninitialized .true (g := 1) (by decide) rfl (by decide)
    rfl
  have hinst : (tryInstantiate (link .memUninitialized .true 1)).run (.new .empty) = .ok s b := by
    rw [tryInstantiate_of_uninitialized hun, hfin]
  have hlookup : (link .memUninitialized .true 1).typelessProtoDef.locKinds.lookup 0 =
      some .portPutter := by
    rw [link_lookup, if_neg (by decide), if_pos rfl]
  have hkept := fun {h : List (Ports.Act Nat)} {t : Ports Nat}
      (hrun : Run.Reach (Ports.Step .actual) (.start s) h t) =>
    Ports.reach_kept hun (link_noSelfPut _ _ (by decide)) (link_fanOutClones _ _ 1) (by decide)
      (by decide) hfin hrun
  obtain ⟨infos, hs⟩ := (built_of_finish hfin).standing
  obtain ⟨run, hrule⟩ : ∃ run, s.r.rules[0]? = some run :=
    ⟨_, List.getElem?_eq_getElem (hs.rules.length_eq ▸ Nat.zero_lt_one)⟩
  obtain ⟨sp, b', hsp, -⟩ := hs.shaped.isPutter hlookup
  -- the call arrives
  obtain ⟨u, hreach, hholder, hidle, hcall, hproto⟩ : ∃ u, Run.Reach (Ports.Step .actual) (.start s)
      [.enter 0, .call 0 c] u ∧ u.holder = some 0 ∧
      (∀ p, p ≠ 0 → u.calls p = none) ∧
      u.calls 0 = some ⟨c, .coordinating, none⟩ ∧
      u.proto = (s.offer 0 v).setReady 0 true := by
    have hcall : Ports.Step .actual (.start s) (.call 0 c) _ :=
      .callPut (b := b') rfl hsp hdatum
    have henter : Ports.Step .actual _ (.enter 0) _ := .enter
      (s := ({ (Ports.start s) with proto := s.offer 0 v }.setCall 0
        (some ⟨c, .entering, none⟩)))
      (Ports.calls_setCall_self _ 0 _) rfl
      (run_readySet ((frame_offer s 0 v).ungrouped hs.ungrouped) 0)
    refine ⟨_, (Run.Reach.single hcall).tail henter, rfl, fun p hp => ?_,
      Ports.calls_setCall_self _ 0 _, rfl⟩
    exact (Function.update_of_ne hp _ _).trans (Function.update_of_ne hp _ _)
  -- its pass fires the rule
  obtain ⟨infos₁, owed₁, hs₁, hsound₁, -, htrue₁, -⟩ := hkept hreach
  obtain ⟨sp₁, b₁, hsp₁, -⟩ := hs₁.shaped.isPutter hlookup
  have htrue₁ := htrue₁ (by rw [hholder]; rfl)
  rcases link_pass hs₁ hsound₁ htrue₁ with ⟨-, hnone⟩ | ⟨run₁, t, hpass, hacts, hf⟩
  · have hready := link_isReady .true hfin hrule
    rw [show (u.coordination owed₁).proto = _ from hproto] at hnone
    cases (hnone run (List.mem_of_getElem? hrule)).symm.trans hready
  have hbox := (link_fired hacts hf hsp₁).2
  have hreach₁ := hreach.tail (.fire hholder hpass)
  -- and the next one does nothing, because the putter has its message
  obtain ⟨infos₂, owed₂, hs₂, hsound₂, -, htrue₂, -⟩ := hkept hreach₁
  obtain ⟨sp₂, b₂, hsp₂, -⟩ := hs₂.shaped.isPutter hlookup
  have htrue₂ := htrue₂ (show u.holder.isSome = true by rw [hholder]; rfl)
  have hbox₂ : b₂ = ⟨some 1⟩ := by
    rw [show t.getDropbox 0 = some b₂ by rw [ProtoAll.getDropbox, hsp₂]; rfl] at hbox
    exact Option.some.inj hbox
  rcases link_pass hs₂ hsound₂ htrue₂ with ⟨hquiet, -⟩ | ⟨run₂, v, -, hacts₂, hf₂⟩
  · refine ⟨s, b, _, hinst, hreach₁.tail (.leave hholder hcall (by simp) hquiet), fun p hp => ?_,
      Ports.calls_setCall_self _ 0 _, hbox⟩
    exact (Function.update_of_ne hp _ _).trans (hidle p hp)
  · cases ((link_fired hacts₂ hf₂ hsp₂).1).symm.trans hbox₂

/-- The putter has its message, and has not received it yet. -/
theorem handshake_link : ∃ s b h t,
    (finish (link .memUninitialized .true 1)).run (.new .empty) = .ok s b ∧
    Run.Reach (Ports.Step .actual) (.start s) h t ∧ Ports.FiredSince
      (link .memUninitialized .true 1) 0 h ∧ t.proto.getDropbox 0 = some ⟨some 1⟩ ∧
    Ports.Handshake (link .memUninitialized .true 1) .actual h t := by
  obtain ⟨s, b, t, hinst, hrun, -, -, hbox⟩ := link_put_moved (c := .put (.data 7)) rfl
  obtain ⟨hun, hfin⟩ := finish_of_tryInstantiate hinst
  refine ⟨s, b, _, t, hfin, hrun, ?_, hbox, ?_⟩
  · exact .inl ⟨_, rfl, _, List.mem_singleton_self _, .inl rfl⟩
  · exact Ports.handshake (link .memUninitialized .true 1) hfin (by decide) (by decide) hun
      (link_noSelfPut .memUninitialized .true (by decide))
      (link_fanOutClones .memUninitialized .true 1)
      (fun r hr => by rw [List.mem_singleton.1 hr]; rfl) hrun

end ReoRs
