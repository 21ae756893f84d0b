import ReoRs.Proofs.Tracking
import ReoRs.Proofs.Settling

/-!
# Nothing is left undone

The ports do no more than the automaton allows, and this module is about their
doing no less. When all threads have done what they can, the lock is free and
everyone who is still in a call waits in `recv` without a timeout. Every call
whose rule has fired has returned, since some getter would have a step to make
otherwise: the hand-off of a single getter cannot get stuck. And no rule could
fire. The scan before the lock was last released found none, and less is ready
now than was then; that a scan finds what the automaton could fire is what the
memory bits are for.
-/

namespace ReoRs

variable {D : Type}

open ProtoAll Coordination

/-! ## Who has a step to make -/

theorem Heap.read_null (heap : Heap D) : heap.read .null = none := rfl

/-- A getter on its way, short of its `finalize`, has an atomic operation to
make, and a transfer it makes does not fail. -/
theorem Underway.exists_step {heap : Heap D} {sp : PutterSpace D} {wants : Bool} {pc : AcquirePc}
    {out r : Option (Datum D)} (h : Underway heap sp wants pc out r) (kind : SourceKind)
    (hpc : ∀ m, pc ≠ .finalize m) : ∃ acq v, acquireStep kind sp pc = some acq ∧
      ∀ t, acq.transfer = some t → Transfers.actual sp.typeInfo heap t v := by
  have hcopied : wants = true → pc.delivered = false →
      Transfers.actual sp.typeInfo heap (.copied sp.ptr) (heap.read sp.ptr) := by
    intro hw hd
    obtain ⟨hread, hsome, -⟩ := h.offer hw hd
    rw [Transfers.actual, Transfer.value, TypeInfo.copied, if_neg]
    rintro ⟨hnull, -⟩
    rw [hnull, Heap.read_null] at hread
    exact hsome hread.symm
  have htrack := h.track
  cases pc with
  | copyData =>
      refine ⟨_, heap.read sp.ptr, rfl, ?_⟩
      rintro t ⟨⟩
      exact hcopied htrack.1 rfl
  | winnerMove =>
      refine ⟨_, heap.read sp.ptr, rfl, ?_⟩
      rintro t ⟨⟩
      exact hcopied htrack rfl
  | storeMoved | copyCountdown | loadMoved | askMove | winnerCountdown | signalCountdown
  | signalAsk => exact ⟨_, none, rfl, by rintro t ⟨⟩⟩
  | finalize m => exact absurd rfl (hpc m)
  | winnerWait | loserClone | loserCountdown | release | returned => exact htrack.elim

namespace Ports

variable {P : Proto D} {infos : HashMap TypeId (TypeInfo D)} {s t : Ports D}
  {owed : LocId → Nat} {A : Automaton D} {q g p : LocId} {kind : SourceKind}
  {sp : PutterSpace D}

/-- Where nobody has a permit, a source that is owed a `finalize` has a getter
at work. -/
theorem Kept.exists_serving (h : Kept s owed) (hpermits : NoPermits s.proto)
    (hfrom : Handing s.proto q kind sp) (howed : 0 < owed q) : ∃ g, s.Serving q g := by
  obtain ⟨space, hspace, hsource⟩ := hfrom
  have hc := counters_of_source hspace hsource
  obtain ⟨hcount, hduty, -⟩ := h.books q _ hc
  have hzero := hpermits q _ hc
  rw [hzero] at hduty
  by_cases hpos : 0 < (countersOf kind sp).countdown
  · rw [hcount] at hpos
    obtain ⟨g, -, hg⟩ := Count.exists_of_upTo_pos hpos
    exact ⟨g, .inl hg⟩
  · rw [if_neg hpos] at hduty
    obtain ⟨g, -, hg⟩ := Count.exists_of_upTo_pos (n := s.proto.r.spaces.length)
      (f := s.acquiringAt AcquirePc.lastOut q) (by omega)
    exact ⟨g, .inr hg⟩

section

variable (h : Tracked P infos owed A s) (hrest : Resting .actual s)
include h hrest

/-- Whoever has the lock goes on. -/
theorem Tracked.free : s.holder = none := by
  cases hlock : s.holder with
  | none => rfl
  | some p =>
      have hholds := (h.holder p).1 hlock
      rw [Option.any_eq_true] at hholds
      obtain ⟨x, hx, -⟩ := hholds
      cases hran : exhaustPass.run s.proto with
      | error e t => cases hrest _ _ (.panic hlock hran)
      | ok fin t =>
          by_cases hend : ∃ i, fin = .fired i
          · obtain ⟨i, rfl⟩ := hend
            cases hrest _ _ (.fire hlock hran)
          · cases hrest _ _ (.leave hlock hx (fun i hi => hend ⟨i, hi⟩) hran)

/-- A call in `acquire_data` goes on. -/
theorem Tracked.not_acquiring {c : PortCall D} {pc : AcquirePc} {out : Option (Datum D)} :
    s.calls p ≠ some ⟨c, .acquiring q pc, out⟩ := by
  intro hcall
  rcases (h.matched.ports p).of_acquiring h.kept h.sound hcall with
    ⟨kind, sp, r, hfrom, -, hway⟩ | ⟨rfl, -⟩
  · by_cases hpc : ∃ m, pc = .finalize m
    · obtain ⟨m, rfl⟩ := hpc
      have hserves := serving_of_track hcall hway.track
      have hport := (h.kept.served h.sound hfrom hserves).2.2
      rcases hfrom.cases with ⟨hkind, b, hsp⟩ | ⟨-, hsp⟩
      · have hran := run_send (if m then 1 else 0) (hport hkind).2 rfl
        cases hrest _ _ (.finalizePort hcall hsp hran)
      · obtain ⟨v, u, -, hran, -⟩ :=
          h.sound.finalizeMemo_ok h.standing (h.kept.owed_of_finalize hcall hsp rfl) hsp m
        cases hrest _ _ (.finalizeCell hcall (h.free hrest) hsp hran)
    · obtain ⟨acq, v, hstep, hmoves⟩ := hway.exists_step kind fun m hm => hpc ⟨m, hm⟩
      obtain ⟨space, hspace, hsource⟩ := hfrom
      cases hrest _ _ (.acquire hcall hspace hsource hstep hmoves)
  · cases hrest _ _ (.getReturn hcall)

theorem Tracked.phases {x : Active D} (hx : s.calls p = some x) :
    x.phase = .awaiting ∧ x.call.timed = false ∨ x.phase = .late := by
  have hfree := h.free hrest
  have hnot : x.phase.holds = false := by
    rw [Bool.eq_false_iff]
    intro hholds
    have hlock := (h.holder p).2 (by rw [hx]; exact hholds)
    cases hfree.symm.trans hlock
  obtain ⟨c, ph, out⟩ := x
  cases ph with
  | entering => cases hrest _ _ (.enter hx hfree (run_readySet h.standing.ungrouped p))
  | coordinating | finalizing q => cases hnot
  | awaiting =>
      refine .inl ⟨rfl, Bool.eq_false_iff.2 fun htimed => ?_⟩
      cases hrest _ _ (.expire hx htimed)
  | expired =>
      cases hready : s.proto.w.active.ready.test p with
      | true => cases hrest _ _ (.withdraw hx hfree hready)
      | false => cases hrest _ _ (.tooLate hx hfree hready)
  | late => exact .inr rfl
  | acquiring q pc => exact absurd hx (h.not_acquiring hrest)

theorem Tracked.receives {x : Active D} (hx : s.calls p = some x) : x.phase.receives = true := by
  rcases h.phases hrest hx with ⟨hph, -⟩ | hph
  · rw [hph]
    rfl
  · rw [hph]
    rfl

/-- A message is received. -/
theorem Tracked.unboxed {x : Active D} (hx : s.calls p = some x) {b : MsgDropbox}
    (hb : s.proto.getDropbox p = some b) : b.slot = none := by
  have hreceives := h.receives hrest hx
  have hp := h.matched.ports p
  generalize A.ports p = y at hp
  cases hp with
  | idle hc => cases hx.symm.trans hc
  | pending _ hwait _ => exact (unboxed_of_fresh h.sound hwait hb).1
  | told hc hput hmsg hmoved =>
      cases hx.symm.trans hc
      cases hrest _ _ (.putReturn hc hreceives hput hmsg hmoved)
  | served _ _ _ _ hmsg _ =>
      cases hb.symm.trans hmsg
      rfl
  | @called c ph q kind sp r hc htold hfrom _ =>
      cases hx.symm.trans hc
      have hspace' := told_eq_true.1 htold
      obtain ⟨space, hspace, hsource⟩ := hfrom
      have hget : c.datum = none := by
        cases hput : c.datum with
        | none => rfl
        | some v =>
            obtain ⟨sp, b', hsp⟩ := (h.kept.fits p _ hc).isPutter hput
            cases hsp.symm.trans hspace'
      cases hrest _ _ (.receive hc hreceives hget (boxed_of_told h.sound htold).2.2 hspace hsource)
  | acquiring hc _ _ => exact absurd hc (h.not_acquiring hrest)
  | finished hc hph =>
      rcases hph with rfl | rfl
      · cases hx.symm.trans hc
        cases hreceives
      · exact absurd hc (h.not_acquiring hrest)

theorem Tracked.not_serving : ¬ s.Serving q g := by
  have hat : ∀ which, s.acquiringAt which q g = false := by
    intro which
    rw [Bool.eq_false_iff]
    intro hg
    rw [acquiringAt] at hg
    split at hg
    · next x hx =>
        obtain ⟨c, ph, out⟩ := x
        cases ph with
        | acquiring q' pc => exact h.not_acquiring hrest hx
        | entering | coordinating | awaiting | expired | late | finalizing q' => cases hg
    · cases hg
  rintro (hg | hg)
  · rcases Bool.or_eq_true_iff.1 hg with htold | hg
    · obtain ⟨hwait, -, hbox⟩ := boxed_of_told h.sound htold
      cases hx : s.calls g with
      | none =>
          rw [callState, hx] at hwait
          cases hwait
      | some x => cases h.unboxed hrest hx hbox
    · cases hg.symm.trans (hat _)
  · cases hg.symm.trans (hat _)

theorem Tracked.owed_eq_zero (hfrom : Handing s.proto q kind sp) : owed q = 0 := by
  by_contra hne
  obtain ⟨g, hg⟩ := h.kept.exists_serving h.permits hfrom (Nat.pos_of_ne_zero hne)
  exact h.not_serving hrest hg

/-- A call that has not returned has not been fired. -/
theorem Tracked.ready {x : Active D} (hx : s.calls p = some x) :
    s.proto.w.active.ready.test p = true := by
  have hwait : s.callState p = .waiting := by
    rw [callState, hx]
    exact Phase.callState_of_receives (h.receives hrest hx)
  obtain ⟨b, hb, hstatus⟩ :=
    h.sound.port (l := p) (show s.callState p ≠ .idle by rw [hwait]; simp)
  cases hstatus with
  | outside hnot _ _ _ => exact absurd hwait hnot
  | pending _ hready _ _ => exact hready
  | told _ _ hbox _ => cases (h.unboxed hrest hx hb).symm.trans hbox
  | served _ _ _ howed =>
      cases h.kept.fits p x hx with
      | putter hput _ _ =>
          obtain ⟨sp, b', hsp⟩ := (h.kept.fits p x hx).isPutter hput
          cases (h.owed_eq_zero hrest ⟨_, hsp, rfl⟩).symm.trans howed
      | getter hget _ _ =>
          obtain ⟨b', hsp⟩ := (h.kept.fits p x hx).isGetter hget
          cases (h.sound.getter (l := p) hsp).2.symm.trans howed

/-- All cells are at rest. -/
theorem Tracked.resting (hspace : s.proto.getSpace q = some (.memo sp)) :
    s.proto.w.active.ready.test q = true := by
  cases (h.sound.cell (l := q) hspace).2 with
  | resting hready _ => exact hready
  | served _ hone _ => cases (h.owed_eq_zero hrest ⟨_, hspace, rfl⟩).symm.trans hone

/-- A call that has not returned is pending. -/
theorem Tracked.pending {x : Active D} (hx : s.calls p = some x) :
    A.ports p = .pending x.call := by
  have hwait : s.callState p = .waiting := by
    rw [callState, hx]
    exact Phase.callState_of_receives (h.receives hrest hx)
  obtain ⟨b, hb, -⟩ := h.sound.port (l := p) (show s.callState p ≠ .idle by rw [hwait]; simp)
  exact ((h.matched.ports p).of_fresh h.sound (.inr (h.ready hrest hx)) hx hb).1

/-- A port that is pending in the automaton is ready. -/
theorem Tracked.ready_of_pending {c : PortCall D} (hp : A.ports p = .pending c) :
    s.proto.w.active.ready.test p = true := by
  cases hx : s.calls p with
  | some x => exact h.ready hrest hx
  | none =>
      have hidle := (h.matched.ports p).of_idle hx
      cases hidle.symm.trans hp

/-- The memory bit of a cell at rest says whether it has a value. -/
theorem Tracked.memoryBit_iff (hspace : s.proto.getSpace q = some (.memo sp)) :
    s.proto.w.memoryBits.test q = true ↔ A.cells q ≠ none := by
  have hready := h.resting hrest hspace
  rw [h.bits q sp hspace, and_iff_right hready, h.matched.cells, atRest, if_pos hready]
  by_cases hnull : sp.ptr = .null
  · refine iff_of_false (fun hne => hne hnull) fun hfull => hfull ?_
    cases hheld : s.proto.held q with
    | none => rfl
    | some r =>
        obtain ⟨hne, sp', hsp', rfl⟩ := held_memo_iff.1 hheld
        cases hspace.symm.trans hsp'
        exact absurd hnull hne
  · have hheld := held_of_memo hspace hnull
    obtain ⟨v, hv⟩ := h.sound.coherent.full q _ hheld
    have hv : s.proto.heap.read sp.ptr = some v := hv
    rw [hheld, Option.bind_some, hv]
    exact iff_of_true hnull (by simp)

/-- What the automaton could fire finds its locations as it needs them. -/
theorem Tracked.met {r : RuleDef}
    (henabled : A.Enabled P.typelessProtoDef.locKinds r.actions) :
    MayFire P.typelessProtoDef.locKinds r.actions s.proto.w.memoryBits
      s.proto.w.active.ready := by
  have hshaped := h.standing.shaped
  have hready : ∀ l, involved r.actions l → s.proto.w.active.ready.test l = true := by
    rintro l ⟨a, ha, hl⟩
    cases hmem : isMemLoc P.typelessProtoDef.locKinds l with
    | true =>
        obtain ⟨sp, hsp, -⟩ := hshaped.isCell hmem
        exact h.resting hrest hsp
    | false =>
        obtain ⟨hput, hgets⟩ := henabled a ha
        rcases hl with rfl | hg
        · obtain ⟨c, v, hp, -⟩ := Automaton.exists_of_offered hmem hput
          exact h.ready_of_pending hrest hp
        · obtain ⟨c, hp, -⟩ := (Automaton.accepts_port hmem).1 (hgets l hg)
          exact h.ready_of_pending hrest hp
  refine fun l hl => ⟨hready l hl, fun hmem hput => ?_, fun hmem hget => ?_⟩
  · obtain ⟨a, ha, rfl⟩ := hput
    obtain ⟨sp, hsp, -⟩ := hshaped.isCell hmem
    have hoffered := (henabled a ha).1
    rw [Automaton.offered_cell hmem] at hoffered
    exact (h.memoryBit_iff hrest hsp).2 hoffered
  · obtain ⟨a, ha, hg, -⟩ := hget
    obtain ⟨sp, hsp, -⟩ := hshaped.isCell hmem
    have haccepts := (Automaton.accepts_cell hmem).1 ((henabled a ha).2 l hg)
    exact Bool.eq_false_iff.2 fun hbit => (h.memoryBit_iff hrest hsp).1 hbit haccepts

/-- And no guard would stop it. -/
theorem Tracked.not_enabled (hpos : 1 ≤ maxLocId P.typelessProtoDef)
    (hle : maxLocId P.typelessProtoDef ≤ 63) {r : RuleDef}
    (hr : r ∈ P.typelessProtoDef.behaviour.rules) (hacts : r.actions ≠ [])
    (hguard : evalFormula s.proto r.guard = .ok true) :
    ¬ A.Enabled P.typelessProtoDef.locKinds r.actions := by
  intro henabled
  have hmay := h.met hrest henabled
  obtain ⟨a, rest, hactions⟩ := List.exists_cons_of_ne_nil hacts
  have hput : involved r.actions a.putter :=
    ⟨a, by rw [hactions]; exact List.mem_cons_self, .inl rfl⟩
  have hready : s.proto.w.active.ready.data ≠ [] :=
    List.length_pos_iff.1 (Nat.zero_lt_of_lt (BitSet.lt_length_of_test (hmay _ hput).ready))
  obtain ⟨i, hi⟩ := List.getElem?_of_mem hr
  have hlt := (List.getElem?_eq_some_iff.1 hi).1
  rw [h.standing.rules.length_eq] at hlt
  have hrule := List.getElem?_eq_getElem hlt
  have henc := h.standing.encodes_at hi hrule
  refine h.quiet (h.free hrest) hready _ (List.mem_of_getElem? hrule) ⟨?_, ?_⟩
  · exact (h.standing.isReady_iff_mayFire hpos hle hready hi hrule).2 hmay
  · rw [henc.guardPred]
    exact hguard

/-- The value of a cell at rest is the one its pointer points to. -/
theorem Tracked.cells (l : LocId) : A.cells l = (s.proto.held l).bind s.proto.heap.read := by
  rw [h.matched.cells, atRest]
  cases hheld : s.proto.held l with
  | none => exact ite_self none
  | some r =>
      obtain ⟨-, sp, hsp, -⟩ := held_memo_iff.1 hheld
      rw [if_pos (h.resting hrest hsp)]

end

/-! ## The end of a run -/

/-- All is done that the automaton could do: nobody has the lock, who is in a
call waits for a rule and for nothing else, and no rule can fire. -/
structure Finished (P : Proto D) (s : Ports D) (A : Automaton D) : Prop where
  lock : s.holder = none
  calls : ∀ p, s.calls p = none ∧ A.ports p = .idle ∨
    ∃ x, s.calls p = some x ∧ x.phase = .awaiting ∧ x.call.timed = false ∧
      A.ports p = .pending x.call
  cells : ∀ l, A.cells l = (s.proto.held l).bind s.proto.heap.read
  rules : ∀ r ∈ P.typelessProtoDef.behaviour.rules, evalFormula s.proto r.guard = .ok true →
    ¬ A.Enabled P.typelessProtoDef.locKinds r.actions

theorem Tracked.finished (h : Tracked P infos owed A s) (hP : Plain P)
    (hrest : Resting .actual s) : Finished P s A := by
  refine ⟨h.free hrest, fun p => ?_, h.cells hrest, fun r hr hguard => ?_⟩
  · cases hx : s.calls p with
    | none => exact .inl ⟨rfl, (h.matched.ports p).of_idle hx⟩
    | some x =>
        have hready := h.ready hrest hx
        rcases h.phases hrest hx with ⟨hph, htimed⟩ | hph
        · exact .inr ⟨x, rfl, hph, htimed, h.pending hrest hx⟩
        · obtain ⟨c, ph, out⟩ := x
          cases hph
          cases (h.late p c out hx).symm.trans hready
  · exact h.not_enabled hrest hP.pos hP.le hr (hP.actions r hr) hguard

/-- Whenever a run comes to a state in which no thread has a step to make, the
automaton that did what the run shows can do nothing more either, unless there
are new calls. -/
theorem finished_of_reach (P : Proto D) {heap : Heap D} {b : Build D} {s₀ : ProtoAll D}
    (hfin : (finish P).run (.new heap) = .ok s₀ b) (hpos : 1 ≤ maxLocId P.typelessProtoDef)
    (hle : maxLocId P.typelessProtoDef ≤ 63) (hun : Uninitialized P) (hone : OneGetter P)
    (hguards : ∀ r ∈ P.typelessProtoDef.behaviour.rules, r.guard.bitsOnly = true)
    (hacts : ∀ r ∈ P.typelessProtoDef.behaviour.rules, r.actions ≠ []) {h : List (Act D)}
    (hrun : Run.Reach (Step .actual) (start s₀) h t) (hrest : Resting .actual t) :
    ∃ A, Run.Reach (Automaton.Step P) .start (h.filterMap Act.observed) A ∧ Finished P t A := by
  have hP : Plain P := ⟨hpos, hle, hun, hone, hguards, hacts⟩
  obtain ⟨infos, owed, A, hA, ht⟩ := reach_tracked hP hfin hrun
  exact ⟨A, hA, ht.finished hP hrest⟩

end Ports

/-- A timed put at a channel, left to itself, comes to rest, and then the
automaton has nothing to do. -/
theorem finished_channel : ∃ s b h k t A, (finish (channel 1)).run (.new .empty) = .ok s b ∧
    Run.Reach (Ports.Step .actual) (.start s) (k ++ h) t ∧
    h = [.enter 0, .call 0 (.putTimeout (.data 7))] ∧
    Run.Reach (Automaton.Step (channel 1)) .start ((k ++ h).filterMap Ports.Act.observed) A ∧
    Ports.Finished (channel 1) t A := by
  obtain ⟨s, b, u, hfin, hrun, -⟩ := channel_reach_enter
  obtain ⟨infos, hseat⟩ :=
    Ports.reach_seated hfin (by decide) (by decide) channel_involvesPort hrun
  obtain ⟨k, t, hk, -, hrest⟩ :=
    (hseat.settlesWithin (by decide) (by decide) channel_involvesPort).rests
  obtain ⟨A, hA, ht⟩ := Ports.finished_of_reach (channel 1) hfin (by decide) (by decide)
    (channel_uninitialized 1) (channel_oneGetter (by decide))
    (fun r hr => by rw [List.mem_singleton.1 hr]; rfl)
    (fun r hr => by rw [List.mem_singleton.1 hr]; simp) (hrun.trans hk) hrest
  exact ⟨s, b, _, k, t, A, hfin, hrun.trans hk, rfl, hA, ht⟩

end ReoRs
