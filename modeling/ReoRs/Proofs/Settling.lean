import ReoRs.Proofs.Exhaust
import ReoRs.Proofs.Handshake
import ReoRs.Proto.Threads

/-!
# Without new calls everything settles

No thread of the system waits in a loop. A call goes through its phases in one
direction, a getter through `acquire_data` likewise, and what a thread that
holds the lock does in between, a firing, costs a ready port where every rule
involves one. So if nobody calls any more, all the threads together make a
number of steps that depends on how many calls are in progress and on nothing
else: not on the guards, not on how many getters an action has, not on what the
transfers do, and not on whether a pass panics.

The measure weighs a call by the steps it may still take, a ready port by the
firing it may cost, and the lock by its being let go.
-/

namespace ReoRs

variable {D : Type}

open ProtoAll

/-! ## Weights -/

/-- The steps of a getter inside `acquire_data`, and the ones it makes after
it, at most. -/
def AcquirePc.stepsLeft : AcquirePc → Nat
  | returned => 1
  | release => 2
  | loserCountdown => 3
  | finalize _ | loserClone => 4
  | loadMoved | winnerMove | winnerWait | signalAsk => 5
  | copyCountdown | winnerCountdown | signalCountdown => 6
  | copyData | askMove => 7
  | storeMoved => 8

def Phase.stepsLeft : Phase → Nat
  | finalizing _ => 2
  | acquiring _ pc => pc.stepsLeft
  | late => 9
  | expired => 10
  | awaiting => 11
  | coordinating => 12
  | entering => 15

theorem AcquirePc.stepsLeft_le (pc : AcquirePc) : pc.stepsLeft ≤ 8 := by
  cases pc <;> simp [stepsLeft]

theorem Phase.stepsLeft_le (ph : Phase) : ph.stepsLeft ≤ 15 := by
  cases ph with
  | acquiring q pc => exact Nat.le_trans pc.stepsLeft_le (by decide)
  | entering | coordinating | awaiting | expired | late | finalizing q => simp [stepsLeft]

theorem AcquirePc.stepsLeft_entry_lt (isCopy wants : Bool) :
    (AcquirePc.entry isCopy wants).stepsLeft < 9 :=
  Nat.lt_succ_of_le (AcquirePc.stepsLeft_le _)

/-- Each atomic operation is a step forward. -/
theorem acquireStep_stepsLeft {kind : SourceKind} {sp : PutterSpace D} {pc : AcquirePc}
    {acq : Acquired D} (h : acquireStep kind sp pc = some acq) :
    acq.pc.stepsLeft < pc.stepsLeft := by
  cases pc with
  | storeMoved | copyData | loadMoved | winnerMove | loserClone | release =>
      cases h
      simp [AcquirePc.stepsLeft]
  | copyCountdown | winnerCountdown | loserCountdown | signalCountdown =>
      cases h
      rw [PutterSpace.countDown]
      dsimp only
      split <;> simp [AcquirePc.stepsLeft]
  | askMove =>
      rw [acquireStep_askMove] at h
      cases h
      dsimp only
      split <;> simp [AcquirePc.stepsLeft]
  | signalAsk =>
      rw [acquireStep_signalAsk] at h
      cases h
      dsimp only
      split <;> simp [AcquirePc.stepsLeft]
  | winnerWait =>
      rw [acquireStep] at h
      split at h
      · cases h
        simp [AcquirePc.stepsLeft]
      · cases h
  | finalize m | returned => cases h

theorem Phase.stepsLeft_afterPass_le (ph : Phase) : ph.afterPass.stepsLeft ≤ ph.stepsLeft := by
  cases ph with
  | finalizing q | coordinating => simp [afterPass, stepsLeft, AcquirePc.stepsLeft]
  | entering | awaiting | expired | late | acquiring q pc => exact Nat.le_refl _

theorem Phase.le_stepsLeft_of_receives {ph : Phase} (h : ph.receives = true) :
    9 ≤ ph.stepsLeft := by
  cases ph with
  | awaiting | late => simp [stepsLeft]
  | entering | coordinating | expired | acquiring q pc | finalizing q => cases h

theorem SameInstance.length_spaces {s t : ProtoAll D} (h : SameInstance s t) :
    t.r.spaces.length = s.r.spaces.length := by
  have hlen := congrArg List.length h.shapes
  rwa [ProtoAll.shapes, ProtoAll.shapes, List.length_map, List.length_map] at hlen

/-! ## Ready ports -/

/-- One bit is one port. -/
theorem Proto.readyPorts_setReady_le (P : Proto D) (s : ProtoAll D) (p : LocId) (v : Bool) :
    P.readyPorts (s.setReady p v) ≤ P.readyPorts s + 1 := by
  have hother : ∀ l, l ≠ p →
      (isPortLoc P.typelessProtoDef.locKinds l && (s.setReady p v).w.active.ready.test l) =
        (isPortLoc P.typelessProtoDef.locKinds l && s.w.active.ready.test l) := by
    intro l hl
    rw [ready_setReady, if_neg hl]
  by_cases hp : p < maxLocId P.typelessProtoDef + 1
  · have hupdate := Count.upTo_update hp hother
    have hbit := Bool.toNat_le
      (isPortLoc P.typelessProtoDef.locKinds p && (s.setReady p v).w.active.ready.test p)
    rw [readyPorts, readyPorts]
    omega
  · refine Nat.le_succ_of_le (Nat.le_of_eq (Count.upTo_congr fun l hl => hother l ?_))
    rintro rfl
    exact hp hl

/-- A cell that is finished with is no port. -/
theorem Standing.readyPorts_finalizeMemo {P : Proto D} {infos : HashMap TypeId (TypeInfo D)}
    {s t : ProtoAll D} (hs : Standing P infos s) {q : LocId} {sp : PutterSpace D}
    (hspace : s.getSpace q = some (.memo sp)) {moved go : Bool}
    (hrun : (finalizeMemo q moved).run s = .ok go t) :
    go = true ∧ t.w.active.ready.data ≠ [] ∧ P.readyPorts t ≤ P.readyPorts s := by
  have hmem := hs.shaped.isMemLoc_of_memo hspace
  obtain ⟨_, u, hempty, hset⟩ := Effect.ok_of_bind_ok hrun
  have hkept := ((robust_portsKept P.typelessProtoDef.locKinds s).makeEmpty _ hmem).of_ok
    ⟨Frame.refl _, fun _ _ => rfl⟩ hempty
  rw [run_readySet (hkept.frame.ungrouped hs.ungrouped)] at hset
  cases hset
  refine ⟨rfl, ?_, P.readyPorts_mono fun l hport hl => ?_⟩
  · refine List.length_pos_iff.1 (Nat.zero_lt_of_lt (BitSet.lt_length_of_test (i := q) ?_))
    show (u.setReady q true).w.active.ready.test q = true
    rw [ready_setReady, if_pos rfl]
  · have hnot := isMemLoc_of_isPortLoc hport
    have hne : l ≠ q := by
      rintro rfl
      cases hmem.symm.trans hnot
    rwa [ready_setReady, if_neg hne, hkept.ports l hnot] at hl

namespace Ports

variable {P : Proto D} {infos : HashMap TypeId (TypeInfo D)} {s t : Ports D}
  {moves : Transfers D}

def stepsLeftOf : Option (Active D) → Nat
  | none => 0
  | some x => x.phase.stepsLeft

/-- The steps all threads together may make, if nobody calls. -/
def stepsLeft (P : Proto D) (s : Ports D) : Nat :=
  Count.sumTo s.proto.r.spaces.length (fun p => stepsLeftOf (s.calls p)) +
    P.readyPorts s.proto + s.holder.isSome.toNat

/-- How many calls are in progress. -/
def inProgress (s : Ports D) : Nat :=
  Count.upTo s.proto.r.spaces.length fun p => (s.calls p).isSome

theorem stepsLeft_le (P : Proto D) (s : Ports D) :
    s.stepsLeft P ≤ 15 * s.inProgress + P.readyPorts s.proto + 1 := by
  have hcalls : Count.sumTo s.proto.r.spaces.length (fun p => stepsLeftOf (s.calls p)) ≤
      15 * s.inProgress := by
    refine Count.sumTo_le_mul_upTo fun p => ?_
    cases s.calls p with
    | none => exact Nat.zero_le _
    | some x => exact x.phase.stepsLeft_le
  have hlock : s.holder.isSome.toNat ≤ 1 := Bool.toNat_le _
  rw [stepsLeft]
  omega

/-! ## What no step changes -/

/-- Whatever the calls and the debts are, each step of the ports does to the
instance what some step of the coordination does, but for the frame that a
call which returns takes with it. -/
theorem Step.proto_step (hs : Standing P infos s.proto) {a : Act D} (h : Step moves s a t) :
    t.proto = s.proto ∨ ∃ calls owed b c,
      Coordination.Step ⟨s.proto, s.holder.isSome, calls, owed⟩ b c ∧ Frame c.proto t.proto := by
  cases h with
  | callPut _ hspace _ =>
      exact .inr ⟨fun _ => .idle, fun _ => 0, _, _, .offer rfl hspace, .refl _⟩
  | callGet _ _ _ => exact .inl rfl
  | enter _ hfree hrun =>
      refine .inr ⟨fun _ => .entering, fun _ => 0, _, _, .arrive rfl ?_ hrun, .refl _⟩
      rw [hfree]
      rfl
  | @fire p i proto hlock hrun =>
      obtain ⟨-, rule, -, hrule, -⟩ := FiredPass.cases hs.tempMems hrun
      refine .inr ⟨fun _ => .idle, fun _ => 0, _, _, .fire ?_ hrule hrun, .refl _⟩
      rw [hlock]
      rfl
  | leave hlock _ hend hrun =>
      refine .inr ⟨fun _ => .idle, fun _ => 0, _, _, .leave ?_ hend hrun, .refl _⟩
      rw [hlock]
      rfl
  | panic hlock hrun =>
      refine .inr ⟨fun _ => .idle, fun _ => 0, _, _, .panic ?_ hrun, .refl _⟩
      rw [hlock]
      rfl
  | expire _ _ => exact .inl rfl
  | withdraw _ hfree hready =>
      refine .inr ⟨fun _ => .waiting, fun _ => 0, _, _, .withdraw rfl ?_ hready, .refl _⟩
      rw [hfree]
      rfl
  | tooLate _ _ hready => exact .inl (setReady_false_of_not_ready hready)
  | putReturn _ _ _ hmsg _ =>
      exact .inr ⟨fun _ => .waiting, fun _ => 0, _, _, .receive rfl hmsg, .refl _⟩
  | @receive p _ _ _ _ _ _ _ _ _ _ hmsg _ _ =>
      exact .inr ⟨fun _ => .waiting, fun _ => 0, _, _, .receive rfl hmsg,
        { Frame.refl (s.proto.setDropbox p none) with }⟩
  | acquire _ hspace hsource hstep _ =>
      refine .inr ⟨fun _ => .idle, fun _ => 1, _, _, .acquire (Nat.lt_add_one 0) hspace
        (acquiring_of_step hsource hstep), ?_⟩
      exact mapSpace_eq_const hspace _ ▸ .refl _
  | finalizePort _ hspace hrun =>
      exact .inr ⟨fun _ => .idle, fun _ => 1, _, _,
        .finalizePort (Nat.lt_add_one 0) hspace hrun, .refl _⟩
  | finalizeCell _ hfree hspace hrun =>
      refine .inr ⟨fun _ => .idle, fun _ => 1, _, _,
        .finalizeCell (Nat.lt_add_one 0) ?_ hspace hrun, .refl _⟩
      rw [hfree]
      rfl
  | getReturn _ => exact .inl rfl

theorem Step.standing (hs : Standing P infos s.proto) {a : Act D} (h : Step moves s a t) :
    Standing P infos t.proto ∧ SameInstance s.proto t.proto := by
  rcases h.proto_step hs with hsame | ⟨calls, owed, b, c, hstep, hframe⟩
  · rw [hsame]
    exact ⟨hs, .refl _⟩
  · exact ⟨(hstep.standing hs).frame hframe, (hstep.sameInstance hs).trans hframe.sameInstance⟩

/-- The calls are at locations of the instance, and whoever has the lock has
set a ready bit. -/
structure Seated (P : Proto D) (infos : HashMap TypeId (TypeInfo D)) (s : Ports D) : Prop where
  standing : Standing P infos s.proto
  calls : ∀ p x, s.calls p = some x → p < s.proto.r.spaces.length
  ready : s.holder.isSome = true → s.proto.w.active.ready.data ≠ []

section

variable {p : LocId} {x : Option (Active D)} {proto : ProtoAll D} {holder : Option LocId}
  {dropped : List (Datum D)}

theorem Seated.setCall (h : Seated P infos s) (hproto : Standing P infos proto)
    (hsame : SameInstance s.proto proto) (hp : p < s.proto.r.spaces.length)
    (hready : holder.isSome = true → proto.w.active.ready.data ≠ []) :
    Seated P infos (Ports.setCall ⟨proto, holder, s.calls, dropped⟩ p x) := by
  have hlen := hsame.length_spaces
  refine ⟨hproto, fun l y hl => ?_, hready⟩
  show l < proto.r.spaces.length
  rw [hlen]
  by_cases hlp : l = p
  · rw [hlp]
    exact hp
  · have hl : Function.update s.calls p x l = some y := hl
    rw [Function.update_of_ne hlp] at hl
    exact h.calls l y hl

/-- A step that is no step of a call. -/
theorem Seated.of_proto (h : Seated P infos s) (hproto : Standing P infos proto)
    (hsame : SameInstance s.proto proto)
    (hready : holder.isSome = true → proto.w.active.ready.data ≠ []) :
    Seated P infos ⟨proto, holder, s.calls, dropped⟩ :=
  ⟨hproto, fun l x hl => Nat.lt_of_lt_of_eq (h.calls l x hl) hsame.length_spaces.symm, hready⟩

variable (x holder dropped) in
/-- A step of the call at `p`: what it changes in the measure. -/
theorem stepsLeft_setCall (P : Proto D) (hsame : SameInstance s.proto proto)
    (hp : p < s.proto.r.spaces.length) :
    (Ports.setCall ⟨proto, holder, s.calls, dropped⟩ p x).stepsLeft P + stepsLeftOf (s.calls p) +
        P.readyPorts s.proto + s.holder.isSome.toNat =
      s.stepsLeft P + stepsLeftOf x + P.readyPorts proto + holder.isSome.toNat := by
  have hlen := hsame.length_spaces
  have hsum := Count.sumTo_update (f := fun l => stepsLeftOf (s.calls l))
    (g := fun l => stepsLeftOf (Function.update s.calls p x l)) hp
    fun l hl => by rw [Function.update_of_ne hl]
  rw [Function.update_self] at hsum
  show Count.sumTo proto.r.spaces.length (fun l => stepsLeftOf (Function.update s.calls p x l)) +
    P.readyPorts proto + holder.isSome.toNat + stepsLeftOf (s.calls p) + P.readyPorts s.proto +
      s.holder.isSome.toNat = _
  rw [hlen, stepsLeft]
  omega

/-- A step of a call in progress, if it pays for what it makes ready. -/
theorem Seated.settles {c : PortCall D} {ph : Phase} {out : Option (Datum D)} {anyway : Prop}
    (h : Seated P infos s) (hproto : Standing P infos proto) (hsame : SameInstance s.proto proto)
    (hcall : s.calls p = some ⟨c, ph, out⟩)
    (hready : holder.isSome = true → proto.w.active.ready.data ≠ [])
    (hpaid : stepsLeftOf x + P.readyPorts proto + holder.isSome.toNat <
      ph.stepsLeft + P.readyPorts s.proto + s.holder.isSome.toNat) :
    Seated P infos (Ports.setCall ⟨proto, holder, s.calls, dropped⟩ p x) ∧ (anyway →
      (Ports.setCall ⟨proto, holder, s.calls, dropped⟩ p x).stepsLeft P < s.stepsLeft P) := by
  have hp := h.calls p _ hcall
  refine ⟨h.setCall hproto hsame hp hready, fun _ => ?_⟩
  have hmeasure := stepsLeft_setCall x holder dropped P hsame hp
  rw [hcall] at hmeasure
  simp only [stepsLeftOf] at hmeasure hpaid
  omega

end

/-! ## A step -/

/-- A pass that panics has made no port ready. -/
theorem readyPorts_le_of_error (hs : Standing P infos s.proto) {e : Fault} {proto : ProtoAll D}
    (hrun : exhaustPass.run s.proto = .error e proto) :
    P.readyPorts proto ≤ P.readyPorts s.proto := by
  have hres := exhaustPass_result hs.ungrouped hs.tempMems
  rw [hrun] at hres
  cases hres with
  | guardFault _ _ _ => exact Nat.le_refl _
  | @fireFault i rule e t hrule _ hfire =>
      obtain ⟨r, hr, henc⟩ := hs.rule_at hrule
      have hkept := (hs.keeps_fire_ports (t := s.proto.prepare rule) rfl hr henc).of_error
        ⟨Frame.refl _, fun _ _ => rfl⟩ hfire
      refine P.readyPorts_mono fun l hport hl => ?_
      rw [hkept.ports l (isMemLoc_of_isPortLoc hport)] at hl
      have hl : (subtractReadiness s.proto.w.active.ready rule).test l = true := hl
      rw [test_subtractReadiness, Bool.and_eq_true] at hl
      exact hl.1

/-- Every step but a new call is one that was left to make. -/
theorem Step.settles (hpos : 1 ≤ maxLocId P.typelessProtoDef)
    (hle : maxLocId P.typelessProtoDef ≤ 63)
    (hports : ∀ r ∈ P.typelessProtoDef.behaviour.rules,
      ∃ l, involved r.actions l ∧ isMemLoc P.typelessProtoDef.locKinds l = false)
    (hseat : Seated P infos s) {a : Act D} (h : Step moves s a t) :
    Seated P infos t ∧ ((∀ p c, a ≠ .call p c) → t.stepsLeft P < s.stepsLeft P) := by
  have hs := hseat.standing
  obtain ⟨ht, hsame⟩ := h.standing hs
  cases h with
  | @callPut p c v sp b hidle hspace hdatum =>
      exact ⟨hseat.setCall ht hsame (List.getElem?_eq_some_iff.1 hspace).1 hseat.ready,
        fun hnot => absurd rfl (hnot p c)⟩
  | @callGet p c b hidle hspace hdatum =>
      exact ⟨hseat.setCall ht hsame (List.getElem?_eq_some_iff.1 hspace).1 hseat.ready,
        fun hnot => absurd rfl (hnot p c)⟩
  | @enter p c out go proto hcall hfree hrun =>
      rw [run_readySet hs.ungrouped] at hrun
      cases hrun
      refine hseat.settles ht hsame hcall (fun _ => ?_) ?_
      · refine List.length_pos_iff.1 (Nat.zero_lt_of_lt (BitSet.lt_length_of_test (i := p) ?_))
        show (s.proto.setReady p true).w.active.ready.test p = true
        rw [ready_setReady, if_pos rfl]
      · have hbit := P.readyPorts_setReady_le s.proto p true
        have hheld : ∀ o : Option LocId, o.isSome.toNat ≤ 1 := fun o => Bool.toNat_le _
        have := hheld (if true then some p else none)
        show 12 + P.readyPorts (s.proto.setReady p true) + _ < 15 + _ + _
        omega
  | @fire p i proto hlock hrun =>
      have hready := hseat.ready (by rw [hlock]; rfl)
      obtain ⟨-, hnonempty, hlt⟩ := hs.readyPorts_lt (.refl _) hpos hle hports hready hrun
      refine ⟨hseat.of_proto ht hsame fun _ => hnonempty, fun _ => ?_⟩
      rw [stepsLeft, stepsLeft, hsame.length_spaces]
      show _ + P.readyPorts proto + _ < _ + _ + _
      exact Nat.add_lt_add_right (Nat.add_lt_add_left hlt _) _
  | @leave p c ph out fin proto hlock hcall hend hrun =>
      have hres := exhaustPass_result hs.ungrouped hs.tempMems
      rw [hrun] at hres
      cases hres with
      | quiet _ =>
          refine hseat.settles hs (.refl _) hcall (fun h => by cases h) ?_
          have := ph.stepsLeft_afterPass_le
          rw [hlock]
          show ph.afterPass.stepsLeft + _ + 0 < ph.stepsLeft + _ + 1
          omega
      | @fired i _ _ _ _ _ => exact absurd rfl (hend i)
  | @panic p e proto hlock hrun =>
      have hless := readyPorts_le_of_error hs hrun
      refine ⟨hseat.of_proto ht hsame (fun h => by cases h), fun _ => ?_⟩
      rw [stepsLeft, stepsLeft, hsame.length_spaces, hlock]
      show _ + P.readyPorts proto + 0 < _ + _ + 1
      exact Nat.lt_succ_of_le (Nat.add_le_add_left hless _)
  | expire hcall _ =>
      refine hseat.settles hs (.refl _) hcall hseat.ready ?_
      show 10 + _ + _ < 11 + _ + _
      omega
  | @withdraw p c out hcall hfree hready =>
      refine hseat.settles ht hsame hcall (fun h => ?_) ?_
      · rw [hfree] at h
        cases h
      · have hless : P.readyPorts (s.proto.setReady p false) ≤ P.readyPorts s.proto := by
          refine P.readyPorts_mono fun l _ hl => ?_
          rw [ready_setReady] at hl
          split at hl
          · cases hl
          · exact hl
        show 0 + P.readyPorts (s.proto.setReady p false) + _ < 10 + _ + _
        omega
  | @tooLate p c out hcall hfree hready =>
      rw [setReady_false_of_not_ready hready] at ht ⊢
      refine hseat.settles hs (.refl _) hcall hseat.ready ?_
      show 9 + _ + _ < 10 + _ + _
      omega
  | @putReturn p c ph out v msg moved hcall hphase hdatum hmsg hmoved =>
      refine hseat.settles ht hsame hcall hseat.ready ?_
      have := Phase.le_stepsLeft_of_receives hphase
      show 0 + P.readyPorts s.proto + _ < _ + _ + _
      omega
  | @receive p c ph out q space kind sp hcall hphase hdatum hmsg hspace hsource =>
      refine hseat.settles ht hsame hcall hseat.ready ?_
      have := Phase.le_stepsLeft_of_receives hphase
      have := AcquirePc.stepsLeft_entry_lt sp.typeInfo.isCopy c.wantsData
      show AcquirePc.stepsLeft _ + P.readyPorts s.proto + _ < _ + _ + _
      omega
  | @acquire p c q pc out v space kind sp acq hcall hspace hsource hstep hmoves =>
      refine hseat.settles ht hsame hcall hseat.ready ?_
      have := acquireStep_stepsLeft hstep
      show acq.pc.stepsLeft + P.readyPorts s.proto + _ < pc.stepsLeft + _ + _
      omega
  | @finalizePort p c q moved out sp b proto hcall hspace hrun =>
      obtain rfl := ok_of_send hrun
      refine hseat.settles ht hsame hcall hseat.ready ?_
      show 1 + P.readyPorts s.proto + _ < 4 + _ + _
      omega
  | @finalizeCell p c q moved go out sp proto hcall hfree hspace hrun =>
      obtain ⟨rfl, hnonempty, hless⟩ := hs.readyPorts_finalizeMemo hspace hrun
      refine hseat.settles ht hsame hcall (fun _ => hnonempty) ?_
      show 2 + P.readyPorts proto + 1 < 4 + _ + _
      omega
  | getReturn hcall =>
      refine hseat.settles hs (.refl _) hcall hseat.ready ?_
      show 0 + _ + _ < 1 + _ + _
      omega

/-! ## Runs without new calls -/

theorem Act.ne_call_of_isCall {a : Act D} (h : a.isCall = false) (p : LocId) (c : PortCall D) :
    a ≠ .call p c := by
  rintro rfl
  cases h

/-- A step other than a new call. -/
def StepOn (moves : Transfers D) (s : Ports D) (a : Act D) (t : Ports D) : Prop :=
  a.isCall = false ∧ Step moves s a t

/-- Nothing happens any more unless somebody calls. -/
def Resting (moves : Transfers D) (s : Ports D) : Prop :=
  ∀ a t, Step moves s a t → a.isCall = true

/-- As long as nobody calls, the threads make `n` steps at most, and then
rest. -/
structure SettlesWithin (moves : Transfers D) (n : Nat) (s : Ports D) : Prop where
  bounded : ∀ k t, Run.Reach (Step moves) s k t → (∀ a ∈ k, a.isCall = false) → k.length ≤ n
  rests : ∃ k t, Run.Reach (Step moves) s k t ∧ (∀ a ∈ k, a.isCall = false) ∧ Resting moves t

theorem Seated.settlesWithin (hpos : 1 ≤ maxLocId P.typelessProtoDef)
    (hle : maxLocId P.typelessProtoDef ≤ 63)
    (hports : ∀ r ∈ P.typelessProtoDef.behaviour.rules,
      ∃ l, involved r.actions l ∧ isMemLoc P.typelessProtoDef.locKinds l = false)
    (h : Seated P infos s) : SettlesWithin moves (s.stepsLeft P) s := by
  have hless : ∀ {u : Ports D} {a : Act D} {v : Ports D}, Seated P infos u → StepOn moves u a v →
      Seated P infos v ∧ v.stepsLeft P < u.stepsLeft P := by
    rintro u a v hu ⟨hnot, hstep⟩
    obtain ⟨hv, hlt⟩ := hstep.settles hpos hle hports hu
    exact ⟨hv, hlt (Act.ne_call_of_isCall hnot)⟩
  refine ⟨fun k t hrun hquiet => ?_, ?_⟩
  · have hpaid := ((hrun.restrict hquiet).length_add_le (stepsLeft P) hless h).2
    exact Nat.le_trans (Nat.le_add_right _ _) hpaid
  · obtain ⟨k, t, hrun, hstuck, -⟩ := Run.exists_stuck (stepsLeft P) hless h
    refine ⟨k, t, hrun.mono fun hstep => hstep.2, hrun.forall_mem fun hstep => hstep.1, ?_⟩
    intro a u hstep
    by_contra hnot
    exact hstuck a u ⟨Bool.eq_false_iff.2 hnot, hstep⟩

theorem reach_seated {b b' : Build D} {s₀ : ProtoAll D} (hfin : (finish P).run b = .ok s₀ b')
    (hpos : 1 ≤ maxLocId P.typelessProtoDef) (hle : maxLocId P.typelessProtoDef ≤ 63)
    (hports : ∀ r ∈ P.typelessProtoDef.behaviour.rules,
      ∃ l, involved r.actions l ∧ isMemLoc P.typelessProtoDef.locKinds l = false)
    {h : List (Act D)} (hrun : Run.Reach (Step moves) (start s₀) h s) :
    ∃ infos, Seated P infos s := by
  obtain ⟨infos, hs⟩ := (built_of_finish hfin).standing
  refine ⟨infos, hrun.preserves (P := Seated P infos) ⟨hs, ?_, ?_⟩ fun hu hstep =>
    (hstep.settles hpos hle hports hu).1⟩
  · intro p x hp
    cases hp
  · intro h
    cases h

/-- In every state of every run of a protocol whose rules all involve a port,
the threads are done after at most fifteen steps for each call in progress and
one for each ready port and the lock. -/
theorem settlesWithin_of_reach (P : Proto D) {b b' : Build D} {s₀ : ProtoAll D}
    (hfin : (finish P).run b = .ok s₀ b') (hpos : 1 ≤ maxLocId P.typelessProtoDef)
    (hle : maxLocId P.typelessProtoDef ≤ 63)
    (hports : ∀ r ∈ P.typelessProtoDef.behaviour.rules,
      ∃ l, involved r.actions l ∧ isMemLoc P.typelessProtoDef.locKinds l = false)
    {h : List (Act D)} (hrun : Run.Reach (Step moves) (start s₀) h s) :
    SettlesWithin moves (15 * s.inProgress + P.readyPorts s.proto + 1) s := by
  obtain ⟨infos, hseat⟩ := reach_seated hfin hpos hle hports hrun
  have hwithin : SettlesWithin moves (s.stepsLeft P) s := hseat.settlesWithin hpos hle hports
  exact ⟨fun k t hk hquiet => Nat.le_trans (hwithin.bounded k t hk hquiet) (s.stepsLeft_le P),
    hwithin.rests⟩

end Ports

theorem channel_involvesPort : ∀ r ∈ (channel 1).typelessProtoDef.behaviour.rules,
    ∃ l, involved r.actions l ∧ isMemLoc (channel 1).typelessProtoDef.locKinds l = false := by
  intro r hr
  obtain rfl := List.mem_singleton.1 hr
  exact ⟨0, ⟨_, List.mem_singleton_self _, .inl rfl⟩, by decide⟩

/-- The timed put at a channel, in the scan of the rules: one call, one ready
port. -/
theorem settlesWithin_channel : ∃ s b h t, (finish (channel 1)).run (.new .empty) = .ok s b ∧
    Run.Reach (Ports.Step .actual) (.start s) h t ∧ t.holder = some 0 ∧
    Ports.SettlesWithin .actual (15 * t.inProgress + (channel 1).readyPorts t.proto + 1) t := by
  obtain ⟨s, b, t, hfin, hrun, hlock⟩ := channel_reach_enter
  refine ⟨s, b, _, t, hfin, hrun, hlock,
    Ports.settlesWithin_of_reach (channel 1) hfin (by decide) (by decide) channel_involvesPort hrun⟩

end ReoRs
