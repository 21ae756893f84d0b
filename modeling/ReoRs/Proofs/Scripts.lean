import ReoRs.Exchanges
import ReoRs.Proofs.AtRest
import ReoRs.Proto.Threads

/-!
# Threads with a fixed number of calls

What `Settling` and `AtRest` say of the ports, for threads that make their
calls one after another. There are at most sixteen steps for each call, and
when there is none left to make, a thread has made all its calls or is in one
that the automaton cannot go on with.
-/

namespace ReoRs

variable {D : Type}

open ProtoAll Coordination

namespace Threads

variable {P : Proto D} {infos : HashMap TypeId (TypeInfo D)} {moves : Transfers D}
  {s t : Threads D}

theorem Step.ports {a : Ports.Act D} (h : Step moves s a t) :
    Ports.Step moves s.ports a t.ports := by
  cases h with
  | call _ hstep => exact hstep
  | other _ hstep => exact hstep

theorem reach_ports {h : List (Ports.Act D)} (hrun : Run.Reach (Step moves) s h t) :
    Run.Reach (Ports.Step moves) s.ports h t.ports := by
  induction hrun with
  | refl => exact .refl
  | tail _ hstep ih => exact ih.tail hstep.ports

/-! ## All runs end -/

/-- A new call is fifteen steps to make. -/
theorem stepsLeft_call (P : Proto D) {u v : Ports D} {p : LocId} {c : PortCall D}
    (h : Ports.Step moves u (.call p c) v) : p < u.proto.r.spaces.length ∧
      v.proto.r.spaces.length = u.proto.r.spaces.length ∧
        v.stepsLeft P = u.stepsLeft P + 15 := by
  cases h with
  | @callPut _ _ v sp b hidle hspace _ =>
      have hp := (List.getElem?_eq_some_iff.1 hspace).1
      have hsame := (frame_offer u.proto p v).sameInstance
      have hmeasure := Ports.stepsLeft_setCall (some ⟨c, .entering, none⟩)
        u.holder u.dropped P hsame hp
      refine ⟨hp, hsame.length_spaces, ?_⟩
      rw [hidle] at hmeasure
      have hready : P.readyPorts (u.proto.offer p v) = P.readyPorts u.proto := rfl
      rw [hready] at hmeasure
      simp only [Ports.stepsLeftOf, Phase.stepsLeft] at hmeasure
      show Ports.stepsLeft P
        (Ports.setCall ⟨u.proto.offer p v, u.holder, u.calls, u.dropped⟩ p _) = _
      omega
  | callGet hidle hspace _ =>
      have hp := (List.getElem?_eq_some_iff.1 hspace).1
      have hmeasure := Ports.stepsLeft_setCall (some ⟨c, .entering, none⟩)
        u.holder u.dropped P (.refl u.proto) hp
      refine ⟨hp, rfl, ?_⟩
      rw [hidle] at hmeasure
      simp only [Ports.stepsLeftOf, Phase.stepsLeft] at hmeasure
      show Ports.stepsLeft P (Ports.setCall ⟨u.proto, u.holder, u.calls, u.dropped⟩ p _) = _
      omega

/-- The calls the threads have yet to make. -/
def callsLeft (s : Threads D) : Nat :=
  Count.sumTo s.ports.proto.r.spaces.length fun p => (s.todo p).length

/-- Every step is one that was left to make. -/
theorem Step.settles (hpos : 1 ≤ maxLocId P.typelessProtoDef)
    (hle : maxLocId P.typelessProtoDef ≤ 63)
    (hports : ∀ r ∈ P.typelessProtoDef.behaviour.rules,
      ∃ l, involved r.actions l ∧ isMemLoc P.typelessProtoDef.locKinds l = false)
    (hseat : Ports.Seated P infos s.ports) {a : Ports.Act D} (h : Step moves s a t) :
    Ports.Seated P infos t.ports ∧
      16 * t.callsLeft + t.ports.stepsLeft P < 16 * s.callsLeft + s.ports.stepsLeft P := by
  obtain ⟨hseat', hless⟩ := h.ports.settles hpos hle hports hseat
  refine ⟨hseat', ?_⟩
  cases h with
  | @call p c rest t htodo hstep =>
      obtain ⟨hp, hlen, hmore⟩ := stepsLeft_call P hstep
      have hsum := Count.sumTo_update (f := fun l => (s.todo l).length)
        (g := fun l => (Function.update s.todo p rest l).length) hp
        fun l hl => by rw [Function.update_of_ne hl]
      rw [Function.update_self, htodo, List.length_cons] at hsum
      rw [callsLeft, callsLeft, hlen]
      show 16 * Count.sumTo _ (fun l => (Function.update s.todo p rest l).length) +
        t.stepsLeft P < _
      omega
  | @other _ t hother hstep =>
      obtain ⟨_, hsame⟩ := hstep.standing hseat.standing
      have hlen := hsame.length_spaces
      have hlt := hless (Ports.Act.ne_call_of_isCall hother)
      rw [callsLeft, callsLeft, hlen]
      exact Nat.add_lt_add_left hlt _

/-- Before any call there is nothing to do. -/
theorem stepsLeft_start {b b' : Build D} {s₀ : ProtoAll D}
    (hfin : (finish P).run b = .ok s₀ b') : (Ports.start s₀).stepsLeft P = 0 := by
  have hready : P.readyPorts s₀ = 0 := by
    refine Count.upTo_eq_zero.2 fun l _ => ?_
    rw [Bool.and_eq_false_imp]
    intro hport
    rw [(built_of_finish hfin).ready_test]
    exact isMemLoc_of_isPortLoc hport
  show Count.sumTo s₀.r.spaces.length (fun _ => 0) + P.readyPorts s₀ + 0 = 0
  rw [hready, Count.sumTo]
  simp

theorem length_le_of_reach (hP : Ports.Plain P)
    (hports : ∀ r ∈ P.typelessProtoDef.behaviour.rules,
      ∃ l, involved r.actions l ∧ isMemLoc P.typelessProtoDef.locKinds l = false)
    {b b' : Build D} {s₀ : ProtoAll D} (hfin : (finish P).run b = .ok s₀ b')
    {script : LocId → List (PortCall D)} {h : List (Ports.Act D)}
    (hrun : Run.Reach (Step moves) (start s₀ script) h t) : h.length ≤
      16 * Count.sumTo (maxLocId P.typelessProtoDef + 1) (fun p => (script p).length) := by
  have hstart : Run.Reach (Ports.Step moves) (.start s₀) [] (.start s₀) := .refl
  obtain ⟨infos, hseat⟩ := Ports.reach_seated hfin hP.pos hP.le hports hstart
  have hpaid := (hrun.length_add_le
    (fun s : Threads D => 16 * s.callsLeft + s.ports.stepsLeft P)
    (I := fun s => Ports.Seated P infos s.ports)
    (fun hs hstep => hstep.settles hP.pos hP.le hports hs) hseat).2
  have hzero : (start s₀ script).ports.stepsLeft P = 0 := stepsLeft_start hfin
  have hlen : s₀.r.spaces.length = maxLocId P.typelessProtoDef + 1 := by
    obtain ⟨_, hspaces⟩ := (built_of_finish hfin).spaces
    rw [← hspaces.length_eq, List.length_range]
  have hcalls : (start s₀ script).callsLeft =
      Count.sumTo s₀.r.spaces.length fun p => (script p).length := rfl
  rw [hlen] at hcalls
  omega

variable (moves) in
theorem exists_stuck (hP : Ports.Plain P)
    (hports : ∀ r ∈ P.typelessProtoDef.behaviour.rules,
      ∃ l, involved r.actions l ∧ isMemLoc P.typelessProtoDef.locKinds l = false)
    {b b' : Build D} {s₀ : ProtoAll D} (hfin : (finish P).run b = .ok s₀ b')
    (script : LocId → List (PortCall D)) :
    ∃ h t, Run.Reach (Step moves) (start s₀ script) h t ∧ Run.Stuck (Step moves) t := by
  have hstart : Run.Reach (Ports.Step moves) (.start s₀) [] (.start s₀) := .refl
  obtain ⟨infos, hseat⟩ := Ports.reach_seated hfin hP.pos hP.le hports hstart
  have hless : ∀ {u : Threads D} {a : Ports.Act D} {v : Threads D},
      Ports.Seated P infos u.ports → Step moves u a v → Ports.Seated P infos v.ports ∧
        16 * v.callsLeft + v.ports.stepsLeft P < 16 * u.callsLeft + u.ports.stepsLeft P :=
    fun hu hstep => hstep.settles hP.pos hP.le hports hu
  obtain ⟨h, t, hrun, hstuck, -⟩ := Run.exists_stuck
    (fun s : Threads D => 16 * s.callsLeft + s.ports.stepsLeft P)
    (I := fun s => Ports.Seated P infos s.ports) hless
    (show Ports.Seated P infos (start s₀ script).ports from hseat)
  exact ⟨h, t, hrun, hstuck⟩

/-! ## How a run ends -/

/-- What a thread has called and what it has yet to call are its script. -/
theorem made_append_todo {h : List (Ports.Act D)} (hrun : Run.Reach (Step moves) s h t)
    (p : LocId) :
    Automaton.made p (h.filterMap Ports.Act.observed) ++ t.todo p = s.todo p := by
  induction hrun with
  | refl => rfl
  | @tail h u v a _ hstep ih =>
      rw [← ih]
      cases hstep with
      | @call q c rest v htodo _ =>
          rw [List.filterMap_cons_some (show Ports.Act.observed (.call q c) = _ from rfl)]
          by_cases hqp : q = p
          · subst hqp
            rw [Automaton.made_call_self, List.append_assoc]
            show _ ++ ([c] ++ Function.update u.todo q rest q) = _
            rw [Function.update_self, htodo]
            rfl
          · rw [Automaton.made_call_ne _ hqp]
            show _ ++ Function.update u.todo q rest p = _
            rw [Function.update_of_ne (Ne.symm hqp)]
      | other hother _ =>
          cases a with
          | call q c => cases hother
          | enter | leave | panic | expire | late | receive | acquire | finalize => rfl
          | fire q i => rfl
          | ret q x => rfl

/-- The calls of a script are ones its port can make. -/
def WellKinded (P : Proto D) (script : LocId → List (PortCall D)) : Prop :=
  ∀ p, ∀ c ∈ script p, P.typelessProtoDef.locKinds.lookup p =
    some (if c.datum.isSome then .portPutter else .portGetter)

theorem resting_of_stuck (h : Run.Stuck (Step moves) s) : Ports.Resting moves s.ports := by
  intro a t hstep
  by_contra hnot
  exact h a _ (.other (Bool.eq_false_iff.2 hnot) hstep)

/-- A thread that is not in a call makes its next one. -/
theorem todo_of_stuck (h : Run.Stuck (Step moves) s) (hs : Standing P infos s.ports.proto)
    {p : LocId} (hkind : ∀ c ∈ s.todo p, P.typelessProtoDef.locKinds.lookup p =
      some (if c.datum.isSome then .portPutter else .portGetter))
    (hidle : s.ports.calls p = none) : s.todo p = [] := by
  cases htodo : s.todo p with
  | nil => rfl
  | cons c rest =>
      have hlookup := hkind c (by rw [htodo]; exact List.mem_cons_self)
      cases hdatum : c.datum with
      | some v =>
          rw [hdatum] at hlookup
          obtain ⟨sp, b, hsp, -⟩ := hs.shaped.isPutter hlookup
          exact absurd (.call htodo (.callPut hidle hsp hdatum)) (h _ _)
      | none =>
          rw [hdatum] at hlookup
          obtain ⟨b, hsp⟩ := hs.shaped.isGetter hlookup
          exact absurd (.call htodo (.callGet hidle hsp hdatum)) (h _ _)

/-- Where the threads are when no step is left: each has made all its calls
and they have returned, or it is in one that waits for a rule; and no rule can
fire. -/
structure Over (P : Proto D) (s : Threads D) (A : Automaton D) : Prop where
  ports : Ports.Finished P s.ports A
  threads : ∀ p, s.todo p = [] ∧ s.ports.calls p = none ∨ ∃ c, A.ports p = .pending c

/-- How far a thread is whose calls are not timed. -/
theorem Over.thread {script : LocId → List (PortCall D)} {h : List (Ports.Act D)}
    {A : Automaton D} (hover : Over P t A)
    (hA : Run.Reach (Automaton.Step P) .start (h.filterMap Ports.Act.observed) A)
    {s₀ : ProtoAll D} (hrun : Run.Reach (Step moves) (start s₀ script) h t) {p : LocId}
    (huntimed : ∀ c ∈ script p, c.timed = false)
    (hrec : Automaton.Recorded p (h.filterMap Ports.Act.observed) (A.ports p)) :
    A.ports p = .idle ∧ (t.ports.calls p = none ∧ t.todo p = []) ∧
        (Automaton.settledAt p (h.filterMap Ports.Act.observed) A).map Prod.fst = script p ∨
      ∃ c, A.ports p = .pending c ∧ c ∈ script p ∧
        (Automaton.settledAt p (h.filterMap Ports.Act.observed) A).length < (script p).length := by
  have hmade := made_append_todo hrun p
  have hmade : _ ++ t.todo p = script p := hmade
  have hasked := Automaton.asked_of_untimed hA fun c hc =>
    huntimed c (by rw [← hmade]; exact List.mem_append_left _ hc)
  rcases hover.threads p with ⟨htodo, hidle⟩ | ⟨c, hp⟩
  · left
    have hp : A.ports p = .idle := by
      rcases hover.ports.calls p with ⟨-, hp⟩ | ⟨x, hx, -⟩
      · exact hp
      · cases hidle.symm.trans hx
    refine ⟨hp, ⟨hidle, htodo⟩, ?_⟩
    rw [htodo, List.append_nil] at hmade
    rw [← hrec.asked_of_idle hp, hasked, hmade]
  · right
    rw [hrec.asked_of_pending hp] at hasked
    rw [← hasked] at hmade
    refine ⟨c, hp, ?_, ?_⟩
    · rw [← hmade]
      exact List.mem_append_left _ (List.mem_append_right _ (List.mem_singleton_self c))
    · have hlen := congrArg List.length hmade
      rw [List.length_append, List.length_append, List.length_map, List.length_singleton] at hlen
      omega

theorem over_of_stuck (hP : Ports.Plain P) {heap : Heap D} {b : Build D} {s₀ : ProtoAll D}
    (hfin : (finish P).run (.new heap) = .ok s₀ b) {script : LocId → List (PortCall D)}
    (hkinds : WellKinded P script) {h : List (Ports.Act D)}
    (hrun : Run.Reach (Step .actual) (start s₀ script) h t)
    (hstuck : Run.Stuck (Step .actual) t) : ∃ A,
      Run.Reach (Automaton.Step P) .start (h.filterMap Ports.Act.observed) A ∧
        Over P t A := by
  obtain ⟨infos, owed, A, hA, ht⟩ := Ports.reach_tracked hP hfin (reach_ports hrun)
  have hrest := resting_of_stuck hstuck
  refine ⟨A, hA, ht.finished hP hrest, fun p => ?_⟩
  cases hx : t.ports.calls p with
  | some x => exact .inr ⟨_, ht.pending hrest hx⟩
  | none =>
      have hmade := made_append_todo hrun p
      have htodo : t.todo p = [] := by
        refine todo_of_stuck hstuck ht.standing (fun c hc => hkinds p c ?_) hx
        show c ∈ (start s₀ script).todo p
        rw [← hmade]
        exact List.mem_append_right _ hc
      exact .inl ⟨htodo, rfl⟩

/-- Every run of threads with fixed scripts ends after at most sixteen steps for
each call, and then the threads that are not done wait for what the automaton
cannot do. -/
theorem threads_finish (P : Proto D) {heap : Heap D} {b : Build D} {s₀ : ProtoAll D}
    (hfin : (finish P).run (.new heap) = .ok s₀ b) (hP : Ports.Plain P)
    (hports : ∀ r ∈ P.typelessProtoDef.behaviour.rules,
      ∃ l, involved r.actions l ∧ isMemLoc P.typelessProtoDef.locKinds l = false)
    {script : LocId → List (PortCall D)} (hkinds : WellKinded P script)
    {h : List (Ports.Act D)} (hrun : Run.Reach (Step .actual) (start s₀ script) h t) :
    h.length ≤
        16 * Count.sumTo (maxLocId P.typelessProtoDef + 1) (fun p => (script p).length) ∧
      (Run.Stuck (Step .actual) t → ∃ A,
        Run.Reach (Automaton.Step P) .start (h.filterMap Ports.Act.observed) A ∧
          Over P t A) := by
  refine ⟨length_le_of_reach hP hports hfin hrun, over_of_stuck hP hfin hkinds hrun⟩

end Threads

theorem channel_plain : Ports.Plain (channel 1) where
  pos := by decide
  le := by decide
  uninitialized := channel_uninitialized 1
  oneGetter := channel_oneGetter (by decide)
  guards := by
    intro r hr
    rw [List.mem_singleton.1 hr]
    rfl
  actions := by
    intro r hr
    rw [List.mem_singleton.1 hr]
    simp

/-- At a channel whose getter calls once, one of two puts is left waiting. -/
theorem threads_finish_channel : ∃ s b h t A, (finish (channel 1)).run (.new .empty) = .ok s b ∧
    Run.Reach (Threads.Step .actual) (.start s fun p => match p with
      | 0 => [.put (.data 7), .put (.data 8)]
      | 1 => [.get]
      | _ => []) h t ∧ h.length ≤ 48 ∧
    Run.Reach (Automaton.Step (channel 1)) .start (h.filterMap Ports.Act.observed) A ∧
    Threads.Over (channel 1) t A := by
  obtain ⟨s, b, hfin⟩ := finish_channel (g := 1) (by decide)
  obtain ⟨h, t, hrun, hstuck⟩ :=
    Threads.exists_stuck .actual channel_plain channel_involvesPort hfin fun p =>
      match p with
      | 0 => [.put (.data 7), .put (.data 8)]
      | 1 => [.get]
      | _ => []
  obtain ⟨hlen, hover⟩ := Threads.threads_finish (channel 1) hfin channel_plain
    channel_involvesPort (by
      intro p c hc
      rw [channel_lookup]
      match p, hc with
      | 0, hc =>
          simp only [List.mem_cons, List.not_mem_nil, or_false] at hc
          rcases hc with rfl | rfl <;> rfl
      | 1, hc =>
          obtain rfl := List.mem_singleton.1 hc
          rfl
      | n + 2, hc => cases hc) hrun
  obtain ⟨A, hA, hover⟩ := hover hstuck
  exact ⟨s, b, h, t, A, hfin, hrun, hlen, hA, hover⟩

end ReoRs
