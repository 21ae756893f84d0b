import ReoRs.Proofs.Alternator
import ReoRs.Sessions

/-!
# The interleaving does not matter

Threads that make the calls of their scripts may be interleaved in any way, and
where rules compete for their calls the interleaving decides who is served. A
protocol without conflicts leaves it nothing to decide. Its sessions commute,
and every run of the threads is a run of a session as far as the calls, the
firings and the answers go. So all runs lead to the same end, each with the
same steps; what a thread has been told at any time of one run is the
beginning of what it will have been told at the end of any other; and if the
threads can get stuck in one interleaving they do in all.

Timeouts are not part of this. Whether a call times out is up to the clock.
-/

namespace ReoRs

variable {D : Type}

theorem initial_of_map {α β : Type} {l l' : List (α × β)}
    (hfst : l.map Prod.fst <+: l'.map Prod.fst) (hsnd : l.map Prod.snd <+: l'.map Prod.snd) :
    l <+: l' := by
  rw [List.prefix_iff_eq_take, List.length_map, ← List.map_take] at hfst hsnd
  rw [List.prefix_iff_eq_take]
  exact (List.zip_of_prod hfst hsnd).trans (List.zip_of_prod rfl rfl).symm

namespace Automaton

variable {P : Proto D} {h : List (Act D)} {A : Automaton D} {p : LocId} {c : PortCall D}

theorem mem_made_of_current (hcall : current p h = some c) : c ∈ made p h := by
  induction h with
  | nil => cases hcall
  | cons b h ih =>
      cases b with
      | call q d =>
          by_cases hqp : q = p
          · subst hqp
            simp_all
          · simp only [current_call_ne h hqp] at hcall
            simpa [hqp] using ih hcall
      | fire i => exact ih hcall
      | ret q a =>
          by_cases hqp : q = p
          · subst hqp
            simp at hcall
          · simp only [current_ret_ne h hqp] at hcall
            exact ih hcall

theorem mem_made_of_mem {b : Act D} (hc : c ∈ made p h) : c ∈ made p (b :: h) := by
  cases b with
  | call q d =>
      by_cases hqp : q = p
      · subst hqp
        simp [hc]
      · simpa [hqp] using hc
  | fire i | ret q a => exact hc

end Automaton

namespace Session

open Automaton

variable {P : Proto D} {s t : Session D} {h : List (Act D)}

/-- Before the last call was made it was still to do. -/
theorem made_append_before (todo : LocId → List (PortCall D)) (p : LocId) (c : PortCall D)
    (h : List (Act D)) (q : LocId) :
    made q h ++ Function.update todo p (c :: todo p) q = made q (.call p c :: h) ++ todo q := by
  by_cases hqp : p = q
  · subst hqp
    simp
  · simp [hqp, Function.update_of_ne (Ne.symm hqp)]

theorem todoAfter_before (todo : LocId → List (PortCall D)) (p : LocId) (c : PortCall D) :
    todoAfter (Function.update todo p (c :: todo p)) (.call p c) = todo := by
  simp [todoAfter]

theorem toldAfter_completed {A : Automaton D} {p : LocId} {a : Answer D}
    (hrec : Recorded p h (A.ports p)) (hsettled : A.ports p = .settled a) :
    (fun q => (completed q (.ret p a :: h)).map Prod.snd) =
      toldAfter (fun q => (completed q h).map Prod.snd) (.ret p a) := by
  funext q
  by_cases hqp : p = q
  · subst hqp
    rw [hsettled] at hrec
    cases hrec with
    | settled hcall ha => simp [toldAfter, ha, hcall]
  · simp [toldAfter, hqp, Function.update_of_ne (Ne.symm hqp)]

/-- The automaton's run is the session's, where no call is timed. -/
theorem reach_of_automaton {script : LocId → List (PortCall D)} {A : Automaton D}
    (hA : Run.Reach (Automaton.Step P) .start h A)
    (huntimed : ∀ p, ∀ c ∈ script p, c.timed = false) {todo : LocId → List (PortCall D)}
    (hscript : ∀ p, made p h ++ todo p = script p) :
    Run.Reach (Step P) (start script) h ⟨A, todo, fun p => (completed p h).map Prod.snd⟩ := by
  induction hA generalizing todo with
  | refl =>
      have htodo : todo = script := funext hscript
      rw [htodo]
      exact .refl
  | @tail h A B b hA hstep ih =>
      have hrec := recorded_of_reach hA
      have hmove : Move P A b B := by
        refine hstep.move fun p c hp => huntimed p c ?_
        have hcall := hrec p
        rw [hp] at hcall
        cases hcall with
        | pending hcall =>
            rw [← hscript p]
            refine List.mem_append_left _ ?_
            exact mem_made_of_mem (mem_made_of_current hcall)
      cases b with
      | call p c =>
          have hnext : Offers (Function.update todo p (c :: todo p)) (.call p c) := by
            simp [Offers]
          have hlast : Step P ⟨A, _, fun q => (completed q h).map Prod.snd⟩ (.call p c)
              ⟨B, todoAfter (Function.update todo p (c :: todo p)) (.call p c), _⟩ :=
            .mk hnext hmove
          rw [todoAfter_before] at hlast
          exact (ih fun q => (made_append_before todo p c h q).trans (hscript q)).tail hlast
      | fire i => exact (ih hscript).tail (.mk trivial hmove)
      | ret p a =>
          have hsettled : A.ports p = .settled a := by
            cases hmove with
            | ret hsettled => exact hsettled
          rw [toldAfter_completed (hrec p) hsettled]
          exact (ih hscript).tail (.mk trivial hmove)

/-- Nothing that was told is taken back. -/
theorem told_initial (hrun : Run.Reach (Step P) s h t) (p : LocId) : s.told p <+: t.told p := by
  refine hrun.preserves (P := fun t => s.told p <+: t.told p) (List.prefix_refl _) ?_
  intro t b u ht hstep
  cases hstep with
  | mk _ _ =>
      cases b with
      | call _ _ | fire _ => exact ht
      | ret q a =>
          by_cases hqp : p = q
          · subst hqp
            show _ <+: Function.update t.told p (t.told p ++ [a]) p
            rw [Function.update_self]
            exact ht.trans (List.prefix_append _ _)
          · show _ <+: Function.update t.told q (t.told q ++ [a]) p
            rwa [Function.update_of_ne hqp]

end Session

namespace Threads

variable {P : Proto D} {script : LocId → List (PortCall D)} {t t' : Threads D}
  {h h' : List (Ports.Act D)} {A : Automaton D} {s₀ : ProtoAll D}

/-- The session the threads are in. -/
def session (t : Threads D) (A : Automaton D) (h : List (Ports.Act D)) : Session D :=
  ⟨A, t.todo, fun p => (Automaton.completed p (h.filterMap Ports.Act.observed)).map Prod.snd⟩

theorem reach_session (huntimed : ∀ p, ∀ c ∈ script p, c.timed = false)
    (hrun : Run.Reach (Step .actual) (start s₀ script) h t)
    (hA : Run.Reach (Automaton.Step P) .start (h.filterMap Ports.Act.observed) A) :
    Run.Reach (Session.Step P) (.start script) (h.filterMap Ports.Act.observed)
      (t.session A h) :=
  Session.reach_of_automaton hA huntimed fun p => made_append_todo hrun p

theorem Over.session_stuck (hover : Over P t A) (hfree : ConflictFree P)
    (h : List (Ports.Act D)) : Run.Stuck (Session.Step P) (t.session A h) := by
  rintro b u ⟨hnext, hmove⟩
  cases hmove with
  | @call p c hidle _ =>
      rcases hover.threads p with ⟨hdone, -⟩ | ⟨d, hd⟩
      · have hnext : (t.todo p).head? = some c := hnext
        rw [hdone] at hnext
        cases hnext
      · cases hd.symm.trans hidle
  | @fire i r hr henabled =>
      have hmem := List.mem_of_getElem? hr
      refine hover.ports.rules r hmem ?_ henabled
      rw [hfree.unguarded r hmem]
      rfl
  | @ret p a hsettled =>
      rcases hover.ports.calls p with ⟨-, hp⟩ | ⟨x, -, -, -, hp⟩
      · cases hp.symm.trans hsettled
      · cases hp.symm.trans hsettled

/-- The calls that have been answered are the first of the script. -/
theorem completed_fst_initial (huntimed : ∀ p, ∀ c ∈ script p, c.timed = false)
    (hrun : Run.Reach (Step .actual) (start s₀ script) h t)
    (hA : Run.Reach (Automaton.Step P) .start (h.filterMap Ports.Act.observed) A) (p : LocId) :
    (Automaton.completed p (h.filterMap Ports.Act.observed)).map Prod.fst <+: script p := by
  have hmade : _ ++ t.todo p = script p := made_append_todo hrun p
  have hasked := Automaton.asked_of_untimed hA fun c hc =>
    huntimed p c (by rw [← hmade]; exact List.mem_append_left _ hc)
  rw [← hmade, ← hasked, Automaton.asked, List.append_assoc]
  exact List.prefix_append _ _

/-- More answers are answers to more calls of the same script. -/
theorem completed_initial {P' : Proto D} {s₀' : ProtoAll D}
    (huntimed : ∀ p, ∀ c ∈ script p, c.timed = false)
    (hrun : Run.Reach (Step .actual) (start s₀ script) h t)
    (hA : Run.Reach (Automaton.Step P) .start (h.filterMap Ports.Act.observed) A)
    (hrun' : Run.Reach (Step .actual) (start s₀' script) h' t') {A' : Automaton D}
    (hA' : Run.Reach (Automaton.Step P') .start (h'.filterMap Ports.Act.observed) A') {p : LocId}
    (htold : (t.session A h).told p <+: (t'.session A' h').told p) :
    Automaton.completed p (h.filterMap Ports.Act.observed) <+:
      Automaton.completed p (h'.filterMap Ports.Act.observed) := by
  have hlen := htold.length_le
  rw [session, session, List.length_map, List.length_map] at hlen
  refine initial_of_map (List.prefix_of_prefix_length_le
    (completed_fst_initial huntimed hrun hA p) (completed_fst_initial huntimed hrun' hA' p) ?_)
    htold
  rwa [List.length_map, List.length_map]

theorem completed_eq {P' : Proto D} {s₀' : ProtoAll D}
    (huntimed : ∀ p, ∀ c ∈ script p, c.timed = false)
    (hrun : Run.Reach (Step .actual) (start s₀ script) h t)
    (hA : Run.Reach (Automaton.Step P) .start (h.filterMap Ports.Act.observed) A)
    (hrun' : Run.Reach (Step .actual) (start s₀' script) h' t') {A' : Automaton D}
    (hA' : Run.Reach (Automaton.Step P') .start (h'.filterMap Ports.Act.observed) A') {p : LocId}
    (htold : (t.session A h).told p = (t'.session A' h').told p) :
    Automaton.completed p (h.filterMap Ports.Act.observed) =
      Automaton.completed p (h'.filterMap Ports.Act.observed) := by
  have hlen := congrArg List.length htold
  rw [session, session, List.length_map, List.length_map] at hlen
  exact (completed_initial huntimed hrun hA hrun' hA' (htold ▸ List.prefix_refl _)).eq_of_length
    hlen

/-- Whatever one interleaving of the threads has done so far, any other that
has come to its end has done as well, and the threads have heard the same. Two
that have come to their ends are the same but for the order. -/
theorem determinate (P : Proto D) {heap : Heap D} {b : Build D}
    (hfin : (finish P).run (.new heap) = .ok s₀ b) (hP : Ports.Plain P) (hfree : ConflictFree P)
    (hkinds : WellKinded P script) (huntimed : ∀ p, ∀ c ∈ script p, c.timed = false)
    (hrun : Run.Reach (Step .actual) (start s₀ script) h t)
    (hrun' : Run.Reach (Step .actual) (start s₀ script) h' t')
    (hstuck' : Run.Stuck (Step .actual) t') :
    (∃ k, (k ++ h.filterMap Ports.Act.observed).Perm (h'.filterMap Ports.Act.observed)) ∧
      (∀ p, Automaton.completed p (h.filterMap Ports.Act.observed) <+:
        Automaton.completed p (h'.filterMap Ports.Act.observed)) ∧
      (Run.Stuck (Step .actual) t →
        (h.filterMap Ports.Act.observed).Perm (h'.filterMap Ports.Act.observed) ∧
        (∀ p, Automaton.completed p (h.filterMap Ports.Act.observed) =
          Automaton.completed p (h'.filterMap Ports.Act.observed)) ∧
        t.todo = t'.todo ∧ ∃ A, Over P t A ∧ Over P t' A) := by
  have hcomm : Run.Commuting (Session.Step P) := Session.commuting hfree
  obtain ⟨_, _, A, hA, -⟩ := Ports.reach_tracked hP hfin (reach_ports hrun)
  obtain ⟨A', hA', hover'⟩ := over_of_stuck hP hfin hkinds hrun' hstuck'
  have hsession := reach_session huntimed hrun hA
  have hsession' := reach_session huntimed hrun' hA'
  have hend' := hover'.session_stuck hfree h'
  obtain ⟨k, hk, hperm⟩ := hcomm.reach_of_stuck hsession hsession' hend'
  refine ⟨⟨k, hperm⟩, fun p => completed_initial huntimed hrun hA hrun' hA'
    (Session.told_initial hk p), fun hstuck => ?_⟩
  obtain ⟨B, hB, hover⟩ := over_of_stuck hP hfin hkinds hrun hstuck
  obtain ⟨heq, hsame⟩ := hcomm.eq_of_stuck (reach_session huntimed hrun hB) hsession'
    (hover.session_stuck hfree h) hend'
  have htold := congrArg Session.told heq
  refine ⟨hsame, fun p => ?_, congrArg Session.todo heq, B, hover, ?_⟩
  · exact completed_eq huntimed hrun hB hrun' hA' (congrFun htold p)
  · have hauto : B = A' := congrArg Session.automaton heq
    rwa [hauto]

end Threads

/-! ## The alternator -/

/-- The rules of the alternator disagree on its cell. -/
theorem alternator_conflictFree (info : TypeInfo D) : ConflictFree (alternatorProto info) where
  unguarded := by
    intro r hr
    rcases alternator_rules hr with rfl | rfl <;> rfl
  rules := by
    have hm₃ : isMemLoc alternatorDef.locKinds 3 = true := by decide
    refine List.pairwise_pair.2 (.inr (.inr ⟨3, hm₃, ?_, ?_⟩))
    · exact ⟨⟨3, [2]⟩, List.mem_singleton_self _, rfl⟩
    · exact ⟨⟨1, [3]⟩, by simp, List.mem_singleton_self 3⟩

/-- The second putter is first to call, in one of the interleavings. -/
theorem determinate_alternator : ∃ s b t h' t',
    (finish (alternatorProto cellInfo)).run (.new .empty) = .ok s b ∧
    Run.Reach (Threads.Step .actual) (.start s (alternatorThreads [.put (.data 7)]
      [.put (.data 8)] [.get, .getSignal])) [.call 1 (.put (.data 8))] t ∧
    Run.Reach (Threads.Step .actual) (.start s (alternatorThreads [.put (.data 7)]
      [.put (.data 8)] [.get, .getSignal])) h' t' ∧ Run.Stuck (Threads.Step .actual) t' ∧
    ∃ k, (k ++ [Automaton.Act.call 1 (.put (.data 8))]).Perm
      (h'.filterMap Ports.Act.observed) := by
  obtain ⟨s, b, hfin⟩ := finish_alternator cellInfo .empty
  obtain ⟨h', t', hrun', hstuck'⟩ := Threads.exists_stuck .actual
    (alternator_plain cellInfo) (alternator_involvesPort cellInfo) hfin
    (alternatorThreads [.put (.data 7)] [.put (.data 8)] [.get, .getSignal])
  have hscript := alternatorScript_round (.data 7 : Datum Nat) (.data 8)
  obtain ⟨_, hs⟩ := (built_of_finish hfin).standing
  have hlookup : (alternatorProto cellInfo).typelessProtoDef.locKinds.lookup 1 =
      some .portPutter := (by decide : alternatorDef.locKinds.lookup 1 = some .portPutter)
  obtain ⟨sp, box, hspace, -⟩ := hs.shaped.isPutter hlookup
  have hrun : Run.Reach (Threads.Step .actual) (.start s (alternatorThreads [.put (.data 7)]
      [.put (.data 8)] [.get, .getSignal])) [.call 1 (.put (.data 8))] _ :=
    .single (.call rfl (.callPut rfl hspace rfl))
  exact ⟨s, b, _, h', t', hfin, hrun, hrun', hstuck',
    (Threads.determinate (alternatorProto cellInfo) hfin (alternator_plain cellInfo)
      (alternator_conflictFree cellInfo) (hscript.wellKinded cellInfo) hscript.untimed hrun hrun'
      hstuck').1⟩

end ReoRs
