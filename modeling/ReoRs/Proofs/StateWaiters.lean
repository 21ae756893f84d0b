import ReoRs.Proofs.Asking
import ReoRs.Proofs.BitSetAlgebra

/-!
# Who waits for a state and is woken

After every firing the waiters whose state is included in the ready set are
sent the message that means nothing, and are struck off the list. The loop
does this right, for waiters at distinct ports whose dropboxes are empty. What
it goes by is `is_superset`, and that compares the lengths of the two vectors
before it compares the sets: a waiter whose state has more chunks than the
ready set sleeps on, even if the chunks it has more are zero. `Fits` excludes
that one case, and with it everything is as it should be.
-/

namespace ReoRs

namespace BitSet

/-- Every index of `o` is one of `s`. -/
def Included (o s : BitSet) : Prop := ∀ i, o.test i = true → s.test i = true

/-- Only what the chunks of `o` have room for has to be looked at. -/
theorem all_range_iff_included {o s : BitSet} :
    (List.range (64 * o.data.length)).all (fun i => !o.test i || s.test i) = true ↔
      Included o s := by
  rw [List.all_eq_true]
  constructor
  · intro h i hi
    have hlt := lt_length_of_test hi
    rw [bitsPerChunk] at hlt
    have hor := h i (List.mem_range.2 (by omega))
    rwa [hi, Bool.not_true, Bool.false_or] at hor
  · intro h i _
    cases hi : o.test i with
    | false => rfl
    | true => rw [h i hi]; rfl

instance (o s : BitSet) : Decidable (Included o s) := decidable_of_iff _ all_range_iff_included

/-- A set may be asked whether it includes any set but one that it does include
and whose vector is longer. -/
def Fits (s o : BitSet) : Prop :=
  o.data.length ≤ s.data.length ∨ ∃ i, o.test i = true ∧ s.test i = false

theorem or_and_not_eq_zero_iff {x y : Chunk} : (x ||| y) &&& ~~~ x = 0#64 ↔
    ∀ k, k < 64 → y.getLsbD k = true → x.getLsbD k = true := by
  have hbit : ∀ k, k < 64 →
      ((x ||| y) &&& ~~~ x).getLsbD k = (y.getLsbD k && !x.getLsbD k) := by
    intro k hk
    rw [BitVec.getLsbD_and, BitVec.getLsbD_or, BitVec.getLsbD_not, decide_eq_true hk]
    cases x.getLsbD k <;> cases y.getLsbD k <;> rfl
  constructor
  · intro h k hk hy
    have hk' := hbit k hk
    rw [h, BitVec.getLsbD_zero, hy, Bool.true_and] at hk'
    simpa using hk'
  · intro h
    refine BitVec.eq_of_getLsbD_eq fun k hk => ?_
    rw [hbit k hk, BitVec.getLsbD_zero]
    cases hy : y.getLsbD k with
    | false => rfl
    | true => rw [h k hk hy]; rfl

/-- The zipped loop compares the chunks that both vectors have. -/
theorem supersetChunks_iff : ∀ ss os : List Chunk, supersetChunks ss os = true ↔
    ∀ (n : Nat) (x y : Chunk), ss[n]? = some x → os[n]? = some y → (x ||| y) &&& ~~~ x = 0#64
  | [], os => by simp [supersetChunks]
  | s :: ss, [] => by simp [supersetChunks]
  | s :: ss, o :: os => by
      rw [supersetChunks]
      constructor
      · intro h n x y hx hy
        split at h
        · cases h
        · next hzero =>
            cases n with
            | zero =>
                cases hx
                cases hy
                simpa using hzero
            | succ n => exact (supersetChunks_iff ss os).1 h n x y hx hy
      · intro h
        rw [if_neg (by simpa using h 0 s o rfl rfl)]
        exact (supersetChunks_iff ss os).2 fun n => h (n + 1)

/-- With a vector that is long enough the loop compares the sets. -/
theorem supersetChunks_eq_true_iff {s o : BitSet} (hlen : o.data.length ≤ s.data.length) :
    supersetChunks s.data o.data = true ↔ Included o s := by
  rw [supersetChunks_iff]
  constructor
  · intro h i hi
    obtain ⟨y, hy, hbit⟩ := getElem?_of_test hi
    have hlt : i / 64 < s.data.length := Nat.lt_of_lt_of_le (List.getElem?_eq_some_iff.1 hy).1 hlen
    have hx := List.getElem?_eq_getElem hlt
    rw [test_eq_mem, Words.mem_of_getElem? hx]
    exact or_and_not_eq_zero_iff.1 (h _ _ _ hx hy) _ (Nat.mod_lt i (by decide)) hbit
  · intro h n x y hx hy
    refine or_and_not_eq_zero_iff.2 fun k hk hbit => ?_
    rw [← test_of_getElem? hy hk] at hbit
    rw [← test_of_getElem? hx hk]
    exact h _ hbit

theorem isSuperset_eq_true_iff (s o : BitSet) :
    s.isSuperset o = true ↔ o.data.length ≤ s.data.length ∧ Included o s := by
  rw [isSuperset]
  split
  · next hlt => exact iff_of_false Bool.false_ne_true fun h => absurd h.1 (Nat.not_le.2 hlt)
  · next hge =>
      have hlen := Nat.le_of_not_lt hge
      rw [supersetChunks_eq_true_iff hlen]
      exact (and_iff_right hlen).symm

theorem isSuperset_iff_included_iff (s o : BitSet) :
    (s.isSuperset o = true ↔ Included o s) ↔ Fits s o := by
  have hnot : ¬ Included o s ↔ ∃ i, o.test i = true ∧ s.test i = false := by
    rw [Included, not_forall]
    refine exists_congr fun i => ?_
    rw [Classical.not_imp, Bool.not_eq_true]
  rw [isSuperset_eq_true_iff, Fits, ← hnot, and_iff_right_iff_imp]
  exact ⟨fun h => or_iff_not_imp_right.2 fun hin => h (not_not.1 hin),
    fun h hin => h.resolve_right fun hno => hno hin⟩

end BitSet

open BitSet (Included Fits)
open ProtoAll

variable {D : Type}

/-! ## The loop -/

/-- Which waiters are listed is of no account to a dropbox. -/
theorem tellAll_setAwaitingStates (msg : Nat) (ls : List LocId) (s : ProtoAll D)
    (ws : List StateWaiter) :
    tellAll msg ls (s.setAwaitingStates ws) = (tellAll msg ls s).setAwaitingStates ws := by
  induction ls generalizing s with
  | nil => rfl
  | cons l ls ih => exact ih (s.setDropbox l _)

/-- The loop over waiters that can be told: the ones whose state is met are
told, and the others stay. -/
theorem run_notifyWaiters (ready : BitSet) : ∀ {ws kept : List StateWaiter} {s : ProtoAll D},
    (ws.map (·.whom)).Nodup → (∀ w ∈ ws, s.getDropbox w.whom = some ⟨none⟩) →
      (notifyWaiters ready kept ws).run s =
        .ok () ((tellAll MsgDropbox.nothingMsg
            ((ws.filter fun w => ready.isSuperset w.state).map (·.whom)) s).setAwaitingStates
          (kept ++ ws.filter fun w => !ready.isSuperset w.state))
  | [], kept, s, _, _ => by
      simp only [List.filter_nil, List.append_nil]
      rfl
  | w :: ws, kept, s, hnd, hboxes => by
      rw [List.map_cons, List.nodup_cons] at hnd
      rw [notifyWaiters, EStateM.run_bind, EStateM.run_modify]
      have hbox : (s.setAwaitingStates (kept ++ w :: ws)).getDropbox w.whom = some ⟨none⟩ :=
        hboxes w List.mem_cons_self
      cases hsup : ready.isSuperset w.state with
      | true =>
          have hrest : ∀ w' ∈ ws, ((s.setAwaitingStates (kept ++ w :: ws)).setDropbox w.whom
              (some MsgDropbox.nothingMsg)).getDropbox w'.whom = some ⟨none⟩ := by
            intro w' hw'
            have hne : w'.whom ≠ w.whom := fun h => hnd.1 (h ▸ List.mem_map_of_mem hw')
            rw [getDropbox_setDropbox_ne _ _ hne]
            exact hboxes w' (List.mem_cons_of_mem w hw')
          have htold := run_send MsgDropbox.nothingMsg hbox rfl
          simp only [if_true, EStateM.run_bind, EStateM.run_get, hbox, htold,
            run_notifyWaiters ready hnd.2 hrest]
          simp only [List.filter_cons, hsup, Bool.not_true, Bool.false_eq_true, if_false, if_true,
            List.map_cons, tellAll_cons]
          rw [← tellAll_cons, tellAll_setAwaitingStates, tellAll_cons]
          rfl
      | false =>
          simp only [Bool.false_eq_true, if_false]
          have hrest : ∀ w' ∈ ws,
              (s.setAwaitingStates (kept ++ w :: ws)).getDropbox w'.whom = some ⟨none⟩ :=
            fun w' hw' => hboxes w' (List.mem_cons_of_mem w hw')
          rw [run_notifyWaiters ready hnd.2 hrest]
          simp only [List.filter_cons, hsup, Bool.not_false, Bool.false_eq_true, if_false, if_true,
            tellAll_setAwaitingStates, List.append_assoc, List.singleton_append]
          rfl

/-! ## The waiters of an instance -/

/-- The waiters are at distinct ports, and none has a message yet. -/
structure ProtoAll.Listening (s : ProtoAll D) : Prop where
  distinct : (s.w.awaitingStates.map (·.whom)).Nodup
  empty : ∀ w ∈ s.w.awaitingStates, s.getDropbox w.whom = some ⟨none⟩

/-- The dropbox of a location after the waiters in `woken` were sent the message
that means nothing. -/
def ProtoAll.dropboxAfter (s : ProtoAll D) (woken : List StateWaiter) (l : LocId) :
    Option MsgDropbox :=
  if l ∈ woken.map (·.whom) then some ⟨some MsgDropbox.nothingMsg⟩ else s.getDropbox l

/-- `notify_state_waiters` sends one message to each waiter whose state the
ready set includes, strikes off these, and keeps the others in order. -/
def WakesExactly (s : ProtoAll D) : Prop :=
  ∃ t, notifyStateWaiters.run s = .ok () t ∧
    (∀ l, t.getDropbox l = s.dropboxAfter
      (s.w.awaitingStates.filter fun w => Included w.state s.w.active.ready) l) ∧
    t.w.awaitingStates =
      s.w.awaitingStates.filter fun w => ¬ Included w.state s.w.active.ready

/-- What it does in fact: it goes by `is_superset`. -/
theorem run_notifyStateWaiters_of_listening {s : ProtoAll D} (h : s.Listening) :
    ∃ t, notifyStateWaiters.run s = .ok () t ∧
      (∀ l, t.getDropbox l = s.dropboxAfter
        (s.w.awaitingStates.filter fun w => s.w.active.ready.isSuperset w.state) l) ∧
      t.w.awaitingStates =
        s.w.awaitingStates.filter fun w => !s.w.active.ready.isSuperset w.state := by
  have hrun : (notifyWaiters s.w.active.ready [] s.w.awaitingStates).run s = _ :=
    run_notifyWaiters s.w.active.ready h.distinct h.empty
  generalize hwoken : s.w.awaitingStates.filter
    (fun w => s.w.active.ready.isSuperset w.state) = woken at hrun ⊢
  generalize hkept : s.w.awaitingStates.filter
    (fun w => !s.w.active.ready.isSuperset w.state) = kept at hrun ⊢
  have hsub : woken.Sublist s.w.awaitingStates := hwoken ▸ List.filter_sublist
  have hnd : (woken.map (·.whom)).Nodup := h.distinct.sublist (hsub.map _)
  let told := tellAll MsgDropbox.nothingMsg (woken.map (·.whom)) s
  refine ⟨told.setAwaitingStates kept, ?_, fun l => ?_, rfl⟩
  · rw [notifyStateWaiters, EStateM.run_bind, EStateM.run_get]
    exact hrun
  · show told.getDropbox l = _
    rw [dropboxAfter]
    split
    · next hl =>
        obtain ⟨w, hw, rfl⟩ := List.mem_map.1 hl
        exact getDropbox_tellAll hnd hl (h.empty w (hsub.subset hw))
    · next hl => rw [getDropbox, getSpace_tellAll_of_notMem hl, getDropbox]

/-- The right waiters are woken if and only if no waiter's state is one that
`is_superset` gets wrong. -/
theorem wakesExactly_iff {s : ProtoAll D} (h : s.Listening) :
    WakesExactly s ↔ ∀ w ∈ s.w.awaitingStates, Fits s.w.active.ready w.state := by
  obtain ⟨t, hrun, hboxes, hkept⟩ := run_notifyStateWaiters_of_listening h
  constructor
  · rintro ⟨t', hrun', -, hkept'⟩ w hw
    cases hrun.symm.trans hrun'
    rw [← BitSet.isSuperset_iff_included_iff]
    -- the waiter is among those that stay by both accounts or by neither
    have hstays : (w ∈ s.w.awaitingStates.filter fun w => !s.w.active.ready.isSuperset w.state) ↔
        w ∈ s.w.awaitingStates.filter fun w => ¬ Included w.state s.w.active.ready := by
      rw [← hkept, ← hkept']
    rw [List.mem_filter, List.mem_filter, and_iff_right hw, and_iff_right hw, decide_eq_true_iff,
      Bool.not_eq_true', ← Bool.not_eq_true] at hstays
    exact not_iff_not.1 hstays
  · intro hfits
    have hsame : ∀ w ∈ s.w.awaitingStates,
        s.w.active.ready.isSuperset w.state = decide (Included w.state s.w.active.ready) := by
      intro w hw
      rw [Bool.eq_iff_iff, decide_eq_true_iff]
      exact (BitSet.isSuperset_iff_included_iff _ _).2 (hfits w hw)
    refine ⟨t, hrun, fun l => ?_, ?_⟩
    · rw [hboxes, List.filter_congr hsame]
    · rw [hkept]
      refine List.filter_congr fun w hw => ?_
      rw [hsame w hw, decide_not]

/-- `is_superset` compares the sets, and so the right waiters are woken, if and
only if a longer vector is never that of a set that is included. -/
theorem superset_and_waiters_iff :
    (∀ s o : BitSet, (s.isSuperset o = true ↔ Included o s) ↔ Fits s o) ∧
      ∀ s : ProtoAll D, s.Listening →
        (WakesExactly s ↔ ∀ w ∈ s.w.awaitingStates, Fits s.w.active.ready w.state) :=
  ⟨BitSet.isSuperset_iff_included_iff, fun _ => wakesExactly_iff⟩

/-- Index 0 is ready. Getter 0 waits for a state, and getter 1 for index 1. -/
def waitingRoom (state : BitSet) : ProtoAll Nat where
  r := { rules := [], spaces := [.poGe ⟨none⟩, .poGe ⟨none⟩] }
  w :=
    { memoryBits := ∅
      active := { ready := ⟨[1]⟩, storage := ∅, memRefs := ∅ }
      commitment := none
      readyTentative := ∅
      awaitingStates := [⟨state, 0⟩, ⟨⟨[2]⟩, 1⟩]
      unclaimedPorts := ∅ }
  heap := Heap.empty

theorem listening_waitingRoom (state : BitSet) : (waitingRoom state).Listening where
  distinct := by
    show [0, 1].Nodup
    decide
  empty := by
    intro w hw
    have hwhom : w.whom = 0 ∨ w.whom = 1 := by
      rcases List.mem_cons.1 hw with rfl | hw
      · exact .inl rfl
      · rw [List.mem_singleton.1 hw]
        exact .inr rfl
    rcases hwhom with h | h <;> rw [h] <;> rfl

theorem wakesExactly_waitingRoom : WakesExactly (waitingRoom ⟨[1]⟩) := by
  refine (superset_and_waiters_iff.2 _ (listening_waitingRoom _)).2 fun w hw => ?_
  rcases List.mem_cons.1 hw with rfl | hw
  · exact .inl (by decide)
  · rw [List.mem_singleton.1 hw]
    exact .inl (by decide)

/-- The same state with a zero chunk at the end of its vector. -/
theorem not_wakesExactly_waitingRoom :
    (BitSet.isSuperset ⟨[1]⟩ ⟨[1, 0]⟩ = false ∧ Included ⟨[1, 0]⟩ ⟨[1]⟩) ∧
      (waitingRoom ⟨[1, 0]⟩).Listening ∧ ¬ WakesExactly (waitingRoom ⟨[1, 0]⟩) := by
  have hin : Included ⟨[1, 0]⟩ ⟨[1]⟩ := by decide
  refine ⟨⟨by decide, hin⟩, listening_waitingRoom _, fun h => ?_⟩
  rcases (wakesExactly_iff (listening_waitingRoom _)).1 h _ List.mem_cons_self with
    hlen | ⟨i, ho, hs⟩
  · exact absurd hlen (by decide)
  · have hs' := hin i ho
    rw [show BitSet.test ⟨[1]⟩ i = false from hs] at hs'
    cases hs'

end ReoRs
