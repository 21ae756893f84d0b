import ReoRs.Proofs.Pass
import ReoRs.Proofs.Slots
import ReoRs.Proto.Builder

/-!
# A firing that panics at a clone

When a port putter has memory cells and ports among its getters, the first
cell gets a clone of the datum. A type without `Clone` has a clone function
that panics, and the lock does not poison; so the next thread to take it goes
on with what is there.

By then the memory bits have been assigned and the readiness is subtracted.
The actions before this one are done. The panicking action itself has got no
further than the storage. A rule that was committed to had its bits assigned at
the commitment, which is not over either: it is left with nobody to wait for.
-/

namespace ReoRs

variable {D : Type}

open ProtoAll
open Effect (Avoids avoids_pure avoids_throw avoids_set avoids_modify avoids_get_bind
  avoids_forEach error_of_bind_error)

/-- The firing has left no trace. -/
structure Untouched (s t : ProtoAll D) : Prop where
  memoryBits : t.w.memoryBits = s.w.memoryBits
  ready : t.w.active.ready = s.w.active.ready
  pointers : ∀ l, t.cell l = s.cell l
  memRefs : t.w.active.memRefs = s.w.active.memRefs
  owned : t.w.active.storage.owned = s.w.active.storage.owned
  initialised : ∀ p τ, t.w.active.storage.owned.lookup p = some τ → t.heap.read p ≠ none

/-- What a panicking action leaves of the state it was begun in. -/
structure Interrupted (a : RunAction) (s t : ProtoAll D) : Prop where
  cause : ∃ sp b g gs gp, s.getSpace a.putter = some (.poPu sp b) ∧ a.mg = g :: gs ∧ a.pg ≠ [] ∧
    s.getMePu g = some gp ∧ gp.typeInfo.funcs.clone = .undefined
  shared : t.r = s.r
  memoryBits : t.w.memoryBits = s.w.memoryBits
  ready : t.w.active.ready = s.w.active.ready
  commitment : t.w.commitment = s.w.commitment
  memRefs : t.w.active.memRefs = s.w.active.memRefs
  owned : ∀ p τ, s.w.active.storage.owned.lookup p = some τ →
    t.w.active.storage.owned.lookup p = some τ ∧ t.heap.read p = s.heap.read p

/-! ## Who calls a clone function -/

section Avoids

theorem avoids_liftHeap {f : Heap D → Except Fault (Heap D)}
    (h : ∀ heap, f heap ≠ .error .unclonable) : Avoids .unclonable (liftHeap f) := by
  refine avoids_get_bind fun m => ?_
  split
  · exact avoids_set _
  · next e he =>
      refine avoids_throw ?_
      rintro rfl
      exact h _ he

theorem avoids_alloc (info : TypeInfo D) : Avoids .unclonable (Storage.alloc info) := by
  refine (avoids_modify _).bind fun _ => avoids_get_bind fun m => ?_
  dsimp only
  refine (avoids_set _).bind fun _ => ?_
  split
  · exact avoids_throw (by decide)
  · exact avoids_pure _

theorem avoids_innerFree (ptr : Ptr) (layout : Layout) :
    Avoids .unclonable (Storage.innerFree (D := D) ptr layout) := by
  refine avoids_get_bind fun m => ?_
  split
  · exact avoids_throw (by decide)
  · refine (avoids_set _).bind fun _ => ?_
    split
    · exact avoids_throw (by decide)
    · exact avoids_set _

theorem avoids_moveIn (src : Ptr) (info : TypeInfo D) :
    Avoids .unclonable (Storage.moveIn src info) := by
  refine (avoids_alloc info).bind fun dest => ?_
  refine (avoids_liftHeap fun heap => ?_).bind fun _ => avoids_pure _
  intro h
  rw [TypeInfo.copyFnExecute, TypeInfo.copied] at h
  split at h
  · cases h
  · cases h

theorem avoids_dropInside (ptr : Ptr) (info : TypeInfo D) :
    Avoids .unclonable (Storage.dropInside ptr info) := by
  refine (avoids_liftHeap fun heap => ?_).bind fun _ => avoids_innerFree _ _
  cases info.funcs.drop with
  | undefined =>
      intro h
      cases h
  | dropInPlace =>
      intro h
      cases hr : heap.read ptr with
      | none =>
          rw [DropFn.execute, hr] at h
          cases h
      | some v =>
          rw [DropFn.execute, hr] at h
          cases h

theorem avoids_overwriteNullPtr (l : LocId) (q : Ptr) :
    Avoids .unclonable (overwriteNullPtr (D := D) l q) := by
  refine avoids_get_bind fun s => ?_
  split
  · exact avoids_throw (by decide)
  · refine (avoids_set _).bind fun _ => ?_
    split
    · exact avoids_throw (by decide)
    · exact avoids_pure _

theorem avoids_fillCell (l : LocId) (q : Ptr) : Avoids .unclonable (fillCell (D := D) l q) :=
  (avoids_overwriteNullPtr l q).bind fun _ => avoids_modify _

theorem avoids_send (l : LocId) (msg : Nat) : Avoids .unclonable (send (D := D) l msg) := by
  refine avoids_get_bind fun s => ?_
  split
  · exact avoids_throw (by decide)
  · exact avoids_throw (by decide)
  · exact avoids_set _

theorem avoids_makeEmpty (drop : Bool) (l : LocId) :
    Avoids .unclonable (makeEmpty (D := D) drop l) := by
  refine avoids_get_bind fun s => ?_
  split
  · exact avoids_throw (by decide)
  · refine (avoids_set _).bind fun _ => Avoids.bind ?_ fun _ => avoids_get_bind fun t => ?_
    · refine avoids_get_bind fun t => ?_
      split
      · exact avoids_throw (by decide)
      · split
        · exact avoids_throw (by decide)
        · refine (avoids_modify _).bind fun _ => ?_
          split
          · refine (avoids_modify _).bind fun _ => Avoids.zoom ?_
            split
            · exact avoids_dropInside _ _
            · exact avoids_innerFree _ _
          · exact avoids_pure _
    · refine (avoids_set _).bind fun _ => ?_
      split
      · exact avoids_throw (by decide)
      · exact avoids_pure _

theorem avoids_sharePointer (p : LocId) (src : Ptr) (tid : TypeId) (mg : List LocId) :
    Avoids .unclonable (sharePointer (D := D) p src tid mg) := by
  refine (avoids_forEach (fun g => ?_) mg).bind fun _ => avoids_get_bind fun s => ?_
  · rw [duplicateRef]
    split
    · exact avoids_pure _
    · refine avoids_get_bind fun s => ?_
      split
      · exact avoids_throw (by decide)
      · split
        · exact avoids_throw (by decide)
        · exact avoids_fillCell _ _
  · split
    · exact avoids_throw (by decide)
    · split
      · exact avoids_throw (by decide)
      · exact (avoids_set _).bind fun _ => avoids_pure _

theorem avoids_shareSlot (tid : TypeId) (dest : Ptr) (l : LocId) :
    Avoids .unclonable (shareSlot (D := D) tid dest l) := by
  refine avoids_get_bind fun s => ?_
  split
  · exact avoids_throw (by decide)
  · split
    · exact avoids_throw (by decide)
    · exact avoids_fillCell _ _

theorem avoids_countRefs (dest : Ptr) (n : Nat) :
    Avoids .unclonable (countRefs (D := D) dest n) := by
  refine avoids_get_bind fun s => (avoids_set _).bind fun _ => ?_
  split
  · exact avoids_throw (by decide)
  · exact avoids_pure _

theorem avoids_releasePutter (p : LocId) (mg : List LocId) :
    Avoids .unclonable (releasePutter (D := D) p mg) := by
  refine avoids_get_bind fun s => ?_
  split
  · exact avoids_send _ _
  · split
    · exact avoids_pure _
    · exact avoids_makeEmpty _ _
  · split
    · exact avoids_pure _
    · exact avoids_makeEmpty _ _
  · exact avoids_throw (by decide)

theorem avoids_callGetters (p : LocId) (disableMove : Bool) (pg : List LocId) :
    Avoids .unclonable (callGetters (D := D) p disableMove pg) := by
  refine (avoids_modify _).bind fun _ => avoids_forEach (fun g => ?_) pg
  refine avoids_get_bind fun s => ?_
  split
  · exact avoids_send _ _
  · exact avoids_throw (by decide)

theorem avoids_notifyWaiters (ready : BitSet) : ∀ kept ws : List StateWaiter,
    Avoids .unclonable (notifyWaiters (D := D) ready kept ws)
  | _, [] => avoids_modify _
  | kept, w :: ws => by
      rw [notifyWaiters]
      refine (avoids_modify _).bind fun _ => ?_
      split
      · refine avoids_get_bind fun s => ?_
        dsimp only
        split
        · exact (avoids_send _ _).bind fun _ => avoids_notifyWaiters ready kept ws
        · exact Avoids.bind (avoids_throw (by decide)) fun _ => avoids_notifyWaiters ready kept ws
      · exact avoids_notifyWaiters ready (kept ++ [w]) ws

theorem avoids_notifyStateWaiters : Avoids .unclonable (notifyStateWaiters (D := D)) :=
  avoids_get_bind fun _ => avoids_notifyWaiters _ _ _

end Avoids

/-! ## The action that panics -/

/-- An allocation leaves alone what is owned. -/
theorem owned_of_alloc {info : TypeInfo D} {m m' : Mem D} {dest : Ptr}
    (h : (Storage.alloc info).run m = .ok dest m') {p : Ptr} {τ : TypeId}
    (hp : m.storage.owned.lookup p = some τ) :
    m'.storage.owned.lookup p = some τ ∧ m'.heap.read p = m.heap.read p := by
  have howned := (handsOut_alloc info).owned h
  rw [Storage.alloc, EStateM.run_bind, EStateM.run_modify] at h
  simp only [EStateM.run_bind, EStateM.run_get, EStateM.run_set] at h
  obtain ⟨hfree, hnote⟩ := noteType_free m.storage info
  cases hstack : (m.storage.free.lookup info.layout).getD [] with
  | cons top rest =>
      rw [Storage.popFree, hfree, hstack] at h
      simp only [hnote] at h
      split at h
      · cases h
      · next hdest =>
          cases h
          have hne : p ≠ dest := by
            rintro rfl
            rw [hp] at hdest
            cases hdest
          exact ⟨by rw [howned, AList.lookup_insert_ne hne, hp], rfl⟩
  | nil =>
      rw [Storage.popFree, hfree, hstack] at h
      simp only [hnote] at h
      split at h
      · cases h
      · next hdest =>
          cases h
          have hne : p ≠ (m.heap.allocate info.layout).1 := by
            rintro rfl
            rw [hp] at hdest
            cases hdest
          exact ⟨by rw [howned, AList.lookup_insert_ne hne, hp], Heap.read_write_ne _ _ hne⟩

/-- The slot has been allocated, and nothing is in it. -/
theorem cloneIn_unclonable {src : Ptr} {info : TypeInfo D} {m m' : Mem D}
    (h : (Storage.cloneIn src info).run m = .error .unclonable m') :
    info.funcs.clone = .undefined ∧ ∀ p τ, m.storage.owned.lookup p = some τ →
      m'.storage.owned.lookup p = some τ ∧ m'.heap.read p = m.heap.read p := by
  rw [Storage.cloneIn] at h
  rcases error_of_bind_error h with halloc | ⟨dest, m₁, halloc, hclone⟩
  · exact absurd halloc (avoids_alloc info _ _)
  rcases error_of_bind_error hclone with hlift | ⟨_, m₂, -, hpure⟩
  · rw [liftHeap, EStateM.run_bind, EStateM.run_get] at hlift
    dsimp only at hlift
    split at hlift
    · cases hlift
    · next e he =>
        cases hlift
        refine ⟨?_, fun p τ hp => owned_of_alloc halloc hp⟩
        cases hc : info.funcs.clone with
        | undefined => rfl
        | defined f =>
            rw [hc, CloneFn.execute, CloneFn.cloned] at he
            cases hr : m'.heap.read src with
            | none => rw [hr] at he; cases he
            | some v => rw [hr] at he; cases he
  · cases hpure

theorem performAction_unclonable {a : RunAction} {s t : ProtoAll D}
    (h : (performAction a.putter a.mg a.pg).run s = .error .unclonable t) :
    Interrupted a s t := by
  have hfeed : (feedMemory a.putter a.mg a.pg).run s = .error .unclonable t := by
    rw [performAction] at h
    rcases error_of_bind_error h with hfeed | ⟨d, u, -, hend⟩
    · exact hfeed
    · split at hend
      · exact absurd hend (avoids_releasePutter _ _ _ _)
      · exact absurd hend (avoids_callGetters _ _ _ _ _)
  rw [feedMemory, EStateM.run_bind, EStateM.run_get] at hfeed
  dsimp only at hfeed
  split at hfeed
  · next sp b hsp =>
      -- only a port putter clones
      rcases error_of_bind_error hfeed with hpop | ⟨_, _, -, hpure⟩
      · cases hmg : a.mg with
        | nil => rw [hmg] at hpop; cases hpop
        | cons g gs =>
            rw [hmg, populateMemory, EStateM.run_bind, EStateM.run_get] at hpop
            dsimp only at hpop
            split at hpop
            · cases hpop
            · next gp hgp =>
                rcases error_of_bind_error hpop with hstore | ⟨dest, u, -, hrest⟩
                · obtain ⟨m, hm, rfl⟩ := Effect.error_of_zoom_error hstore
                  cases hpg : a.pg.length with
                  | zero =>
                      rw [hpg] at hm
                      exact absurd hm (avoids_moveIn _ _ _ _)
                  | succ n =>
                      rw [hpg] at hm
                      obtain ⟨hundef, howned⟩ := cloneIn_unclonable hm
                      refine ⟨⟨sp, b, g, gs, gp, hsp, hmg, ?_, hgp, hundef⟩, rfl, rfl, rfl, rfl,
                        rfl, howned⟩
                      intro hnil
                      rw [hnil] at hpg
                      cases hpg
                · refine absurd hrest (Avoids.bind (avoids_fillCell _ _) (fun _ => ?_) _ _)
                  exact (avoids_forEach (fun g => avoids_shareSlot _ _ g) gs).bind fun _ =>
                    avoids_countRefs _ _
      · cases hpure
  · exact absurd hfeed (avoids_sharePointer _ _ _ _ _ _)
  · exact absurd hfeed (avoids_sharePointer _ _ _ _ _ _)
  · cases hfeed

/-! ## The firing -/

/-- Some actions of the rule have been performed from `s` on, and the next one
has panicked. -/
def StoppedAmid (rule : RunRule D) (s t : ProtoAll D) : Prop :=
  ∃ done a rest u, rule.actions = done ++ a :: rest ∧
    ({ rule with actions := done }.fire).run s = .ok () u ∧ Interrupted a u t

theorem fire_unclonable {rule : RunRule D} {s t : ProtoAll D}
    (h : rule.fire.run s = .error .unclonable t) :
    StoppedAmid rule s t ∧ t.w.memoryBits = s.w.memoryBits ∧
      t.w.commitment = s.w.commitment := by
  obtain ⟨done, a, rest, u, heq, hdone, ha⟩ := Effect.error_of_forEach_error h
  have hint := performAction_unclonable ha
  have hframe : Frame s u := (keeps_fire { rule with actions := done }).of_ok (Frame.refl _) hdone
  exact ⟨⟨done, a, rest, u, heq, hdone, hint⟩, hint.memoryBits.trans hframe.memoryBits,
    hint.commitment.trans hframe.commitment⟩

theorem fireRule_stops {i : RuleId} {rule : RunRule D} {s t : ProtoAll D}
    (h : (fireRule i rule).run s = .error .unclonable t) :
    t.w.memoryBits = assignMemoryBits s.w.memoryBits rule ∧
      StoppedAmid rule (s.prepare rule) t := by
  rw [fireRule, EStateM.run_bind, EStateM.run_get] at h
  dsimp only at h
  have hsend : ∀ ids, Avoids .unclonable (Effect.forEach (sendTentative (D := D) i) ids) := by
    refine avoids_forEach fun id => avoids_get_bind fun u => ?_
    split
    · exact avoids_send _ _
    · exact avoids_throw (by decide)
  rcases error_of_bind_error h with hsent | ⟨_, u, hsent, h⟩
  · exact absurd hsent (hsend _ _ _)
  rw [EStateM.run_bind, EStateM.run_modify] at h
  dsimp only at h
  split at h
  · cases h
  · next hnone =>
      -- with no tentative port nothing was sent
      have hnil : s.w.active.ready.iterAnd s.w.readyTentative = [] :=
        List.eq_nil_of_length_eq_zero (by omega)
      rw [hnil] at hsent
      cases hsent
      rw [EStateM.run_bind, EStateM.run_modify] at h
      dsimp only at h
      rcases error_of_bind_error h with hfire | ⟨_, v, -, hnotify⟩
      · obtain ⟨hstop, hbits, -⟩ := fire_unclonable (s := s.prepare rule) hfire
        exact ⟨hbits, hstop⟩
      · refine absurd hnotify (avoids_notifyStateWaiters.bind (fun _ => avoids_pure _) _ _)

/-- The state in which the call of the last tentative port performs the actions
of the rule that was committed to. -/
def ProtoAll.resume (s : ProtoAll D) (id : LocId) (c : Commitment) (rule : RunRule D) :
    ProtoAll D :=
  { s with w := { s.w with
      readyTentative := (s.w.readyTentative.setTo id false).1
      commitment := some { c with awaiting := c.awaiting - 1 }
      active := { s.w.active with
        ready := subtractReadiness (s.w.active.ready.setTo id true).1 rule } } }

theorem readySet_stops {id : LocId} {s t : ProtoAll D}
    (h : (readySet id).run s = .error .unclonable t) :
    ∃ c rule, s.w.commitment = some c ∧ c.awaiting = 1 ∧ s.r.rules[c.ruleId]? = some rule ∧
      t.w.memoryBits = s.w.memoryBits ∧ t.w.commitment = some { c with awaiting := 0 } ∧
      StoppedAmid rule (s.resume id c rule) t := by
  rw [readySet, EStateM.run_bind, EStateM.run_modify] at h
  simp only [EStateM.run_bind, EStateM.run_get] at h
  split at h
  · cases h
  · next c hc =>
      rw [EStateM.run_bind, EStateM.run_set] at h
      dsimp only at h
      split at h
      · split at h
        · cases h
        · next hpos =>
            rw [EStateM.run_bind, EStateM.run_modify] at h
            dsimp only at h
            split at h
            · next hlast =>
                split at h
                · cases h
                · next rule hrule =>
                    rw [EStateM.run_bind, EStateM.run_modify] at h
                    dsimp only at h
                    rcases error_of_bind_error h with hfire | ⟨_, v, -, hnotify⟩
                    · obtain ⟨hstop, hbits, hcommit⟩ :=
                        fire_unclonable (s := s.resume id c rule) hfire
                      refine ⟨c, rule, hc, by omega, hrule, hbits, ?_, hstop⟩
                      rw [hcommit, ProtoAll.resume, hlast]
                    · refine absurd hnotify (Avoids.bind avoids_notifyStateWaiters
                        (fun _ => (avoids_modify _).bind fun _ => avoids_pure _) _ _)
            · cases h
      · cases h

/-- A firing that panics at a clone has taken the readiness and done the actions
before the one that panics, and that one has changed nothing but what the
storage did not own. The memory bits are those the rule assigns, or were
assigned when it was committed to. -/
theorem fireRule_unclonable (s t : ProtoAll D) :
    (∀ i rule, (fireRule i rule).run s = .error .unclonable t →
      t.w.memoryBits = assignMemoryBits s.w.memoryBits rule ∧
        StoppedAmid rule (s.prepare rule) t) ∧
      ∀ id, (readySet id).run s = .error .unclonable t →
        ∃ c rule, s.w.commitment = some c ∧ c.awaiting = 1 ∧
          s.r.rules[c.ruleId]? = some rule ∧ t.w.memoryBits = s.w.memoryBits ∧
          t.w.commitment = some { c with awaiting := 0 } ∧
          StoppedAmid rule (s.resume id c rule) t :=
  ⟨fun _ _ => fireRule_stops, fun _ => readySet_stops⟩

/-! ## A put to a cell and a port -/

def handle : TypeInfo Nat := ⟨1, false, ⟨8, 8⟩, ⟨.undefined, .undefined, .undefined⟩⟩

/-- Port 0 puts to cell 1 and port 2, what cannot be cloned. -/
def tee : Proto Nat where
  typelessProtoDef := ⟨⟨[⟨.true, [⟨0, [1, 2]⟩]⟩]⟩,
    collectMap [(0, .portPutter), (1, .memUninitialized), (2, .portGetter)]⟩
  fillMemory := fun _ => none
  defFunc := fun _ => none
  locType := fun _ => some handle

/-- The getter arrives and finds nothing to do, then the putter arrives and
panics. -/
theorem tee_panics : ∃ s b s₁ s₂ s₃ run t, (finish tee).run (.new .empty) = .ok s b ∧
    (readySet 2).run s = .ok true s₁ ∧ exhaustPass.run s₁ = .ok .quiet s₂ ∧
    (readySet 0).run (s₂.offer 0 (.data 7)) = .ok true s₃ ∧
    exhaustPass.run s₃ = .error .unclonable t ∧ s₃.r.rules[0]? = some run ∧ Enabled s₃ run ∧
    (fireRule 0 run).run s₃ = .error .unclonable t ∧
    s.getSpace 2 = some (.poGe .new) ∧ (∃ sp, s₂.getSpace 0 = some (.poPu sp .new)) ∧
    s₃.w.memoryBits.test 1 = false ∧ t.w.memoryBits.test 1 = true ∧
    t.w.active.storage.owned.lookup (.store 1) = some handle.typeId ∧
    t.heap.read (.store 1) = none :=
  ⟨_, _, _, _, _, _, _, rfl, rfl, rfl, rfl, rfl, rfl, ⟨rfl, rfl⟩, rfl, rfl, ⟨_, rfl⟩, rfl, rfl,
    rfl, rfl⟩

/-- A commitment to the rule waits for one more port, which is told from those
already there by not being flagged tentative. -/
def awaited (s : ProtoAll Nat) (run : RunRule Nat) : ProtoAll Nat :=
  { s with w := { s.w with
      memoryBits := assignMemoryBits s.w.memoryBits run
      commitment := some ⟨0, 1⟩ } }

theorem tee_resumes : ∃ s b s₁ run t, (finish tee).run (.new .empty) = .ok s b ∧
    (readySet 2).run s = .ok true s₁ ∧ s₁.r.rules[0]? = some run ∧
    (readySet 0).run (awaited (s₁.offer 0 (.data 7)) run) = .error .unclonable t :=
  ⟨_, _, _, _, _, rfl, rfl, rfl, rfl⟩

theorem fireRule_unclonable_tee :
    (∃ (s : ProtoAll Nat) (run : RunRule Nat) (t : ProtoAll Nat),
      (fireRule 0 run).run s = .error .unclonable t ∧
        t.w.memoryBits = assignMemoryBits s.w.memoryBits run ∧
        StoppedAmid run (s.prepare run) t) ∧
      ∃ s t : ProtoAll Nat, (readySet 0).run s = .error .unclonable t ∧
        ∃ c run, s.w.commitment = some c ∧ c.awaiting = 1 ∧ s.r.rules[c.ruleId]? = some run ∧
          t.w.memoryBits = s.w.memoryBits ∧ t.w.commitment = some { c with awaiting := 0 } ∧
          StoppedAmid run (s.resume 0 c run) t := by
  obtain ⟨-, -, -, -, s, run, t, -, -, -, -, -, -, -, hfire, -⟩ := tee_panics
  obtain ⟨-, -, u, rule, v, -, -, -, hresume⟩ := tee_resumes
  exact ⟨⟨s, run, t, hfire, (fireRule_unclonable s t).1 0 run hfire⟩, _, v, hresume,
    (fireRule_unclonable _ v).2 0 hresume⟩

/-- The cell is said to be full and points nowhere, and the storage owns a
slot with nothing in it. -/
theorem not_untouched_tee : ∃ s b h c run t, (finish tee).run (.new .empty) = .ok s b ∧
    Run.Reach Coordination.Step (.start s) h c ∧ c.locked = true ∧
    c.proto.r.rules[0]? = some run ∧ Enabled c.proto run ∧
    (fireRule 0 run).run c.proto = .error .unclonable t ∧
    Coordination.Step c .panic { c with proto := t, locked := false } ∧
    ¬ Untouched c.proto t ∧
    ∃ p τ, t.w.active.storage.owned.lookup p = some τ ∧ t.heap.read p = none := by
  obtain ⟨s, b, s₁, s₂, s₃, run, t, hfin, hget, hpass, hput, hpanic, hrule, henabled, hfire, hge,
    ⟨sp, hpu⟩, hempty, hfull, howned, hnone⟩ := tee_panics
  refine ⟨s, b, _, _, run, t, hfin, .tail (.tail (.tail (.tail (.tail .refl (.request rfl hge))
    (.arrive rfl rfl hget)) (.leave rfl (fun _ h => by cases h) hpass)) (.offer rfl hpu))
    (.arrive rfl rfl hput),
    rfl, hrule, henabled, hfire, .panic rfl hpanic, ?_, _, _, howned, hnone⟩
  intro h
  rw [h.memoryBits] at hfull
  exact Bool.false_ne_true (hempty.symm.trans hfull)

end ReoRs
