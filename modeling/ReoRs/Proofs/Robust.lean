import ReoRs.Proofs.Spaces
import ReoRs.Proto.Coordination

/-!
# What survives an action

An action goes through many small updates, of pointers and readiness bits at
its own locations, of dropboxes, counts and the storage. A property of the
state that none of these ends is kept by the whole action, whether it
succeeds or panics half way. `Robust` lists the updates. The first two are
made at the locations of `may` only, so that a property may be about a
location the action does not touch.
-/

namespace ReoRs

variable {D : Type}

open ProtoAll
open Effect (Keeps keeps_pure keeps_throw keeps_set keeps_modify keeps_get_bind keeps_forEach
  keeps_forEach_of_mem)

theorem keeps_send_of_setDropbox {I : ProtoAll D → Prop}
    (h : ∀ {s}, I s → ∀ l m, I (s.setDropbox l m)) (l : LocId) (msg : Nat) :
    Keeps I (send l msg) := by
  refine keeps_get_bind fun t ht => ?_
  split
  · exact keeps_throw _
  · exact keeps_throw _
  · exact keeps_set (h ht l _)

/-- Waking the waiters sends messages and drops the waiters that got one. -/
theorem keeps_notifyStateWaiters_of_setDropbox {I : ProtoAll D → Prop}
    (h : ∀ {s}, I s → ∀ l m, I (s.setDropbox l m))
    (hawait : ∀ {s}, I s → ∀ ws, I (s.setAwaitingStates ws)) : Keeps I notifyStateWaiters := by
  have hwaiters : ∀ (ready : BitSet) (ws kept : List StateWaiter),
      Keeps I (notifyWaiters ready kept ws) := by
    intro ready ws
    induction ws with
    | nil => exact fun kept => keeps_modify fun t ht => hawait ht kept
    | cons w ws ih =>
        intro kept
        rw [notifyWaiters]
        refine Keeps.bind (keeps_modify fun t ht => hawait ht _) fun _ => ?_
        split
        · refine keeps_get_bind fun t _ => ?_
          dsimp only
          split
          · exact (keeps_send_of_setDropbox h w.whom _).bind fun _ => ih kept
          · exact (keeps_throw _).bind fun _ => ih kept
        · exact ih _
  exact keeps_get_bind fun t _ => hwaiters _ _ _

theorem keeps_reading {α : Type} {I : ProtoAll D → Prop} (x : ProtoAll D → Except Fault α) :
    Keeps I (reading x) := by
  refine keeps_get_bind fun t _ => ?_
  split
  · exact keeps_pure _
  · exact keeps_throw _

/-- The function of a temporary reads its arguments. -/
theorem keeps_compute {I : ProtoAll D → Prop} (f : TempRuleFunc D) : Keeps I f.compute := by
  cases f with
  | arity0 func => exact keeps_pure _
  | arity1 func a => exact (keeps_reading _).bind fun _ => keeps_pure _
  | arity2 func a b =>
      exact (keeps_reading _).bind fun _ => (keeps_reading _).bind fun _ => keeps_pure _
  | arity3 func a b c =>
      exact (keeps_reading _).bind fun _ => (keeps_reading _).bind fun _ =>
        (keeps_reading _).bind fun _ => keeps_pure _

structure Robust (may : LocId → Prop) (I : ProtoAll D → Prop) : Prop where
  setPtr : ∀ {s l}, I s → may l → ∀ q, I (s.setPtr l q)
  setReady : ∀ {s l}, I s → may l → ∀ v, I (s.setReady l v)
  setDropbox : ∀ {s}, I s → ∀ l m, I (s.setDropbox l m)
  beginHandOff : ∀ {s}, I s → ∀ l n d, I (s.mapPutter l (·.beginHandOff n d))
  mapMemRefs : ∀ {s}, I s → ∀ f, I (s.mapMemRefs f)
  store : ∀ {s l p}, I s → s.getMePu l = some p → ∀ src n,
    Keeps I (onStorage (match n with
      | 0 => Storage.moveIn src p.typeInfo
      | _ => Storage.cloneIn src p.typeInfo))
  dispose : ∀ (drop : Bool) src info, Keeps I (onStorage (if drop then Storage.dropInside src info
    else Storage.forgetInside src info))

namespace Robust

variable {may : LocId → Prop} {I : ProtoAll D → Prop} {l p : LocId} {mg : List LocId}

section

variable (h : Robust may I)
include h

theorem overwriteNullPtr (hl : may l) (q : Ptr) : Keeps I (overwriteNullPtr l q) := by
  refine keeps_get_bind fun t ht => ?_
  split
  · exact keeps_throw _
  · refine Keeps.bind (keeps_set (h.setPtr ht hl q)) fun _ => ?_
    split
    · exact keeps_throw _
    · exact keeps_pure _

theorem send (l : LocId) (msg : Nat) : Keeps I (send l msg) :=
  keeps_send_of_setDropbox (fun hs => h.setDropbox hs) l msg

theorem sendToGetter (l : LocId) (msg : Nat) : Keeps I (sendToGetter l msg) := by
  refine keeps_get_bind fun t ht => ?_
  split
  · exact h.send l msg
  · exact keeps_throw _

theorem becomeReady (hl : may l) : Keeps I (becomeReady l) := by
  refine keeps_get_bind fun t ht => ?_
  refine Keeps.bind (keeps_set (h.setReady ht hl true)) fun _ => ?_
  split
  · exact keeps_throw _
  · exact keeps_pure _

theorem releaseRef (drop : Bool) (src : Ptr) (info : TypeInfo D) :
    Keeps I (releaseRef drop src info) := by
  refine keeps_get_bind fun t ht => ?_
  split
  · exact keeps_throw _
  · split
    · exact keeps_throw _
    · refine Keeps.bind (keeps_modify fun _ hs => h.mapMemRefs hs _) fun _ => ?_
      split
      · exact Keeps.bind (keeps_modify fun _ hs => h.mapMemRefs hs _) fun _ =>
          h.dispose drop src info
      · exact keeps_pure _

theorem makeEmpty (drop : Bool) (hl : may l) : Keeps I (makeEmpty drop l) := by
  refine keeps_get_bind fun t ht => ?_
  split
  · exact keeps_throw _
  · refine Keeps.bind (keeps_set (h.setPtr ht hl .null)) fun _ => ?_
    exact (h.releaseRef drop _ _).bind fun _ => h.becomeReady hl

theorem fillCell (hl : may l) (q : Ptr) : Keeps I (fillCell l q) :=
  (h.overwriteNullPtr hl q).bind fun _ => keeps_modify fun _ hs => h.setReady hs hl true

/-- The loop passes over the putter. -/
theorem duplicateRef {g : LocId} (hg : g ≠ p → may g) (src : Ptr) (tid : TypeId) :
    Keeps I (duplicateRef p src tid g) := by
  rw [ReoRs.duplicateRef]
  split
  · exact keeps_pure _
  · next hne =>
      refine keeps_get_bind fun t ht => ?_
      split
      · exact keeps_throw _
      · split
        · exact keeps_throw _
        · exact h.fillCell (hg hne) src

theorem sharePointer (hmg : ∀ g ∈ mg, g ≠ p → may g) (src : Ptr) (tid : TypeId) :
    Keeps I (sharePointer p src tid mg) := by
  refine Keeps.bind (keeps_forEach_of_mem fun g hg => h.duplicateRef (hmg g hg) src tid) fun _ => ?_
  refine keeps_get_bind fun t ht => ?_
  split
  · exact keeps_throw _
  · split
    · exact keeps_throw _
    · exact Keeps.bind (keeps_set (h.mapMemRefs ht _)) fun _ => keeps_pure _

theorem shareSlot (hl : may l) (tid : TypeId) (dest : Ptr) : Keeps I (shareSlot tid dest l) := by
  refine keeps_get_bind fun t ht => ?_
  split
  · exact keeps_throw _
  · split
    · exact keeps_throw _
    · exact h.fillCell hl dest

theorem countRefs (dest : Ptr) (n : Nat) : Keeps I (countRefs dest n) := by
  refine keeps_get_bind fun t ht => ?_
  refine Keeps.bind (keeps_set (h.mapMemRefs ht _)) fun _ => ?_
  split
  · exact keeps_throw _
  · exact keeps_pure _

theorem populateMemory (hmg : ∀ g ∈ mg, may g) (src : Ptr) (pg : List LocId) :
    Keeps I (populateMemory src mg pg) := by
  cases mg with
  | nil => exact keeps_pure _
  | cons first others =>
      refine keeps_get_bind fun t ht => ?_
      split
      · exact keeps_throw _
      · next space hspace =>
          refine (h.store ht hspace src pg.length).bind fun dest => ?_
          refine (h.fillCell (hmg first List.mem_cons_self) dest).bind fun _ => ?_
          refine Keeps.bind (keeps_forEach_of_mem fun g hg => ?_) fun _ => h.countRefs dest _
          exact h.shareSlot (hmg g (List.mem_cons_of_mem first hg)) _ dest

theorem feedMemory (hmg : ∀ g ∈ mg, g ≠ p → may g)
    (hport : ∀ {s sp b}, I s → s.getSpace p = some (.poPu sp b) → ∀ g ∈ mg, may g)
    (pg : List LocId) : Keeps I (feedMemory p mg pg) := by
  refine keeps_get_bind fun t ht => ?_
  split
  · next hsp => exact (h.populateMemory (hport ht hsp) _ _).bind fun _ => keeps_pure _
  · exact h.sharePointer hmg _ _
  · exact h.sharePointer hmg _ _
  · exact keeps_throw _

/-- A port putter is only sent a message. -/
theorem releasePutter
    (hself : p ∉ mg → ∀ {s}, I s → (∀ sp b, s.getSpace p ≠ some (.poPu sp b)) → may p) :
    Keeps I (releasePutter p mg) := by
  refine keeps_get_bind fun t ht => ?_
  split
  · exact h.send _ _
  · next hsp =>
      split
      · exact keeps_pure _
      · next hnot => exact h.makeEmpty _ (hself hnot ht (by rw [hsp]; nofun))
  · next hsp =>
      split
      · exact keeps_pure _
      · next hnot => exact h.makeEmpty _ (hself hnot ht (by rw [hsp]; nofun))
  · exact keeps_throw _

theorem callGetters (p : LocId) (disableMove : Bool) (pg : List LocId) :
    Keeps I (callGetters p disableMove pg) :=
  Keeps.bind (keeps_modify fun _ hs => h.beginHandOff hs p pg.length disableMove) fun _ =>
    keeps_forEach (fun g => h.sendToGetter g p) pg

/-- An action is made of these updates. -/
theorem performAction (hmg : ∀ g ∈ mg, g ≠ p → may g)
    (hport : ∀ {s sp b}, I s → s.getSpace p = some (.poPu sp b) → ∀ g ∈ mg, may g)
    (hself : p ∉ mg → ∀ {s}, I s → (∀ sp b, s.getSpace p ≠ some (.poPu sp b)) → may p)
    (pg : List LocId) : Keeps I (performAction p mg pg) := by
  refine (h.feedMemory hmg hport pg).bind fun disableMove => ?_
  split
  · exact h.releasePutter hself
  · exact h.callGetters p disableMove pg

end

/-- So is a rule. -/
theorem fire (h : Robust (fun _ => True) I) (rule : RunRule D) : Keeps I rule.fire := by
  refine keeps_forEach (fun a => ?_) rule.actions
  refine h.performAction ?_ ?_ ?_ a.pg
  · intro _ _ _
    trivial
  · intro _ _ _ _ _ _ _
    trivial
  · intro _ _ _ _
    trivial

end Robust

end ReoRs
