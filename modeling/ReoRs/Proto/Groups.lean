import ReoRs.Proto.Claim
import ReoRs.Proto.Coordination

/-!
# `proto/groups.rs`, `tokens.rs`: port groups

A group claims ports for itself and offers all of them at once: it flags its
members ready and tentative, waits until the protocol commits to a rule with
one of them, and takes the flags back but for that one. Both steps zip three
chunk vectors that nobody made of one length.

Blocking is not here; the two steps are steps of their own. `deliberate` does
not come to return anything: the operation that `crossbeam` has selected is
never completed, and its destructor panics on that. The result of an add that
fails is dropped within the call.
-/

namespace ReoRs

variable {D : Type}

/-- `Grouped<_, Putter<T>>` and `Grouped<_, Getter<T>>`. Dropping it does not
un-claim the port. -/
structure Grouped (role : PortRole) where
  c : PortCommon
  typeId : TypeId
  deriving DecidableEq, Repr

/-- `from_putter` and `from_getter`. -/
def Grouped.fromPort {role : PortRole} (x : Port role) : Grouped role := ⟨x.c, x.typeId⟩

inductive GroupAddError where
  | differentProtoInstance
  | gotGetterExpectedPutter
  | gotPutterExpectedGetter
  | notUnclaimed
  | typeMismatch
  deriving DecidableEq, Repr

structure PortGroup where
  maybeProto : Option ProtoHandle
  members : BitSet
  memberInfo : HashMap LocId PortInfo
  membersIndexed : List LocId

namespace PortGroup

def new : PortGroup := ⟨none, ∅, ∅, []⟩

/-- `add_putter` and `add_getter`, which differ in the port they want and the
error for the other one. -/
def add (role : PortRole) (wrongRole : GroupAddError) (handle : ProtoHandle) (t : TypeId)
    (id : LocId) (group : PortGroup) (ps : Instances D) :
    Except GroupAddError (Grouped role) × PortGroup × Instances D :=
  let (result, ps) := claim handle t id ps
  match result.port role with
  | some m =>
      let p := group.maybeProto.getD handle
      let group := { group with maybeProto := some p }
      if p ≠ m.c.p then (.error .differentProtoInstance, group, m.drop ps)
      else (.ok (.fromPort m), group, ps)
  | none =>
      let e := match result with
        | .notUnclaimed => .notUnclaimed
        | .typeMismatch => .typeMismatch
        | _ => wrongRole
      (.error e, group, result.drop ps)

def addPutter (handle : ProtoHandle) (t : TypeId) (id : LocId) (group : PortGroup)
    (ps : Instances D) : Except GroupAddError (Grouped .putter) × PortGroup × Instances D :=
  group.add .putter .gotGetterExpectedPutter handle t id ps

def addGetter (handle : ProtoHandle) (t : TypeId) (id : LocId) (group : PortGroup)
    (ps : Instances D) : Except GroupAddError (Grouped .getter) × PortGroup × Instances D :=
  group.add .getter .gotPutterExpectedGetter handle t id ps

def drop (group : PortGroup) (ps : Instances D) : Except Fault (Instances D) :=
  match group.maybeProto with
  | some proto => .ok (ps.setUnclaimed proto
      (group.memberInfo.entries.foldl (fun ports member => ports.insert member.1 member.2)
        (ps.unclaimed proto)))
  | none => if group.membersIndexed.isEmpty then .ok ps else .error .membersLeft

end PortGroup

/-! ## `deliberate` -/

/-- The loops over `ready_tentative`, `ready` and `members`, which stop at the
shortest of the three: an assertion about `ready`, and the same change to the
first two. Returns whether the assertion held throughout. -/
def zipMembers (holds : Chunk → Chunk → Bool) (change : Chunk → Chunk → Chunk) :
    (tentative ready members : List Chunk) → Bool × List Chunk × List Chunk
  | tenta :: ts, ready :: rs, members :: ms =>
      if holds ready members then
        let (ok, ts, rs) := zipMembers holds change ts rs ms
        (ok, change tenta members :: ts, change ready members :: rs)
      else (false, tenta :: ts, ready :: rs)
  | ts, rs, _ => (true, ts, rs)

def changeMembers (holds : Chunk → Chunk → Bool) (change : Chunk → Chunk → Chunk)
    (members : BitSet) : Proc D Unit := do
  let s ← get
  let (ok, ts, rs) :=
    zipMembers holds change s.w.readyTentative.data s.w.active.ready.data members.data
  set { s with w := { s.w with
      readyTentative := ⟨ts⟩, active := { s.w.active with ready := ⟨rs⟩ } } }
  if ok then pure () else throw .membersReady

/-- Step 2 of `deliberate`: no overlap beforehand. -/
def batchFlag (members : BitSet) : Proc D Unit :=
  changeMembers (fun ready members => (ready &&& members) == 0#64) (· ||| ·) members

/-- Step 4 of `deliberate`: complete overlap beforehand. -/
def commitFlag (members : BitSet) (id : LocId) : Proc D Unit := do
  changeMembers (fun ready members => (ready &&& members) == members)
    (fun flags members => flags &&& ~~~ members) members
  modify fun s => { s with w := { s.w with
      readyTentative := (s.w.readyTentative.setTo id true).1 } }

/-- What `select` of `deliberate` waits for: a message at a member. -/
def ProtoAll.Woken (s : ProtoAll D) (members : BitSet) (id : LocId) : Prop :=
  members.test id = true ∧ ∃ msg, s.getDropbox id = some ⟨some msg⟩

/-- `Drop for LockedProto`. -/
def dropLockedProto (members : BitSet) : Proc D Unit :=
  changeMembers (fun _ _ => true) (· ||| ·) members

/-! ## Ports and groups together -/

/-- A protocol among its ports, and the groups of them. -/
structure Grouping (D : Type) where
  c : Coordination D
  /-- the lock was forgotten with a `LockedProto`, and nobody frees it -/
  lost : Bool

namespace Coordination.Act

/-- Made by the thread that holds the lock. -/
def underLock : Act D → Bool
  | fire _ | leave | panic => true
  | _ => false

end Coordination.Act

namespace Grouping

inductive Act (D : Type) where
  | call (a : Coordination.Act D)
  | carryOut (p : LocId)
  | panic (p : LocId)
  | batch (members : BitSet)
  | commit (members : BitSet) (id : LocId)
  | lose (members : BitSet) (id : LocId)
  | fault (members : BitSet) (id : LocId)

/-- After the batch step of a group. -/
def batched (s : Grouping D) (members : BitSet) : Grouping D :=
  { s with c := { s.c with proto := Effect.final (batchFlag members) s.c.proto } }

/-- The calls of the ports, and `deliberate` in any group of them. Where a
step panics the state stays as it was at that moment and the lock is free. -/
inductive Step (s : Grouping D) : Act D → Grouping D → Prop where
  | call {c : Coordination D} {a : Coordination.Act D}
      (hlost : s.lost = true → a.underLock = false) (hstep : Coordination.Step s.c a c) :
      Step s (.call a) { s with c }
  /-- the last tentative port arrives, and the rule committed to fires -/
  | carryOut {p : LocId} {go : Bool} {proto : ProtoAll D} {n : Nat} {i : RuleId}
      {rule : RunRule D} (hcall : s.c.calls p = .entering) (hfree : s.c.locked = false)
      (hcommit : s.c.proto.w.commitment = some ⟨i, n⟩)
      (hrule : s.c.proto.r.rules[i]? = some rule)
      (hrun : (readySet p).run s.c.proto = .ok go proto) (hfired : proto.w.commitment = none) :
      Step s (.carryOut p)
        { s with c := { s.c with
            proto, locked := go, calls := Function.update s.c.calls p .waiting
            owed := fun q => s.c.owed q + rule.obligations q } }
  | panic {p : LocId} {e : Fault} {proto : ProtoAll D} (hcall : s.c.calls p = .entering)
      (hfree : s.c.locked = false) (hrun : (readySet p).run s.c.proto = .error e proto) :
      Step s (.panic p)
        { s with c := { s.c with proto, calls := Function.update s.c.calls p .waiting } }
  | batch {members : BitSet} (hfree : s.c.locked = false) :
      Step s (.batch members) (s.batched members)
  /-- the panic at the end drops the `LockedProto` -/
  | commit {members : BitSet} {id : LocId} {proto : ProtoAll D} (hfree : s.c.locked = false)
      (hwoken : s.c.proto.Woken members id)
      (hrun : (commitFlag members id).run s.c.proto = .ok () proto) :
      Step s (.commit members id)
        { s with c := { s.c with proto := Effect.final (dropLockedProto members) proto } }
  /-- the panic at the end forgets the `LockedProto`, as a value that was about
  to be returned -/
  | lose {members : BitSet} {id : LocId} {proto : ProtoAll D} (hfree : s.c.locked = false)
      (hwoken : s.c.proto.Woken members id)
      (hrun : (commitFlag members id).run s.c.proto = .ok () proto) :
      Step s (.lose members id) ⟨{ s.c with proto, locked := true }, true⟩
  | fault {members : BitSet} {id : LocId} {e : Fault} {proto : ProtoAll D}
      (hfree : s.c.locked = false) (hwoken : s.c.proto.Woken members id)
      (hrun : (commitFlag members id).run s.c.proto = .error e proto) :
      Step s (.fault members id) { s with c := { s.c with proto } }

end Grouping

end ReoRs
