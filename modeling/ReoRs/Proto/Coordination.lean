import ReoRs.Lib.Run
import ReoRs.Proto.Coordinate

/-!
# A protocol among its ports

The system the coordinator's invariants are about. It is the instance together
with what its environment has under way: which ports are inside a call, and
how many `finalize` calls each putter is still owed by the getters of its
firings. The getters themselves are not here. Inside `acquire_data` they may
change the putter's counters, and take a port's pointer, and at any later time
one of them calls `finalize` with either flag. The real getters, which
`Proto/Ports.lean` has, do some of this.

Everything done under the lock is one of four steps, so that the passes of one
thread interleave with what the others do without the lock.
-/

namespace ReoRs

variable {D : Type}

/-- `po_pu.p.set_ptr(transmute(src))`, with the datum in the caller's frame. -/
def ProtoAll.offer (s : ProtoAll D) (port : LocId) (v : Datum D) : ProtoAll D :=
  { s with heap := s.heap.write (.stack port) (some v) }.setPtr port (.stack port)

/-- A call is over, and with the frame of a putting one goes the datum in it.
The space's pointer is left where it was. -/
def ProtoAll.endCall (s : ProtoAll D) (port : LocId) : ProtoAll D :=
  { s with heap := match s.getSpace port with
      | some (.poPu _ _) => s.heap.write (.stack port) none
      | _ => s.heap }

/-- `MemoSpace::finalize`, up to its call of `exhaust_rules`. -/
def finalizeMemo (id : LocId) (someoneMoved : Bool) : Proc D Bool := do
  makeEmpty (!someoneMoved) id
  readySet id

/-- `PoPuSpace::finalize`. -/
def finalizePoPu (id : LocId) (someoneMoved : Bool) : Proc D Unit :=
  send id (if someoneMoved then 1 else 0)

/-- How many `finalize` calls a firing of the rule leaves a putter owed: one
for each of its actions that has port getters. -/
def RunRule.obligations (rule : RunRule D) (p : LocId) : Nat :=
  rule.actions.countP fun a => a.putter == p && !a.pg.isEmpty

inductive CallState where
  | idle
  /-- before the lock is taken -/
  | entering
  /-- in `recv`, or on the way there -/
  | waiting
  deriving DecidableEq, Repr

structure Coordination (D : Type) where
  proto : ProtoAll D
  locked : Bool
  calls : LocId → CallState
  owed : LocId → Nat

namespace Coordination

inductive Act (D : Type) where
  | offer (p : LocId) (v : Datum D)
  | request (p : LocId)
  | arrive (p : LocId)
  | fire (i : RuleId)
  | leave
  | panic
  | receive (p : LocId)
  | withdraw (p : LocId)
  | acquire (p : LocId)
  | finalize (p : LocId) (someoneMoved : Bool)
  | fault (p : LocId) (someoneMoved : Bool)

/-- What a getter inside `acquire_data` may do to the space of a putter. -/
structure Acquiring (space space' : Space D) : Prop where
  sameKind : ∃ p p', space.putter = some p ∧ space' = space.mapPutter (fun _ => p') ∧
    p'.typeInfo = p.typeInfo ∧
    (p'.ptr = p.ptr ∨ p'.ptr = .null ∧ ∃ b, space = .poPu p b)

def start (s : ProtoAll D) : Coordination D := ⟨s, false, fun _ => .idle, fun _ => 0⟩

inductive Step (s : Coordination D) : Act D → Coordination D → Prop where
  | offer {p : LocId} {sp : PutterSpace D} {b : MsgDropbox} {v : Datum D}
      (hidle : s.calls p = .idle) (hspace : s.proto.getSpace p = some (.poPu sp b)) :
      Step s (.offer p v)
        { s with proto := s.proto.offer p v, calls := Function.update s.calls p .entering }
  | request {p : LocId} {b : MsgDropbox}
      (hidle : s.calls p = .idle) (hspace : s.proto.getSpace p = some (.poGe b)) :
      Step s (.request p) { s with calls := Function.update s.calls p .entering }
  | arrive {p : LocId} {go : Bool} {proto : ProtoAll D}
      (hcall : s.calls p = .entering) (hfree : s.locked = false)
      (hrun : (readySet p).run s.proto = .ok go proto) :
      Step s (.arrive p)
        { s with proto, locked := go, calls := Function.update s.calls p .waiting }
  | fire {i : RuleId} {rule : RunRule D} {proto : ProtoAll D}
      (hlock : s.locked = true) (hrule : s.proto.r.rules[i]? = some rule)
      (hrun : exhaustPass.run s.proto = .ok (.fired i) proto) :
      Step s (.fire i)
        { s with proto, owed := fun p => s.owed p + rule.obligations p }
  | leave {fin : PassEnd} {proto : ProtoAll D}
      (hlock : s.locked = true) (hend : ∀ i, fin ≠ .fired i)
      (hrun : exhaustPass.run s.proto = .ok fin proto) :
      Step s .leave { s with proto, locked := false }
  | panic {e : Fault} {proto : ProtoAll D}
      (hlock : s.locked = true) (hrun : exhaustPass.run s.proto = .error e proto) :
      Step s .panic { s with proto, locked := false }
  | receive {p : LocId} {msg : Nat}
      (hcall : s.calls p = .waiting) (hmsg : s.proto.getDropbox p = some ⟨some msg⟩) :
      Step s (.receive p)
        { s with proto := (s.proto.setDropbox p none).endCall p
                 calls := Function.update s.calls p .idle }
  | withdraw {p : LocId}
      (hcall : s.calls p = .waiting) (hfree : s.locked = false)
      (hready : s.proto.w.active.ready.test p = true) :
      Step s (.withdraw p)
        { s with proto := (s.proto.setReady p false).endCall p
                 calls := Function.update s.calls p .idle }
  | acquire {p : LocId} {space space' : Space D}
      (howed : 0 < s.owed p) (hspace : s.proto.getSpace p = some space)
      (hacq : Acquiring space space') :
      Step s (.acquire p) { s with proto := s.proto.mapSpace p fun _ => space' }
  | finalizePort {p : LocId} {someoneMoved : Bool} {sp : PutterSpace D} {b : MsgDropbox}
      {proto : ProtoAll D} (howed : 0 < s.owed p)
      (hspace : s.proto.getSpace p = some (.poPu sp b))
      (hrun : (finalizePoPu p someoneMoved).run s.proto = .ok () proto) :
      Step s (.finalize p someoneMoved)
        { s with proto, owed := Function.update s.owed p (s.owed p - 1) }
  | finalizeCell {p : LocId} {someoneMoved go : Bool} {sp : PutterSpace D} {proto : ProtoAll D}
      (howed : 0 < s.owed p) (hfree : s.locked = false)
      (hspace : s.proto.getSpace p = some (.memo sp))
      (hrun : (finalizeMemo p someoneMoved).run s.proto = .ok go proto) :
      Step s (.finalize p someoneMoved)
        { s with proto, locked := go, owed := Function.update s.owed p (s.owed p - 1) }
  /-- `make_empty` panics, and the lock is released -/
  | fault {p : LocId} {someoneMoved : Bool} {sp : PutterSpace D} {e : Fault} {proto : ProtoAll D}
      (howed : 0 < s.owed p) (hfree : s.locked = false)
      (hspace : s.proto.getSpace p = some (.memo sp))
      (hrun : (finalizeMemo p someoneMoved).run s.proto = .error e proto) :
      Step s (.fault p someoneMoved)
        { s with proto, owed := Function.update s.owed p (s.owed p - 1) }

end Coordination

end ReoRs
