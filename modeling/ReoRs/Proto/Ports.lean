import ReoRs.Proto.Acquire
import ReoRs.Proto.Coordination

/-!
# `proto/mod.rs`: the calls of the ports

The whole system: every port of an instance, each with at most one call in
progress, since a `Putter` or `Getter` is used through `&mut self`. The
threads behind the calls interleave at every access to the lock, to a dropbox
and to the atomics of a space. A pass over the rules is one step, because it
is made under the lock.

What a transfer of data leaves behind an out pointer is a parameter of the
steps. `Transfers.actual` is what really happens; a transfer it says nothing
about ends its thread, and the call never returns.
-/

namespace ReoRs

variable {D : Type}

/-! ## Calls -/

inductive PortCall (D : Type) where
  | put (datum : Datum D)
  | putLossy (datum : Datum D)
  | putTimeout (datum : Datum D)
  | putTimeoutLossy (datum : Datum D)
  | get
  | getTimeout
  | getSignal
  | getSignalTimeout

/-- What a call returns. A `put` that was observed returns its datum or, if
lossy, nothing; so does one that timed out. -/
inductive Answer (D : Type) where
  | moved
  | observed (datum : Option (Datum D))
  | timeout (datum : Option (Datum D))
  | got (datum : Option (Datum D))

namespace PortCall

/-- The datum of a putting call. -/
def datum : PortCall D → Option (Datum D)
  | put v | putLossy v | putTimeout v | putTimeoutLossy v => some v
  | get | getTimeout | getSignal | getSignalTimeout => none

def timed : PortCall D → Bool
  | putTimeout _ | putTimeoutLossy _ | getTimeout | getSignalTimeout => true
  | put _ | putLossy _ | get | getSignal => false

def wantsData : PortCall D → Bool
  | get | getTimeout => true
  | _ => false

/-- The answer of a putting call, by whether its datum was reported as
moved. -/
def putAnswer : PortCall D → Bool → Answer D
  | _, true => .moved
  | put v, false | putTimeout v, false => .observed (some v)
  | _, false => .observed none

/-- The data that go out of scope with the frame of a putting call that got
its message: whatever was neither returned nor given to `mem::forget`. -/
def putDrops : PortCall D → Bool → List (Datum D)
  | putLossy v, false | putTimeoutLossy v, false => [v]
  | putTimeout v, true => [v]
  | _, _ => []

def timeoutAnswer : PortCall D → Answer D
  | putTimeout v => .timeout (some v)
  | _ => .timeout none

def timeoutDrops : PortCall D → List (Datum D)
  | putTimeoutLossy v => [v]
  | _ => []

end PortCall

/-- The `match` on `num_movers_msg`; any other message is a panic. -/
def movedOfMsg : Nat → Option Bool
  | 0 => some false
  | 1 => some true
  | _ => none

inductive Phase where
  /-- in front of the lock -/
  | entering
  /-- in `exhaust_rules` -/
  | coordinating
  /-- in `recv`, or `recv_timeout` -/
  | awaiting
  /-- `recv_timeout` is over, and the lock comes next -/
  | expired
  /-- in `recv`, because the readiness had already been consumed -/
  | late
  | acquiring (putter : LocId) (pc : AcquirePc)
  /-- in the `exhaust_rules` of a cell's `finalize` -/
  | finalizing (putter : LocId)
  deriving DecidableEq, Repr

namespace Phase

def receives : Phase → Bool
  | awaiting | late => true
  | _ => false

/-- Where a call goes on when `exhaust_rules` returns. -/
def afterPass : Phase → Phase
  | coordinating => awaiting
  | finalizing q => acquiring q .returned
  | ph => ph

end Phase

/-- A call in progress. -/
structure Active (D : Type) where
  call : PortCall D
  phase : Phase
  /-- what is behind the out pointer -/
  out : Option (Datum D)

/-- The spaces `get_data` and `get_signal` accept as a source. -/
def Space.source : Space D → Option (SourceKind × PutterSpace D)
  | poPu p _ => some (.port, p)
  | memo p => some (.memory, p)
  | poGe _ | temp _ | unused => none

/-! ## The system -/

structure Ports (D : Type) where
  proto : ProtoAll D
  /-- the port whose call holds the lock across passes -/
  holder : Option LocId
  calls : LocId → Option (Active D)
  /-- data that went out of scope with the frames of putting calls -/
  dropped : List (Datum D)

/-- What may be behind the out pointer after a transfer. -/
abbrev Transfers (D : Type) := TypeInfo D → Heap D → Transfer → Option (Datum D) → Prop

def Transfers.actual : Transfers D := fun info heap t v => t.value info heap = .ok v

namespace Ports

inductive Act (D : Type) where
  | call (p : LocId) (c : PortCall D)
  | enter (p : LocId)
  | fire (p : LocId) (i : RuleId)
  | leave (p : LocId)
  | panic (p : LocId)
  | expire (p : LocId)
  | late (p : LocId)
  | receive (p : LocId)
  | acquire (p : LocId)
  | finalize (p : LocId)
  | ret (p : LocId) (a : Answer D)

def setCall (s : Ports D) (p : LocId) (x : Option (Active D)) : Ports D :=
  { s with calls := Function.update s.calls p x }

def start (s : ProtoAll D) : Ports D := ⟨s, none, fun _ => none, []⟩

inductive Step (moves : Transfers D) (s : Ports D) : Act D → Ports D → Prop where
  | callPut {p : LocId} {c : PortCall D} {v : Datum D} {sp : PutterSpace D} {b : MsgDropbox}
      (hidle : s.calls p = none) (hspace : s.proto.getSpace p = some (.poPu sp b))
      (hdatum : c.datum = some v) :
      Step moves s (.call p c)
        ({ s with proto := s.proto.offer p v }.setCall p (some ⟨c, .entering, none⟩))
  | callGet {p : LocId} {c : PortCall D} {b : MsgDropbox}
      (hidle : s.calls p = none) (hspace : s.proto.getSpace p = some (.poGe b))
      (hdatum : c.datum = none) :
      Step moves s (.call p c) (s.setCall p (some ⟨c, .entering, none⟩))
  | enter {p : LocId} {c : PortCall D} {out : Option (Datum D)} {go : Bool} {proto : ProtoAll D}
      (hcall : s.calls p = some ⟨c, .entering, out⟩) (hfree : s.holder = none)
      (hrun : (readySet p).run s.proto = .ok go proto) :
      Step moves s (.enter p)
        ({ s with proto, holder := if go then some p else none }.setCall p
          (some ⟨c, if go then .coordinating else .awaiting, out⟩))
  | fire {p : LocId} {i : RuleId} {proto : ProtoAll D} (hlock : s.holder = some p)
      (hrun : exhaustPass.run s.proto = .ok (.fired i) proto) :
      Step moves s (.fire p i) { s with proto }
  | leave {p : LocId} {c : PortCall D} {ph : Phase} {out : Option (Datum D)} {fin : PassEnd}
      {proto : ProtoAll D} (hlock : s.holder = some p) (hcall : s.calls p = some ⟨c, ph, out⟩)
      (hend : ∀ i, fin ≠ .fired i) (hrun : exhaustPass.run s.proto = .ok fin proto) :
      Step moves s (.leave p)
        ({ s with proto, holder := none }.setCall p (some ⟨c, ph.afterPass, out⟩))
  /-- the thread dies with the pass, and its call stays where it is -/
  | panic {p : LocId} {e : Fault} {proto : ProtoAll D} (hlock : s.holder = some p)
      (hrun : exhaustPass.run s.proto = .error e proto) :
      Step moves s (.panic p) { s with proto, holder := none }
  | expire {p : LocId} {c : PortCall D} {out : Option (Datum D)}
      (hcall : s.calls p = some ⟨c, .awaiting, out⟩) (htimed : c.timed = true) :
      Step moves s (.expire p) (s.setCall p (some ⟨c, .expired, out⟩))
  | withdraw {p : LocId} {c : PortCall D} {out : Option (Datum D)}
      (hcall : s.calls p = some ⟨c, .expired, out⟩) (hfree : s.holder = none)
      (hready : s.proto.w.active.ready.test p = true) :
      Step moves s (.ret p c.timeoutAnswer)
        ({ s with proto := (s.proto.setReady p false).endCall p
                  dropped := c.timeoutDrops ++ s.dropped }.setCall p none)
  | tooLate {p : LocId} {c : PortCall D} {out : Option (Datum D)}
      (hcall : s.calls p = some ⟨c, .expired, out⟩) (hfree : s.holder = none)
      (hready : s.proto.w.active.ready.test p = false) :
      Step moves s (.late p)
        ({ s with proto := s.proto.setReady p false }.setCall p (some ⟨c, .late, out⟩))
  | putReturn {p : LocId} {c : PortCall D} {ph : Phase} {out : Option (Datum D)} {v : Datum D}
      {msg : Nat} {moved : Bool} (hcall : s.calls p = some ⟨c, ph, out⟩)
      (hphase : ph.receives = true) (hdatum : c.datum = some v)
      (hmsg : s.proto.getDropbox p = some ⟨some msg⟩) (hmoved : movedOfMsg msg = some moved) :
      Step moves s (.ret p (c.putAnswer moved))
        ({ s with proto := (s.proto.setDropbox p none).endCall p
                  dropped := c.putDrops moved ++ s.dropped }.setCall p none)
  | receive {p : LocId} {c : PortCall D} {ph : Phase} {out : Option (Datum D)} {q : LocId}
      {space : Space D} {kind : SourceKind} {sp : PutterSpace D}
      (hcall : s.calls p = some ⟨c, ph, out⟩) (hphase : ph.receives = true)
      (hdatum : c.datum = none) (hmsg : s.proto.getDropbox p = some ⟨some q⟩)
      (hspace : s.proto.getSpace q = some space) (hsource : space.source = some (kind, sp)) :
      Step moves s (.receive p)
        ({ s with proto := s.proto.setDropbox p none }.setCall p
          (some ⟨c, .acquiring q (.entry sp.typeInfo.isCopy c.wantsData), out⟩))
  | acquire {p : LocId} {c : PortCall D} {q : LocId} {pc : AcquirePc} {out v : Option (Datum D)}
      {space : Space D} {kind : SourceKind} {sp : PutterSpace D} {acq : Acquired D}
      (hcall : s.calls p = some ⟨c, .acquiring q pc, out⟩)
      (hspace : s.proto.getSpace q = some space) (hsource : space.source = some (kind, sp))
      (hstep : acquireStep kind sp pc = some acq)
      (hmoves : ∀ t, acq.transfer = some t → moves sp.typeInfo s.proto.heap t v) :
      Step moves s (.acquire p)
        ({ s with proto := s.proto.mapPutter q fun _ => acq.space }.setCall p
          (some ⟨c, .acquiring q acq.pc, if acq.transfer.isSome then v else out⟩))
  | finalizePort {p : LocId} {c : PortCall D} {q : LocId} {someoneMoved : Bool}
      {out : Option (Datum D)} {sp : PutterSpace D} {b : MsgDropbox} {proto : ProtoAll D}
      (hcall : s.calls p = some ⟨c, .acquiring q (.finalize someoneMoved), out⟩)
      (hspace : s.proto.getSpace q = some (.poPu sp b))
      (hrun : (finalizePoPu q someoneMoved).run s.proto = .ok () proto) :
      Step moves s (.finalize p)
        ({ s with proto }.setCall p (some ⟨c, .acquiring q .returned, out⟩))
  | finalizeCell {p : LocId} {c : PortCall D} {q : LocId} {someoneMoved go : Bool}
      {out : Option (Datum D)} {sp : PutterSpace D} {proto : ProtoAll D}
      (hcall : s.calls p = some ⟨c, .acquiring q (.finalize someoneMoved), out⟩)
      (hfree : s.holder = none) (hspace : s.proto.getSpace q = some (.memo sp))
      (hrun : (finalizeMemo q someoneMoved).run s.proto = .ok go proto) :
      Step moves s (.finalize p)
        ({ s with proto, holder := if go then some p else none }.setCall p
          (some ⟨c, if go then .finalizing q else .acquiring q .returned, out⟩))
  | getReturn {p : LocId} {c : PortCall D} {q : LocId} {out : Option (Datum D)}
      (hcall : s.calls p = some ⟨c, .acquiring q .returned, out⟩) :
      Step moves s (.ret p (.got out)) (s.setCall p none)

end Ports

end ReoRs
