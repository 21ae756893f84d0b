import ReoRs.Proto.Coordinate

/-!
# `proto/traits.rs`: `DataSource::acquire_data`, one atomic step at a time

The getters of a firing run `acquire_data` on the putter's space without the
lock. `AcquirePc` names the point a getter has reached by the atomic operation
it performs next, and `acquireStep` performs it. A getter carries at most one
out pointer: `get` passes one and `get_signal` none, so the loops over
`out_ptrs` are a single transfer or nothing.

`finalize` is where the environment comes in, the putter's dropbox or the lock,
so the step function stops in front of it.
-/

namespace ReoRs

variable {D : Type}

/-- The next atomic operation of a getter inside `acquire_data`. -/
inductive AcquirePc where
  /-- Copy type: `type_is_copy_i_moved` -/
  | storeMoved
  /-- Copy type: `execute_copy` -/
  | copyData
  /-- Copy type: `cloner_countdown.fetch_sub(1)` -/
  | copyCountdown
  /-- Copy type, last out: `did_someone_move` -/
  | loadMoved
  /-- data caller: `ask_for_move_permission` -/
  | askMove
  | winnerCountdown
  /-- winner, last out: `execute_copy` -/
  | winnerMove
  /-- winner: `mover_sema.acquire()` -/
  | winnerWait
  | loserClone
  | loserCountdown
  /-- last out, with a winner taken to be waiting: `mover_sema.release()` -/
  | release
  | signalCountdown
  /-- signal caller, last out: `ask_for_move_permission` -/
  | signalAsk
  | finalize (someoneMoved : Bool)
  | returned
  deriving DecidableEq, Repr

/-- Where `acquire_data` starts, by `type_info.is_copy` and by
`out_ptrs.len() > 0`. -/
def AcquirePc.entry (isCopy wantsData : Bool) : AcquirePc :=
  match isCopy, wantsData with
  | true, true => .storeMoved
  | true, false => .copyCountdown
  | false, true => .askMove
  | false, false => .signalCountdown

/-- The two implementors of `DataSource` a port getter can meet. -/
inductive SourceKind where
  | port
  | memory
  deriving DecidableEq, Repr

/-- What a step transferred to the getter's out pointer, and from where. -/
inductive Transfer where
  | copied (src : Ptr)
  | cloned (src : Ptr)
  deriving DecidableEq, Repr

structure Acquired (D : Type) where
  space : PutterSpace D
  pc : AcquirePc
  transfer : Option Transfer

/-- `execute_copy`: a port's pointer is removed by reading it, a memory
cell's stays. -/
def PutterSpace.afterCopy (kind : SourceKind) (p : PutterSpace D) : PutterSpace D :=
  match kind with
  | .port => { p with ptr := .null }
  | .memory => p

/-- `fetch_sub(1)`, with where to go if this getter was the last and where
if it was not. -/
def PutterSpace.countDown (p : PutterSpace D) (last other : AcquirePc) : Acquired D :=
  ⟨{ p with clonerCountdown := p.clonerCountdown - 1 },
    if p.clonerCountdown = 1 then last else other, none⟩

/-- One atomic step; none if the getter must wait or has no step of its own
left. -/
def acquireStep (kind : SourceKind) (p : PutterSpace D) : AcquirePc → Option (Acquired D)
  | .storeMoved => some ⟨{ p with moveFlags := p.moveFlags.typeIsCopyIMoved }, .copyData, none⟩
  | .copyData => some ⟨p.afterCopy kind, .copyCountdown, some (.copied p.ptr)⟩
  | .copyCountdown => some (p.countDown .loadMoved .returned)
  | .loadMoved => some ⟨p, .finalize p.moveFlags.didSomeoneMove, none⟩
  | .askMove =>
      let (permission, moveFlags) := p.moveFlags.askForMovePermission
      let won := !permission
      some ⟨{ p with moveFlags }, if won then .winnerCountdown else .loserClone, none⟩
  | .winnerCountdown => some (p.countDown .winnerMove .winnerWait)
  | .winnerMove => some ⟨p.afterCopy kind, .finalize true, some (.copied p.ptr)⟩
  | .winnerWait =>
      if 0 < p.moverSema then some ⟨{ p with moverSema := p.moverSema - 1 }, .finalize true, none⟩
      else none
  | .loserClone => some ⟨p, .loserCountdown, some (.cloned p.ptr)⟩
  | .loserCountdown => some (p.countDown .release .returned)
  | .release => some ⟨{ p with moverSema := p.moverSema + 1 }, .returned, none⟩
  | .signalCountdown => some (p.countDown .signalAsk .returned)
  | .signalAsk =>
      let (permission, moveFlags) := p.moveFlags.askForMovePermission
      let nobodyElseWon := !permission
      some ⟨{ p with moveFlags }, if nobodyElseWon then .finalize false else .release, none⟩
  | .finalize _ | .returned => none

theorem acquireStep_askMove (kind : SourceKind) (p : PutterSpace D) :
    acquireStep kind p .askMove =
      some ⟨{ p with moveFlags := p.moveFlags.askForMovePermission.2 },
        if p.moveFlags.moveFlags = 0#8 then .loserClone else .winnerCountdown, none⟩ := by
  by_cases h : p.moveFlags.moveFlags = 0#8
  · simp [acquireStep, MoveFlags.askForMovePermission, h]
  · have hne : (0#8 == p.moveFlags.moveFlags) = false := by simpa using Ne.symm h
    simp [acquireStep, MoveFlags.askForMovePermission, h, hne]

theorem acquireStep_signalAsk (kind : SourceKind) (p : PutterSpace D) :
    acquireStep kind p .signalAsk =
      some ⟨{ p with moveFlags := p.moveFlags.askForMovePermission.2 },
        if p.moveFlags.moveFlags = 0#8 then .release else .finalize false, none⟩ := by
  by_cases h : p.moveFlags.moveFlags = 0#8
  · simp [acquireStep, MoveFlags.askForMovePermission, h]
  · have hne : (0#8 == p.moveFlags.moveFlags) = false := by simpa using Ne.symm h
    simp [acquireStep, MoveFlags.askForMovePermission, h, hne]

/-- The value a transfer leaves behind the out pointer, or the fault that ends
the getter's thread instead. -/
def Transfer.value (info : TypeInfo D) (h : Heap D) : Transfer → Except Fault (Option (Datum D))
  | .copied src => info.copied src h
  | .cloned src => do
      let v ← info.funcs.clone.cloned src h
      pure (some v)

/-- What a step writes through the out pointer, if anything; none if the
transfer it makes faults. -/
def Acquired.written (a : Acquired D) (h : Heap D) : Option (Option (Datum D)) :=
  match a.transfer with
  | none => some none
  | some t =>
      match t.value a.space.typeInfo h with
      | .ok v => some v
      | .error _ => none

end ReoRs
