import ReoRs.Lib.Run
import ReoRs.Proto.Acquire

/-!
# One firing seen from its getters

The system of a single hand-off: the space of a putter as `perform_action`
leaves it, and the getters it has called, each somewhere inside
`acquire_data`. A step is one atomic operation of one getter. The log keeps
what the getters did to the datum, newest first.

A transfer that faults, reading through null or cloning a type without
`Clone`, ends its thread, so the getter has no step. `finalize` is one step;
on a memory cell it empties the cell.
-/

namespace ReoRs

variable {D : Type}

inductive HandOffEvent where
  | transferred (getter : Nat) (t : Transfer)
  | finalized (getter : Nat) (someoneMoved : Bool)
  deriving DecidableEq, Repr

structure GetterState (D : Type) where
  wantsData : Bool
  pc : AcquirePc
  /-- everything written through the out pointer, newest first -/
  out : List (Datum D)

structure HandOff (D : Type) where
  kind : SourceKind
  space : PutterSpace D
  heap : Heap D
  getters : List (GetterState D)
  log : List HandOffEvent

/-- The putter of a firing: a port, or a memory cell whose pointer has the
given count in `mem_refs` when its port getters are called. -/
inductive FiringSource where
  | port
  | memory (refs : Nat)
  deriving DecidableEq, Repr

namespace FiringSource

def kind : FiringSource → SourceKind
  | port => .port
  | memory _ => .memory

/-- `disable_move` of `perform_action`. -/
def disableMove : FiringSource → Bool
  | port => false
  | memory refs => refs != 1

end FiringSource

namespace HandOff

/-- The firing's last act under the lock, and the getters at the entry of
`acquire_data`; `wants` tells the `get` callers from the `get_signal` ones. -/
def start (source : FiringSource) (p : PutterSpace D) (heap : Heap D) (wants : List Bool) :
    HandOff D where
  kind := source.kind
  space := p.beginHandOff wants.length source.disableMove
  heap := heap
  getters := wants.map fun w => ⟨w, .entry p.typeInfo.isCopy w, []⟩
  log := []

/-- Getter `i` runs `finalize` and returns. -/
def finish (s : HandOff D) (i : Nat) (g : GetterState D) (someoneMoved : Bool) : HandOff D :=
  { s with
    space := match s.kind with
      | .port => s.space
      | .memory => { s.space with ptr := .null }
    getters := s.getters.set i { g with pc := .returned }
    log := .finalized i someoneMoved :: s.log }

/-- Getter `i` takes the step `a`, writing `v`. -/
def advance (s : HandOff D) (i : Nat) (g : GetterState D) (a : Acquired D)
    (v : Option (Datum D)) : HandOff D :=
  { s with
    space := a.space
    getters := s.getters.set i { g with pc := a.pc, out := v.toList ++ g.out }
    log := (a.transfer.map (.transferred i)).toList ++ s.log }

/-- One atomic step of getter `i`. -/
def step (i : Nat) (s : HandOff D) : Option (HandOff D) := do
  let g ← s.getters[i]?
  match g.pc with
  | .finalize someoneMoved => some (s.finish i g someoneMoved)
  | pc =>
      let a ← acquireStep s.kind s.space pc
      let v ← a.written s.heap
      some (s.advance i g a v)

def Step (s : HandOff D) (i : Nat) (t : HandOff D) : Prop := s.step i = some t

/-- The states some interleaving reaches. -/
def Reachable (s t : HandOff D) : Prop := ∃ h, Run.Reach Step s h t

end HandOff

end ReoRs
