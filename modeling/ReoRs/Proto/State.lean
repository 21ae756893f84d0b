import ReoRs.BitSet
import ReoRs.Proto.Memory
import ReoRs.Proto.Syntax

/-!
# `proto/mod.rs`: the state of a protocol instance

The structures keep the source's split. `ProtoR` is outside the lock and
consists of the rules and of one space per location; its spaces are shared
through atomics, a semaphore and one-slot channels, so their fields are state
like any other. `ProtoW` is what the lock protects. The process memory stands
beside the two because the raw pointers of both point into it.
-/

namespace ReoRs

/-! ## Move flags -/

structure MoveFlags where
  moveFlags : BitVec 8
  deriving DecidableEq, Repr

namespace MoveFlags

def moveFlagMoved : BitVec 8 := 0b01#8

def moveFlagDisabled : BitVec 8 := 0b10#8

def typeIsCopyIMoved (_ : MoveFlags) : MoveFlags := ⟨moveFlagMoved⟩

def didSomeoneMove (m : MoveFlags) : Bool :=
  (m.moveFlags &&& moveFlagMoved) != 0#8 && (m.moveFlags &&& moveFlagDisabled) == 0#8

/-- `fetch_or`: the answer reads the flags before the update. -/
def askForMovePermission (m : MoveFlags) : Bool × MoveFlags :=
  (0#8 == m.moveFlags, ⟨m.moveFlags ||| moveFlagMoved⟩)

def reset (_ : MoveFlags) (moveEnabled : Bool) : MoveFlags :=
  ⟨if moveEnabled then moveFlagDisabled else 0#8⟩

end MoveFlags

/-! ## Spaces -/

structure PutterSpace (D : Type) where
  ptr : Ptr
  clonerCountdown : Nat
  moveFlags : MoveFlags
  moverSema : Nat
  typeInfo : TypeInfo D

def PutterSpace.new {D : Type} (ptr : Ptr) (typeInfo : TypeInfo D) : PutterSpace D :=
  { ptr, clonerCountdown := 0, moveFlags := ⟨0#8⟩, moverSema := 0, typeInfo }

/-- A `bounded(1)` channel. -/
structure MsgDropbox where
  slot : Option Nat
  deriving DecidableEq, Repr

def MsgDropbox.nothingMsg : Nat := 2 ^ 64 - 1

def MsgDropbox.new : MsgDropbox := ⟨none⟩

inductive Space (D : Type) where
  | poPu (p : PutterSpace D) (dropbox : MsgDropbox)
  | poGe (dropbox : MsgDropbox)
  | memo (p : PutterSpace D)
  | temp (p : PutterSpace D)
  | unused

namespace Space

variable {D : Type}

/-- The space's `PutterSpace`, for the three kinds that have one. -/
def putter : Space D → Option (PutterSpace D)
  | poPu p _ | memo p | temp p => some p
  | poGe _ | unused => none

def dropbox : Space D → Option MsgDropbox
  | poPu _ b | poGe b => some b
  | memo _ | temp _ | unused => none

def mapPutter (f : PutterSpace D → PutterSpace D) : Space D → Space D
  | poPu p b => poPu (f p) b
  | memo p => memo (f p)
  | temp p => temp (f p)
  | poGe b => poGe b
  | unused => unused

def mapDropbox (f : MsgDropbox → MsgDropbox) : Space D → Space D
  | poPu p b => poPu p (f b)
  | poGe b => poGe (f b)
  | memo p => memo p
  | temp p => temp p
  | unused => unused

end Space

/-! ## Rules at run time -/

inductive TempRuleFunc (D : Type) where
  | arity0 (func : Datum D)
  | arity1 (func : Datum D → Datum D) (arg : Term)
  | arity2 (func : Datum D → Datum D → Datum D) (arg₀ arg₁ : Term)
  | arity3 (func : Datum D → Datum D → Datum D → Datum D) (arg₀ arg₁ arg₂ : Term)

structure TempMemRunnable (D : Type) where
  tempMemLocId : LocId
  func : TempRuleFunc D

structure RunAction where
  putter : LocId
  mg : List LocId
  pg : List LocId
  deriving DecidableEq, Repr

structure RunRule (D : Type) where
  guardReady : BitSet
  guardFull : BitSet
  tempMems : List (TempMemRunnable D)
  guardPred : Formula
  assignVals : BitSet
  assignMask : BitSet
  actions : List RunAction

/-! ## The protocol -/

structure ProtoActive (D : Type) where
  ready : BitSet
  storage : Storage D
  memRefs : HashMap Ptr Nat

structure Commitment where
  ruleId : RuleId
  awaiting : Nat
  deriving DecidableEq, Repr

structure StateWaiter where
  state : BitSet
  whom : LocId
  deriving DecidableEq, Repr

inductive PortRole where
  | putter
  | getter
  deriving DecidableEq, Repr

structure PortInfo where
  role : PortRole
  typeId : TypeId
  deriving DecidableEq, Repr

structure ProtoW (D : Type) where
  memoryBits : BitSet
  active : ProtoActive D
  commitment : Option Commitment
  readyTentative : BitSet
  awaitingStates : List StateWaiter
  unclaimedPorts : HashMap LocId PortInfo

structure ProtoR (D : Type) where
  rules : List (RunRule D)
  spaces : List (Space D)

structure ProtoAll (D : Type) where
  r : ProtoR D
  w : ProtoW D
  heap : Heap D

/-- The procedures of the protocol: they work on the whole instance and may
panic, leaving it as it was at that moment. -/
abbrev Proc (D : Type) := EStateM Fault (ProtoAll D)

namespace ProtoAll

variable {D : Type}

def getSpace (s : ProtoAll D) (id : LocId) : Option (Space D) := s.r.spaces[id]?

def getSpacePutter (s : ProtoAll D) (id : LocId) : Option (PutterSpace D) :=
  (s.getSpace id).bind Space.putter

def getMePu (s : ProtoAll D) (id : LocId) : Option (PutterSpace D) :=
  match s.getSpace id with
  | some (.memo p) => some p
  | _ => none

def getDropbox (s : ProtoAll D) (id : LocId) : Option MsgDropbox :=
  (s.getSpace id).bind Space.dropbox

def mapSpace (s : ProtoAll D) (id : LocId) (f : Space D → Space D) : ProtoAll D :=
  { s with r := { s.r with spaces := s.r.spaces.modify id f } }

def mapPutter (s : ProtoAll D) (id : LocId) (f : PutterSpace D → PutterSpace D) : ProtoAll D :=
  s.mapSpace id (Space.mapPutter f)

def setPtr (s : ProtoAll D) (id : LocId) (ptr : Ptr) : ProtoAll D :=
  s.mapPutter id fun p => { p with ptr }

def setDropbox (s : ProtoAll D) (id : LocId) (slot : Option Nat) : ProtoAll D :=
  s.mapSpace id (Space.mapDropbox fun _ => ⟨slot⟩)

def setReady (s : ProtoAll D) (id : LocId) (val : Bool) : ProtoAll D :=
  { s with w := { s.w with
      active := { s.w.active with ready := (s.w.active.ready.setTo id val).1 } } }

def mapMemRefs (s : ProtoAll D) (f : HashMap Ptr Nat → HashMap Ptr Nat) : ProtoAll D :=
  { s with w := { s.w with active := { s.w.active with memRefs := f s.w.active.memRefs } } }

def mem (s : ProtoAll D) : Mem D := ⟨s.w.active.storage, s.heap⟩

def putMem (m : Mem D) (s : ProtoAll D) : ProtoAll D :=
  { s with w := { s.w with active := { s.w.active with storage := m.storage } }, heap := m.heap }

end ProtoAll

variable {D : Type}

/-- A storage operation of the instance's own storage. -/
def onStorage {α : Type} (x : MemM D α) : Proc D α :=
  Effect.zoom ProtoAll.mem ProtoAll.putMem x

/-- `space.overwrite_null_ptr(ptr)`. -/
def overwriteNullPtr (id : LocId) (ptr : Ptr) : Proc D Unit := do
  let s ← get
  match s.getSpacePutter id with
  | none => throw .notAPutter
  | some was =>
      set (s.setPtr id ptr)
      if was.ptr ≠ .null then throw .notNull else pure ()

/-- `dropbox.send(msg)`: a full dropbox keeps the message it has. -/
def send (id : LocId) (msg : Nat) : Proc D Unit := do
  let s ← get
  match s.getDropbox id with
  | none => throw .notAGetter
  | some ⟨some _⟩ => throw .msgboxFull
  | some ⟨none⟩ => set (s.setDropbox id (some msg))

def sendToGetter (id : LocId) (msg : Nat) : Proc D Unit := do
  let s ← get
  match s.getSpace id with
  | some (.poGe _) => send id msg
  | _ => throw .notAGetter

/-- The last reference to a slot is gone: its datum is dropped or forgotten. -/
def freeSlot (dropIfLastRef : Bool) (src : Ptr) (info : TypeInfo D) : Proc D Unit := do
  modify (·.mapMemRefs (·.erase src))
  onStorage (if dropIfLastRef then Storage.dropInside src info else Storage.forgetInside src info)

/-- `*refs -= 1`, and what follows from the slot having no reference left. -/
def releaseRef (dropIfLastRef : Bool) (src : Ptr) (info : TypeInfo D) : Proc D Unit := do
  let s ← get
  match s.w.active.memRefs.lookup src with
  | none => throw .noMemRefs
  | some refs =>
      if refs < 1 then throw .refsZero
      else
        modify (·.mapMemRefs (·.insert src (refs - 1)))
        if refs - 1 = 0 then freeSlot dropIfLastRef src info else pure ()

/-- `let was = w.ready.set_to(my_id, true); assert!(!was)`. -/
def becomeReady (myId : LocId) : Proc D Unit := do
  let s ← get
  set (s.setReady myId true)
  if (s.w.active.ready.setTo myId true).2 then throw .wasReady else pure ()

/-- `MemoSpace::make_empty`, of the space at `myId`. -/
def makeEmpty (dropIfLastRef : Bool) (myId : LocId) : Proc D Unit := do
  let s ← get
  match s.getSpacePutter myId with
  | none => throw .notAPutter
  | some p =>
      set (s.setPtr myId .null)
      releaseRef dropIfLastRef p.ptr p.typeInfo
      becomeReady myId

end ReoRs
