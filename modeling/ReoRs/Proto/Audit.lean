import ReoRs.Lib.Run
import ReoRs.Proto.Memory

/-!
# `proto/memory.rs`: the storage and its allocator

The other half of `Storage`: the operations that give memory back, and its
`Drop`. What they promise is about the calls they make, of the global
allocator and of the drop functions of the stored types, so here the storage
runs with its calls recorded. The record observes and never decides: nothing
reads it.

The last part is the storage's client, with the pointers it was handed and
has not released, and the runs of such a client.
-/

namespace ReoRs

variable {D : Type}

/-- `alloc::dealloc(ptr, layout)`; which layout is in the record of calls. -/
def Heap.deallocate (h : Heap D) (ptr : Ptr) : Heap D :=
  match ptr with
  | .store a => { h.write ptr none with live := h.live.erase a }
  | _ => h

/-- A call the storage makes of the outside. -/
inductive Call where
  /-- `alloc::alloc(layout)` returned `ptr` -/
  | alloc (ptr : Ptr) (layout : Layout)
  | dealloc (ptr : Ptr) (layout : Layout)
  /-- the drop function of a type, on what is at `ptr` -/
  | drop (ptr : Ptr) (typeId : TypeId)
  deriving DecidableEq, Repr

namespace Call

def ptr : Call → Ptr
  | .alloc p _ => p
  | .dealloc p _ => p
  | .drop p _ => p

/-- The layout a pointer was allocated with and not yet deallocated, if any;
calls are listed newest first. -/
def layoutOf : List Call → Ptr → Option Layout
  | [] => fun _ => none
  | .alloc p layout :: calls => Function.update (layoutOf calls) p (some layout)
  | .dealloc p _ :: calls => Function.update (layoutOf calls) p none
  | .drop _ _ :: calls => layoutOf calls

end Call

/-- The memory of a storage and the calls it made, newest first. -/
structure Audit (D : Type) where
  mem : Mem D
  calls : List Call

abbrev AuditM (D : Type) := EStateM Fault (Audit D)

namespace Audit

def onMem {α : Type} (x : MemM D α) : AuditM D α :=
  Effect.zoom Audit.mem (fun m s => { s with mem := m }) x

def note (call : Call) : AuditM D Unit :=
  modify fun s => { s with calls := call :: s.calls }

/-- A computation that hands out a slot. Whether it went to the allocator for
it shows in the number of allocations made. -/
def handOut (info : TypeInfo D) (x : MemM D Ptr) : AuditM D Ptr := do
  let before ← get
  let dest ← onMem x
  let after ← get
  if after.mem.heap.allocs ≠ before.mem.heap.allocs then
    note (.alloc dest info.layout)
  pure dest

def dealloc (ptr : Ptr) (layout : Layout) : AuditM D Unit := do
  onMem (modify fun m => { m with heap := m.heap.deallocate ptr })
  note (.dealloc ptr layout)

/-- `info.funcs.drop.execute(ptr)`. -/
def dropExecute (info : TypeInfo D) (ptr : Ptr) : AuditM D Unit := do
  onMem (liftHeap (info.funcs.drop.execute ptr))
  note (.drop ptr info.typeId)

def dropInside (ptr : Ptr) (info : TypeInfo D) : AuditM D Unit := do
  dropExecute info ptr
  onMem (Storage.innerFree ptr info.layout)

/-- A `Vec` is traversed from its bottom up. -/
def shrinkToFit : AuditM D Unit := do
  let s ← get
  set { s with mem := { s.mem with storage := { s.mem.storage with free := ∅ } } }
  Effect.forEach (fun entry : (_ : Layout) × List Ptr =>
    Effect.forEach (fun ptr => dealloc ptr entry.1) entry.2.reverse)
    s.mem.storage.free.entries

/-- One round of the loop of `Drop for Storage`. -/
def dropOwned (typeInfo : HashMap TypeId (TypeInfo D)) (entry : (_ : Ptr) × TypeId) :
    AuditM D Unit :=
  match typeInfo.lookup entry.2 with
  | none => throw .noneUnwrapped
  | some info => do
      dropExecute info entry.1
      dealloc entry.1 info.layout

/-- `Drop for Storage`. -/
def dropStorage : AuditM D Unit := do
  let s ← get
  set { s with mem := { s.mem with storage := { s.mem.storage with owned := ∅ } } }
  Effect.forEach (dropOwned s.mem.storage.typeInfo) s.mem.storage.owned.entries
  shrinkToFit

end Audit

/-! ## A client of the storage -/

/-- The operations of `Storage`, and whatever the rest of the program does to
the memory in between. -/
inductive StorageOp (D : Type) where
  | moveValueIn (info : TypeInfo D) (value : Datum D)
  | alloc (info : TypeInfo D)
  | moveIn (src : Ptr) (info : TypeInfo D)
  | cloneIn (src : Ptr) (info : TypeInfo D)
  | copyOut (src dest : Ptr) (layout : Layout)
  | moveOut (src dest : Ptr) (layout : Layout)
  | forgetInside (ptr : Ptr) (info : TypeInfo D)
  | dropInside (ptr : Ptr) (info : TypeInfo D)
  | shrinkToFit
  | elsewhere (heap : Heap D)

/-- A storage and the pointers its client holds, each with the type it was
handed out for. -/
structure Client (D : Type) where
  audit : Audit D
  held : Ptr → Option (TypeInfo D)

namespace Client

/-- A storage just created, in any memory. -/
def start (heap : Heap D) : Client D := ⟨⟨⟨∅, heap⟩, []⟩, fun _ => none⟩

def storage (s : Client D) : Storage D := s.audit.mem.storage

def heap (s : Client D) : Heap D := s.audit.mem.heap

/-- The layout a pointer was obtained with from the allocator, if it was and
has not been deallocated. -/
def layoutOf (s : Client D) : Ptr → Option Layout := Call.layoutOf s.audit.calls

/-- The free list of a layout. -/
def freeList (s : Client D) (layout : Layout) : List Ptr :=
  (s.storage.free.lookup layout).getD []

def handed (s : Client D) (audit : Audit D) (ptr : Ptr) (info : TypeInfo D) : Client D :=
  ⟨audit, Function.update s.held ptr (some info)⟩

def released (s : Client D) (audit : Audit D) (ptr : Ptr) : Client D :=
  ⟨audit, Function.update s.held ptr none⟩

end Client

/-- One operation of a client that releases what it holds, as the type or with
the layout it was handed it for, and uses one `TypeInfo` for a `TypeId`. Only
operations that return make a step. -/
inductive StorageStep (types : TypeId → TypeInfo D) :
    Client D → StorageOp D → Client D → Prop where
  | moveValueIn {s : Client D} {info value dest audit} (htype : info = types info.typeId)
      (hrun : (Audit.handOut info (Storage.moveValueIn info value)).run s.audit =
        .ok dest audit) :
      StorageStep types s (.moveValueIn info value) (s.handed audit dest info)
  | alloc {s : Client D} {info dest audit} (htype : info = types info.typeId)
      (hrun : (Audit.handOut info (Storage.alloc info)).run s.audit = .ok dest audit) :
      StorageStep types s (.alloc info) (s.handed audit dest info)
  | moveIn {s : Client D} {src info dest audit} (htype : info = types info.typeId)
      (hrun : (Audit.handOut info (Storage.moveIn src info)).run s.audit = .ok dest audit) :
      StorageStep types s (.moveIn src info) (s.handed audit dest info)
  | cloneIn {s : Client D} {src info dest audit} (htype : info = types info.typeId)
      (hrun : (Audit.handOut info (Storage.cloneIn src info)).run s.audit = .ok dest audit) :
      StorageStep types s (.cloneIn src info) (s.handed audit dest info)
  | copyOut {s : Client D} {src dest layout audit}
      (hrun : (Audit.onMem (Storage.copyOut src dest layout)).run s.audit = .ok () audit) :
      StorageStep types s (.copyOut src dest layout) { s with audit }
  | moveOut {s : Client D} {src dest info audit} (hheld : s.held src = some info)
      (hrun : (Audit.onMem (Storage.moveOut src dest info.layout)).run s.audit = .ok () audit) :
      StorageStep types s (.moveOut src dest info.layout) (s.released audit src)
  | forgetInside {s : Client D} {ptr info audit} (hheld : s.held ptr = some info)
      (hrun : (Audit.onMem (Storage.forgetInside ptr info)).run s.audit = .ok () audit) :
      StorageStep types s (.forgetInside ptr info) (s.released audit ptr)
  | dropInside {s : Client D} {ptr info audit} (hheld : s.held ptr = some info)
      (hrun : (Audit.dropInside ptr info).run s.audit = .ok () audit) :
      StorageStep types s (.dropInside ptr info) (s.released audit ptr)
  | shrinkToFit {s : Client D} {audit} (hrun : Audit.shrinkToFit.run s.audit = .ok () audit) :
      StorageStep types s .shrinkToFit { s with audit }
  /-- The rest of the program may do anything to the memory but deallocate
  what is the storage's. -/
  | elsewhere {s : Client D} {heap : Heap D}
      (hlive : ∀ a layout, s.layoutOf (.store a) = some layout → a ∈ heap.live) :
      StorageStep types s (.elsewhere heap)
        { s with audit := { s.audit with mem := { s.audit.mem with heap } } }

/-! ## Operations that panic

The lock around a storage does not poison. What a panic left behind is what
the next operation finds, so a run goes on after one.
-/

/-- What an operation does; the slot it hands out is the client's business. -/
def StorageOp.body : StorageOp D → AuditM D Unit
  | moveValueIn info value => do
      let _ ← Audit.handOut info (Storage.moveValueIn info value)
  | alloc info => do
      let _ ← Audit.handOut info (Storage.alloc info)
  | moveIn src info => do
      let _ ← Audit.handOut info (Storage.moveIn src info)
  | cloneIn src info => do
      let _ ← Audit.handOut info (Storage.cloneIn src info)
  | copyOut src dest layout => Audit.onMem (Storage.copyOut src dest layout)
  | moveOut src dest layout => Audit.onMem (Storage.moveOut src dest layout)
  | forgetInside ptr info => Audit.onMem (Storage.forgetInside ptr info)
  | dropInside ptr info => Audit.dropInside ptr info
  | shrinkToFit => Audit.shrinkToFit
  | elsewhere heap => Audit.onMem (modify fun m => { m with heap })

/-- The pointer an operation gives up. -/
def StorageOp.gives : StorageOp D → Option Ptr
  | moveOut ptr _ _ | forgetInside ptr _ | dropInside ptr _ => some ptr
  | _ => none

/-- A pointer the client gave up is not its own, whether or not that went
well. -/
def Client.gave (s : Client D) (audit : Audit D) : Option Ptr → Client D
  | some ptr => s.released audit ptr
  | none => { s with audit }

/-- An operation that returns, or one that panics. A panicking one may have
been called with anything. -/
inductive StorageAttempt (types : TypeId → TypeInfo D) :
    Client D → StorageOp D → Client D → Prop where
  | returns {s t : Client D} {op : StorageOp D} (hstep : StorageStep types s op t) :
      StorageAttempt types s op t
  | panics {s : Client D} {op : StorageOp D} {fault audit}
      (hrun : op.body.run s.audit = .error fault audit) :
      StorageAttempt types s op (s.gave audit op.gives)

end ReoRs
