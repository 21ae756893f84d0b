import ReoRs.Lib.Effect
import ReoRs.Proto.Reflection

/-!
# `proto/memory.rs`: the storage of memory cells

Slots are recycled per layout. `free` holds, for every layout ever asked for,
the stack of slots of that layout that are not in use; `owned` the slots that
are, with the type of what is in them; `typeInfo` one descriptor for every
type that was ever stored.

A `Vec` used as a stack is a list with its top at the head.
-/

namespace ReoRs

structure Storage (D : Type) where
  free : HashMap Layout (List Ptr)
  owned : HashMap Ptr TypeId
  typeInfo : HashMap TypeId (TypeInfo D)

/-- A storage and the memory its pointers point into. -/
structure Mem (D : Type) where
  storage : Storage D
  heap : Heap D

abbrev MemM (D : Type) := EStateM Fault (Mem D)

variable {D : Type}

instance : EmptyCollection (Storage D) := ⟨⟨∅, ∅, ∅⟩⟩

/-- A raw operation on the memory alone. -/
def liftHeap (f : Heap D → Except Fault (Heap D)) : MemM D Unit := do
  let m ← get
  match f m.heap with
  | .ok h => set { m with heap := h }
  | .error e => throw e

namespace Storage

/-- `type_info.entry(..).or_insert_with(..)`. -/
def noteType (s : Storage D) (info : TypeInfo D) : Storage D :=
  match s.typeInfo.lookup info.typeId with
  | some _ => s
  | none => { s with typeInfo := s.typeInfo.insert info.typeId info }

/-- `free.entry(..).or_insert_with(Vec::new).pop().unwrap_or_else(alloc)`. -/
def popFree (layout : Layout) (m : Mem D) : Ptr × Mem D :=
  match (m.storage.free.lookup layout).getD [] with
  | dest :: rest =>
      (dest, { m with storage := { m.storage with free := m.storage.free.insert layout rest } })
  | [] =>
      let (dest, heap) := m.heap.allocate layout
      (dest, { storage := { m.storage with free := m.storage.free.insert layout [] }, heap })

/-- Allocates a slot and marks it owned; does not initialise it. -/
def alloc (info : TypeInfo D) : MemM D Ptr := do
  modify fun m => { m with storage := m.storage.noteType info }
  let m ← get
  let (dest, m) := popFree info.layout m
  set { m with storage := { m.storage with owned := m.storage.owned.insert dest info.typeId } }
  match m.storage.owned.lookup dest with
  | some _ => throw .alreadyOwned
  | none => pure dest

def innerFree (ptr : Ptr) (layout : Layout) : MemM D Unit := do
  let m ← get
  match m.storage.owned.lookup ptr with
  | none => throw .notOwned
  | some _ =>
      let owned := m.storage.owned.erase ptr
      set { m with storage := { m.storage with owned } }
      match m.storage.free.lookup layout with
      | none => throw .notPrepared
      | some stack =>
          set { m with storage := { m.storage with
            owned, free := m.storage.free.insert layout (ptr :: stack) } }

def moveIn (src : Ptr) (info : TypeInfo D) : MemM D Ptr := do
  let dest ← alloc info
  liftHeap (info.copyFnExecute src dest)
  pure dest

def cloneIn (src : Ptr) (info : TypeInfo D) : MemM D Ptr := do
  let dest ← alloc info
  liftHeap (info.funcs.clone.execute src dest)
  pure dest

/-- The source is the argument itself, so the copy always reads a datum. -/
def moveValueIn (info : TypeInfo D) (value : Datum D) : MemM D Ptr := do
  let dest ← alloc info
  modify fun m => { m with heap := m.heap.write dest (some value) }
  pure dest

def forgetInside (ptr : Ptr) (info : TypeInfo D) : MemM D Unit :=
  innerFree ptr info.layout

def dropInside (ptr : Ptr) (info : TypeInfo D) : MemM D Unit := do
  liftHeap (info.funcs.drop.execute ptr)
  innerFree ptr info.layout

/-- `ptr::copy(src, dest, layout.size())`. -/
def copyOut (src dest : Ptr) (layout : Layout) : MemM D Unit :=
  liftHeap fun h =>
    if src = .null ∧ layout.size ≠ 0 then .error .badRead else .ok (h.write dest (h.read src))

def moveOut (src dest : Ptr) (layout : Layout) : MemM D Unit := do
  copyOut src dest layout
  innerFree src layout

end Storage

end ReoRs
