import Mathlib.Algebra.Ring.Nat
import Mathlib.Data.List.AList

/-!
# `proto/reflection.rs`: type-erased data

The runtime moves data it knows only by address and by a `TypeInfo`. A datum
is modelled as a `Datum D`, a `bool` or anything else; the guards read booleans
through their addresses, and nothing else looks inside. Addresses are kept
apart by what they point into, since Rust never lets a stack frame and an
allocation overlap, and the content behind them is a partial map: an address
that holds no initialised datum reads as `none`.

The address of the datum a putter offers is named by its port. A port has one
call in progress at most, so while a call lasts the name is as good as the
address; that the next call of the port reuses it is the worst a real stack
can do.
-/

namespace ReoRs

abbrev LocId := Nat
abbrev RuleId := Nat
abbrev TypeId := Nat

/-- `hashbrown::HashMap`, each key at most once. The order of the entries
stands for whatever order a traversal of the real map takes. -/
abbrev HashMap (K V : Type) := AList (fun _ : K => V)

/-- `*mut u8`. -/
inductive Ptr where
  | null
  /-- the datum in the frame of the call in progress at this putter -/
  | stack (port : LocId)
  /-- memory of the global allocator -/
  | store (addr : Nat)
  /-- one of the two promoted constants `&true` and `&false` -/
  | constant (b : Bool)
  deriving DecidableEq, Repr

inductive Datum (D : Type) where
  | bool (b : Bool)
  | data (d : D)
  deriving DecidableEq, Repr

/-- Everything that ends a call abnormally: the assertions, `expect`s and
panics of the modelled functions, and reading through a null pointer. -/
inductive Fault where
  /-- `"Not a putter!"` -/
  | notAPutter
  /-- `"not a getter!"` -/
  | notAGetter
  /-- `"gggg"`, `"wfew"` -/
  | notAMemory
  /-- `assert_eq!(tid, me_ge_space.p.type_info.type_id)` -/
  | getterType
  /-- `assert!(was.is_null())` in `overwrite_null_ptr` -/
  | notNull
  /-- `"mem_to_locs BAD REFS?"` -/
  | badRefs
  /-- `"no memrefs?"` -/
  | noMemRefs
  /-- `assert!(*refs >= 1)` -/
  | refsZero
  /-- `assert!(was.is_none())` on a `mem_refs` insertion -/
  | refsPresent
  /-- `assert!(!was)` in `make_empty` -/
  | wasReady
  /-- `"move_in allocated something already owned??"` -/
  | alreadyOwned
  /-- `"not owned?"` -/
  | notOwned
  /-- `"not prepared for this len"` -/
  | notPrepared
  /-- `"Msgbox was full!"` -/
  | msgboxFull
  /-- `"proto attempted to clone an unclonable type!"` -/
  | unclonable
  /-- `"proto attempted to partial_eq a type for which its not defined!"` -/
  | noPartialEq
  /-- `"bad tentative!"` -/
  | badTentative
  /-- `"bad state-waiter LocId!"` -/
  | badStateWaiter
  /-- `"NOT TEMP??"` -/
  | notTemp
  /-- `"NOT PUTTER"` -/
  | notPutterTerm
  /-- `assert_eq!(i.type_id, ..)` in `eval_formula` -/
  | termType
  /-- `"TEMP. NOT ALLOWED AT RUNTIME"` -/
  | functionAtRuntime
  /-- the index of `r.rules[commitment.rule_id]` -/
  | badRuleId
  /-- `commitment.awaiting -= 1` at zero, with overflow checked -/
  | subtractOverflow
  /-- a read through a null pointer or of memory that holds no datum -/
  | badRead
  /-- a guard's read through a null pointer -/
  | nullRead
  /-- a guard's read of a `bool` from memory that holds something else -/
  | notABool
  /-- `assert!(self.func_defs.insert(..).is_none())` -/
  | funcPresent
  /-- `assert!(was.is_none())` in `define_init_memory` -/
  | initMemPresent
  /-- an `unwrap` of a `None` -/
  | noneUnwrapped
  /-- `assert_eq!(*ready & members, ..)` in `deliberate` -/
  | membersReady
  /-- `assert!(self.members_indexed.is_empty())` -/
  | membersLeft
  deriving DecidableEq, Repr

structure Layout where
  size : Nat
  align : Nat
  deriving DecidableEq, Repr

/-! ## The process memory -/

/-- `std::alloc`: which address an allocation returns may depend on the whole
history, but it is never one that is live. -/
structure GlobalAlloc where
  pick : (allocs : Nat) → (live : List Nat) → Layout → Nat
  fresh : ∀ allocs live layout, pick allocs live layout ∉ live

theorem le_foldr_max {n : Nat} : ∀ {ns : List Nat}, n ∈ ns → n ≤ ns.foldr max 0
  | m :: ns, h => by
      rcases List.mem_cons.1 h with rfl | h
      · exact Nat.le_max_left _ _
      · exact Nat.le_trans (le_foldr_max h) (Nat.le_max_right _ _)

/-- An allocator that goes above every live address. -/
def GlobalAlloc.bump : GlobalAlloc where
  pick := fun _ live _ => live.foldr max 0 + 1
  fresh := by
    intro _ live _ hmem
    have := le_foldr_max hmem
    omega

structure Heap (D : Type) where
  global : GlobalAlloc
  /-- allocations made so far -/
  allocs : Nat
  /-- addresses handed out and not deallocated -/
  live : List Nat
  cells : Ptr → Option (Datum D)
  /-- data whose drop function has run, newest first -/
  dropped : List (Datum D)

namespace Heap

variable {D : Type}

/-- The memory of a process that has not allocated anything. -/
def empty : Heap D := ⟨.bump, 0, [], fun _ => none, []⟩

def read (h : Heap D) : Ptr → Option (Datum D)
  | .null => none
  | .constant b => some (.bool b)
  | p => h.cells p

/-- `*p` in a guard. A pointer that is not null may still lead to nothing. -/
def deref (h : Heap D) (p : Ptr) : Except Fault (Datum D) :=
  match h.read p with
  | some v => .ok v
  | none => .error (if p = .null then .nullRead else .badRead)

def write (h : Heap D) (p : Ptr) (v : Option (Datum D)) : Heap D :=
  { h with cells := Function.update h.cells p v }

/-- `alloc::alloc(layout)`: fresh and uninitialised. -/
def allocate (h : Heap D) (layout : Layout) : Ptr × Heap D :=
  let n := h.global.pick h.allocs h.live layout
  (.store n, { h.write (.store n) none with live := n :: h.live, allocs := h.allocs + 1 })

theorem read_write_ne (h : Heap D) {p q : Ptr} (v : Option (Datum D)) (hq : q ≠ p) :
    (h.write p v).read q = h.read q := by
  cases q with
  | null | constant b => rfl
  | stack port => exact Function.update_of_ne hq v h.cells
  | store a => exact Function.update_of_ne hq v h.cells

@[simp] theorem read_write_store (h : Heap D) (a : Nat) (v : Option (Datum D)) :
    (h.write (.store a) v).read (.store a) = v := by
  show Function.update h.cells (.store a) v (.store a) = v
  rw [Function.update_self]

@[simp] theorem read_write_stack (h : Heap D) (p : LocId) (v : Option (Datum D)) :
    (h.write (.stack p) v).read (.stack p) = v := by
  show Function.update h.cells (.stack p) v (.stack p) = v
  rw [Function.update_self]

end Heap

/-! ## Type descriptors -/

/-- `CloneFn(Option<fn(*mut u8, *mut u8)>)`. -/
inductive CloneFn (D : Type) where
  | undefined
  | defined (clone : Datum D → Datum D)

/-- `PartialEqFn(Option<fn(*mut u8, *mut u8) -> bool>)`: the type's own
comparison, or the comparison of addresses in `BOOL_TYPE_INFO`. -/
inductive PartialEqFn (D : Type) where
  | undefined
  | byValue (eq : Datum D → Datum D → Bool)
  | byAddress

/-- `DropFn(Option<fn(*mut u8)>)`: defined for the types that need a drop. -/
inductive DropFn where
  | undefined
  | dropInPlace
  deriving DecidableEq, Repr

structure TypeInfoFuncs (D : Type) where
  drop : DropFn
  clone : CloneFn D
  partialEq : PartialEqFn D

structure TypeInfo (D : Type) where
  typeId : TypeId
  isCopy : Bool
  layout : Layout
  funcs : TypeInfoFuncs D

variable {D : Type}

/-- What `ptr::copy(src, _, size)` carries over. Copying uninitialised bytes
carries nothing; only a copy of no bytes may start from null. -/
def TypeInfo.copied (info : TypeInfo D) (src : Ptr) (h : Heap D) :
    Except Fault (Option (Datum D)) :=
  if src = .null ∧ info.layout.size ≠ 0 then .error .badRead else .ok (h.read src)

def TypeInfo.copyFnExecute (info : TypeInfo D) (src dest : Ptr) (h : Heap D) :
    Except Fault (Heap D) := do
  let v ← info.copied src h
  pure (h.write dest v)

/-- The value the clone function produces from what `src` points to. -/
def CloneFn.cloned (f : CloneFn D) (src : Ptr) (h : Heap D) : Except Fault (Datum D) :=
  match f with
  | .undefined => .error .unclonable
  | .defined clone =>
      match h.read src with
      | some v => .ok (clone v)
      | none => .error .badRead

def CloneFn.execute (f : CloneFn D) (src dst : Ptr) (h : Heap D) : Except Fault (Heap D) := do
  let v ← f.cloned src h
  pure (h.write dst (some v))

def PartialEqFn.execute (f : PartialEqFn D) (a b : Ptr) (h : Heap D) : Except Fault Bool :=
  match f with
  | .undefined => .error .noPartialEq
  | .byAddress => .ok (a == b)
  | .byValue eq => do
      let x ← h.deref a
      let y ← h.deref b
      pure (eq x y)

def DropFn.execute (f : DropFn) (on : Ptr) (h : Heap D) : Except Fault (Heap D) :=
  match f with
  | .undefined => .ok h
  | .dropInPlace =>
      match h.read on with
      | some v => .ok { h with dropped := v :: h.dropped }
      | none => .error .badRead

/-- The `type_id` of `BOOL_TYPE_INFO`. -/
def boolTypeId : TypeId := 0

/-- The `partial_eq` of `BOOL_TYPE_INFO`: it compares the two addresses. -/
def boolPartialEq : PartialEqFn D := .byAddress

end ReoRs
