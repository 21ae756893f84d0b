import Mathlib.Data.Finset.Sort
import Mathlib.Order.Lattice.Nat
import ReoRs.BitSet

/-!
# Programs over bit sets

A program has bit sets in variables and makes, changes and asks them by the
functions of `bitset.rs`. Run on chunk vectors it does what those do. Run on
finite sets of indices it does what they are for. Left out are `capacity`, which
is the allocator's, and what `Debug` prints.
-/

namespace ReoRs

abbrev SetVar := Nat

inductive SetOp where
  | fromIter (r : SetVar) (ids : List Nat)
  | fromChunks (r : SetVar) (it : List Chunk)
  | fromChunk (r : SetVar) (chunk : Chunk)
  | withCapacity (r : SetVar) (minCapacity : Nat)
  | clone (r other : SetVar)
  | setTo (r : SetVar) (idx : Nat) (val : Bool)
  | padTrailingZeroes (r : SetVar) (len : Nat)
  | padTrailingZeroesToCapacity (r : SetVar) (cap : Nat)
  | stripTrailingZeroes (r : SetVar)
  | differenceWith (r other : SetVar)
  | orWith (r other : SetVar)
  | test (r : SetVar) (idx : Nat)
  | getChunk (r : SetVar) (vecIdx : Nat)
  | isEmpty (r : SetVar)
  | intersectsWith (r other : SetVar)
  | isSuperset (r other : SetVar)
  | iterSparse (r : SetVar)
  | iterAnd (r other : SetVar)
  | iterChunks (r : SetVar)
  | intoUsizes (r : SetVar)

/-- What a function returns. -/
inductive SetAnswer where
  | unit
  | bool (b : Bool)
  | chunk (c : Chunk)
  | chunks (l : List Chunk)
  | ids (l : List Nat)
  deriving DecidableEq, Repr

namespace SetOp

/-- An operation on the chunk vectors. -/
def exec (op : SetOp) (sets : SetVar → BitSet) : (SetVar → BitSet) × SetAnswer :=
  match op with
  | fromIter r ids => (Function.update sets r (.fromIter ids), .unit)
  | fromChunks r it => (Function.update sets r (.fromChunks it), .unit)
  | fromChunk r chunk => (Function.update sets r (.fromChunk chunk), .unit)
  | withCapacity r minCapacity => (Function.update sets r (.withCapacity minCapacity), .unit)
  | clone r other => (Function.update sets r (sets other), .unit)
  | setTo r idx val =>
      (Function.update sets r ((sets r).setTo idx val).1, .bool ((sets r).setTo idx val).2)
  | padTrailingZeroes r len => (Function.update sets r ((sets r).padTrailingZeroes len), .unit)
  | padTrailingZeroesToCapacity r cap =>
      (Function.update sets r ((sets r).padTrailingZeroesToCapacity cap), .unit)
  | stripTrailingZeroes r => (Function.update sets r (sets r).stripTrailingZeroes, .unit)
  | differenceWith r other =>
      (Function.update sets r ((sets r).differenceWith (sets other)), .unit)
  | orWith r other => (Function.update sets r ((sets r).orWith (sets other)), .unit)
  | test r idx => (sets, .bool ((sets r).test idx))
  | getChunk r vecIdx => (sets, .chunk ((sets r).getChunk vecIdx))
  | isEmpty r => (sets, .bool (sets r).isEmpty)
  | intersectsWith r other => (sets, .bool ((sets r).intersectsWith (sets other)))
  | isSuperset r other => (sets, .bool ((sets r).isSuperset (sets other)))
  | iterSparse r => (sets, .ids (sets r).iterSparse.drain)
  | iterAnd r other => (sets, .ids ((sets r).iterAnd (sets other)))
  | iterChunks r => (sets, .chunks (sets r).data)
  -- the set is moved out of its variable
  | intoUsizes r => (Function.update sets r ∅, .chunks (sets r).intoUsizes)

/-! ## On finite sets -/

/-- The indices of the one bits. -/
def chunksIds (it : List Chunk) : Finset Nat :=
  (Finset.range (64 * it.length)).filter fun i => Words.mem it i

/-- The chunk that has the indices from `64 * vecIdx` on. -/
def chunkOf (A : Finset Nat) (vecIdx : Nat) : Chunk :=
  ((List.range 64).filter fun k => decide (64 * vecIdx + k ∈ A)).foldl
    (fun c k => c ||| BitVec.twoPow 64 k) 0#64

/-- The chunks up to the last that has an index. -/
def chunksOf (A : Finset Nat) : List Chunk :=
  (List.range (A.sup fun i => i / 64 + 1)).map (chunkOf A)

/-- An operation on sets of indices. -/
def meaning (op : SetOp) (sets : SetVar → Finset Nat) : (SetVar → Finset Nat) × SetAnswer :=
  match op with
  | fromIter r ids => (Function.update sets r ids.toFinset, .unit)
  | fromChunks r it => (Function.update sets r (chunksIds it), .unit)
  | fromChunk r chunk => (Function.update sets r (chunksIds [chunk]), .unit)
  | withCapacity r _ => (Function.update sets r ∅, .unit)
  | clone r other => (Function.update sets r (sets other), .unit)
  | setTo r idx val =>
      (Function.update sets r (if val then insert idx (sets r) else (sets r).erase idx),
        .bool (decide (idx ∈ sets r)))
  | padTrailingZeroes _ _ | padTrailingZeroesToCapacity _ _ | stripTrailingZeroes _ => (sets, .unit)
  | differenceWith r other => (Function.update sets r (sets r \ sets other), .unit)
  | orWith r other => (Function.update sets r (sets r ∪ sets other), .unit)
  | test r idx => (sets, .bool (decide (idx ∈ sets r)))
  | getChunk r vecIdx => (sets, .chunk (chunkOf (sets r) vecIdx))
  | isEmpty r => (sets, .bool (decide (sets r = ∅)))
  | intersectsWith r other => (sets, .bool (decide (sets r ∩ sets other ≠ ∅)))
  | isSuperset r other => (sets, .bool (decide (sets other ⊆ sets r)))
  | iterSparse r => (sets, .ids ((sets r).sort (· ≤ ·)))
  | iterAnd r other => (sets, .ids ((sets r ∩ sets other).sort (· ≤ ·)))
  | iterChunks r => (sets, .chunks (chunksOf (sets r)))
  | intoUsizes r => (Function.update sets r ∅, .chunks (chunksOf (sets r)))

end SetOp

end ReoRs
