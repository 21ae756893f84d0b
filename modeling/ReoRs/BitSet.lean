import ReoRs.Lib.WordScan

/-!
# `bitset.rs`: the chunked bit set

Sets of location ids, 64 to a chunk. The chunk vector only ever grows as far
as the largest id that was set, or as far as a capacity asks for, and most of
the operations the coordinator runs on two sets at once stop at the shorter
of the two vectors. Which ids such an operation really looks at is therefore
a question about vector lengths, so the lengths are part of the model and
every operation below comes with a lemma about membership and one about
length.
-/

namespace ReoRs

/-- A `usize` of the 64-bit target. -/
abbrev Chunk := BitVec 64

structure BitSet where
  data : List Chunk
  deriving DecidableEq, Repr

namespace BitSet

def bitsPerChunk : Nat := 64

instance : Inhabited BitSet := ⟨⟨[]⟩⟩

instance : EmptyCollection BitSet := ⟨⟨[]⟩⟩

/-- `1 << (idx % BITS_PER_CHUNK)`. -/
def mask (idx : Nat) : Chunk := 1#64 <<< (idx % bitsPerChunk)

def padTrailingZeroes (s : BitSet) (len : Nat) : BitSet :=
  ⟨s.data ++ List.replicate (len - s.data.length) 0#64⟩

def lenNeededForCapacity (cap : Nat) : Nat :=
  if cap % bitsPerChunk = 0 then cap / bitsPerChunk else cap / bitsPerChunk + 1

def padTrailingZeroesToCapacity (s : BitSet) (cap : Nat) : BitSet :=
  s.padTrailingZeroes (lenNeededForCapacity cap)

/-- The new set, and whether the bit was set before. -/
def setTo (s : BitSet) (idx : Nat) (val : Bool) : BitSet × Bool :=
  match val, s.data[idx / bitsPerChunk]? with
  | false, none => (s, false)
  | true, none =>
      -- the chunk that is written is one of the zeroes just pushed
      (⟨(s.padTrailingZeroes (idx / bitsPerChunk + 1)).data.set (idx / bitsPerChunk)
        (0#64 ||| mask idx)⟩, false)
  | true, some c =>
      (⟨s.data.set (idx / bitsPerChunk) (c ||| mask idx)⟩, (c &&& mask idx) != 0#64)
  | false, some c =>
      (⟨s.data.set (idx / bitsPerChunk) (c &&& ~~~ mask idx)⟩, (c &&& mask idx) != 0#64)

def test (s : BitSet) (idx : Nat) : Bool :=
  match s.data[idx / bitsPerChunk]? with
  | some c => (c &&& mask idx) != 0#64
  | none => false

/-- `FromIterator`. -/
def fromIter (ids : List Nat) : BitSet :=
  ids.foldl (fun me i => (me.setTo i true).1) ∅

/-- The zipped loop of `is_superset`. -/
def supersetChunks : List Chunk → List Chunk → Bool
  | s :: ss, o :: os =>
      let either := s ||| o
      let oNotS := either &&& ~~~ s
      if oNotS != 0#64 then false else supersetChunks ss os
  | _, _ => true

def isSuperset (s o : BitSet) : Bool :=
  if s.data.length < o.data.length then false else supersetChunks s.data o.data

/-- `AndIter::fetch_chunk`: the second operand is always read at chunk 0. -/
def fetchChunk (a b : BitSet) (chunkIdx : Nat) : Option Chunk :=
  a.data[chunkIdx]?.bind fun x => b.data[0]?.map fun y => x &&& y

/-- What draining `iter_and` yields. The minor index is incremented before it
is reported. -/
def iterAnd (a b : BitSet) : List Nat :=
  (List.range a.data.length).flatMap fun maj =>
    match fetchChunk a b maj with
    | none => []
    | some x =>
        (List.range bitsPerChunk).filterMap fun min =>
          if (mask min &&& x) != 0#64 then some (maj * bitsPerChunk + (min + 1)) else none

def isEmpty (s : BitSet) : Bool := s.data.all (· == 0#64)

def intersectsWith (a b : BitSet) : Bool :=
  (a.data.zip b.data).any fun (x, y) => (x &&& y) != 0#64

def differenceWith (s o : BitSet) : BitSet :=
  ⟨Words.zipInto (fun s o => s &&& ~~~ o) s.data o.data⟩

def orWith (s o : BitSet) : BitSet :=
  let data := Words.zipInto (fun s o => s ||| o) s.data o.data
  -- all of the other vector is appended, and not what is left of it
  if o.data.length > data.length then ⟨data ++ o.data⟩ else ⟨data⟩

/-- The loop of `strip_trailing_zeroes`. -/
def popZeroes (data : List Chunk) : List Chunk :=
  match h : data.getLast? with
  | none => data
  | some x =>
      have : data.dropLast.length < data.length := by
        have hne : data ≠ [] := by
          rintro rfl
          cases h
        rw [List.length_dropLast]
        exact Nat.sub_lt (List.length_pos_iff.2 hne) Nat.one_pos
      -- a chunk that was not zero is pushed back
      if x ≠ 0#64 then data.dropLast ++ [x] else popZeroes data.dropLast
termination_by data.length

def stripTrailingZeroes (s : BitSet) : BitSet := ⟨popZeroes s.data⟩

def fromChunks (it : List Chunk) : BitSet := stripTrailingZeroes ⟨it⟩

def getChunk (s : BitSet) (vecIdx : Nat) : Chunk := s.data[vecIdx]?.getD 0#64

def fromChunk (chunk : Chunk) : BitSet := if chunk = 0#64 then ⟨[]⟩ else ⟨[chunk]⟩

def intoUsizes (s : BitSet) : List Chunk := s.data

def withCapacity (minCapacity : Nat) : BitSet :=
  ⟨List.replicate (lenNeededForCapacity minCapacity) 0#64⟩

/-! ## Iterators

`SparseIter` and `AndIter` run the same loop. They differ in where a chunk
comes from, and in the minor index they report, which has been incremented by
then. -/

/-- `a.data.get(chunk_idx).cloned()`. -/
def sparseChunks (a : BitSet) : Words.Source 64 where
  fetch chunkIdx := a.data[chunkIdx]?
  len := a.data.length
  isSome_iff _ := by simp
  width := by decide

abbrev SparseIter (a : BitSet) := Words.Cursor a.sparseChunks

namespace SparseIter

def report (maj min : Nat) : Nat := maj * bitsPerChunk + (min - 1)

def next {a : BitSet} (it : SparseIter a) : Option Nat × SparseIter a :=
  Words.Cursor.next report it

/-- What the iterator yields until it ends. -/
def drain {a : BitSet} (it : SparseIter a) : List Nat := Words.Cursor.drain report it

end SparseIter

def iterSparse (a : BitSet) : SparseIter a := a.sparseChunks.word 0

theorem isSome_fetchChunk (a b : BitSet) (i : Nat) : (fetchChunk a b i).isSome = true ↔
    i < if b.data.isEmpty then 0 else a.data.length := by
  rw [fetchChunk]
  cases b.data with
  | nil => cases a.data[i]? <;> simp
  | cons y ys =>
      cases ha : a.data[i]? with
      | none => simpa using ha
      | some x => simpa using (List.getElem?_eq_some_iff.1 ha).1

/-- `AndIter::fetch_chunk(a, b, chunk_idx)`. -/
def andChunks (a b : BitSet) : Words.Source 64 where
  fetch := fetchChunk a b
  len := if b.data.isEmpty then 0 else a.data.length
  isSome_iff := isSome_fetchChunk a b
  width := by decide

abbrev AndIter (a b : BitSet) := Words.Cursor (andChunks a b)

namespace AndIter

def report (maj min : Nat) : Nat := maj * bitsPerChunk + min

def next {a b : BitSet} (it : AndIter a b) : Option Nat × AndIter a b :=
  Words.Cursor.next report it

/-- What the iterator yields until it ends. -/
def drain {a b : BitSet} (it : AndIter a b) : List Nat := Words.Cursor.drain report it

/-- The iterator that `iter_and` makes. -/
def ofSets (a b : BitSet) : AndIter a b := (andChunks a b).word 0

end AndIter

/-! ## Membership -/

theorem test_eq_mem (s : BitSet) (i : Nat) : s.test i = Words.mem s.data i := by
  unfold test
  split
  · next c hc =>
      rw [Words.mem_of_getElem? (by exact hc)]
      exact Words.and_bit_ne_zero (by decide) c i
  · next hc =>
      rw [Words.mem_of_length_le (by simpa [bitsPerChunk] using hc)]

@[simp] theorem test_empty (i : Nat) : (∅ : BitSet).test i = false := rfl

/-- Ids up to 63 fit in one chunk. -/
theorem lenNeededForCapacity_eq_one {cap : Nat} (hpos : 1 ≤ cap) (hle : cap ≤ 63) :
    lenNeededForCapacity cap = 1 := by
  rw [lenNeededForCapacity, bitsPerChunk]
  split <;> omega

@[simp] theorem test_padTrailingZeroes (s : BitSet) (len i : Nat) :
    (s.padTrailingZeroes len).test i = s.test i := by
  rw [test_eq_mem, test_eq_mem]
  exact Words.mem_append_zeros _ _ _

@[simp] theorem test_padTrailingZeroesToCapacity (s : BitSet) (cap i : Nat) :
    (s.padTrailingZeroesToCapacity cap).test i = s.test i :=
  test_padTrailingZeroes s _ i

theorem lt_length_of_test {s : BitSet} {i : Nat} (h : s.test i = true) :
    i / bitsPerChunk < s.data.length := by
  rw [test_eq_mem] at h
  exact Words.lt_length_of_mem h

theorem test_of_length_le {s : BitSet} {i : Nat} (h : s.data.length ≤ i / bitsPerChunk) :
    s.test i = false := by
  rw [test_eq_mem]
  exact Words.mem_of_length_le h

/-- Setting or clearing a bit of a chunk the vector has. -/
theorem setTo_of_some {s : BitSet} {i : Nat} {c : Chunk} (hc : s.data[i / bitsPerChunk]? = some c)
    (v : Bool) : s.setTo i v =
      (⟨s.data.set (i / bitsPerChunk) (if v then c ||| mask i else c &&& ~~~ mask i)⟩,
        (c &&& mask i) != 0#64) := by
  cases v <;> simp [setTo, hc]

/-- Setting a bit past the end pads up to its chunk first. -/
theorem setTo_true_of_none {s : BitSet} {i : Nat} (hc : s.data[i / bitsPerChunk]? = none) :
    s.setTo i true =
      (⟨(s.padTrailingZeroes (i / bitsPerChunk + 1)).data.set (i / bitsPerChunk)
        (0#64 ||| mask i)⟩, false) := by
  simp [setTo, hc]

theorem setTo_false_of_none {s : BitSet} {i : Nat} (hc : s.data[i / bitsPerChunk]? = none) :
    s.setTo i false = (s, false) := by
  simp [setTo, hc]

theorem test_setTo (s : BitSet) (i : Nat) (v : Bool) (j : Nat) :
    (s.setTo i v).1.test j = if j = i then v else s.test j := by
  rw [test_eq_mem, test_eq_mem]
  cases hc : s.data[i / bitsPerChunk]? with
  | some c =>
      rw [setTo_of_some hc]
      cases v with
      | true =>
          refine (Words.mem_set_or_bit (by decide) hc j).trans ?_
          by_cases h : j = i <;> simp [h]
      | false =>
          refine (Words.mem_set_and_not_bit (by decide) hc j).trans ?_
          by_cases h : j = i <;> simp [h]
  | none =>
      have hlen : s.data.length ≤ i / 64 := by simpa [bitsPerChunk] using hc
      cases v with
      | true =>
          rw [setTo_true_of_none hc]
          -- the chunk written is a pushed zero
          have hc' : (s.padTrailingZeroes (i / 64 + 1)).data[i / 64]? = some 0#64 := by
            unfold padTrailingZeroes
            rw [List.getElem?_append_right hlen, List.getElem?_replicate,
              if_pos (by omega)]
          refine (Words.mem_set_or_bit (by decide) hc' j).trans ?_
          rw [show Words.mem (s.padTrailingZeroes (i / 64 + 1)).data j = Words.mem s.data j
            from Words.mem_append_zeros _ _ _]
          by_cases h : j = i <;> simp [h]
      | false =>
          rw [setTo_false_of_none hc]
          by_cases h : j = i
          · subst h
            simpa using Words.mem_of_length_le hlen
          · simp [h]

@[simp] theorem test_setTo_self (s : BitSet) (i : Nat) (v : Bool) :
    (s.setTo i v).1.test i = v := by simp [test_setTo]

theorem test_setTo_ne (s : BitSet) {i j : Nat} (v : Bool) (h : j ≠ i) :
    (s.setTo i v).1.test j = s.test j := by simp [test_setTo, h]

/-- The flag `set_to` hands back is the bit it found. -/
@[simp] theorem setTo_snd (s : BitSet) (i : Nat) (v : Bool) : (s.setTo i v).2 = s.test i := by
  cases hc : s.data[i / bitsPerChunk]? <;> cases v <;> simp [setTo, test, hc]

theorem test_foldl_setTo (ids : List Nat) (s : BitSet) (j : Nat) :
    (ids.foldl (fun me i => (me.setTo i true).1) s).test j
      = (s.test j || decide (j ∈ ids)) := by
  induction ids generalizing s with
  | nil => simp
  | cons i ids ih =>
      rw [List.foldl_cons, ih, test_setTo]
      by_cases h : j = i <;> simp [h]

theorem test_fromIter (ids : List Nat) (j : Nat) :
    (fromIter ids).test j = decide (j ∈ ids) := by
  rw [fromIter, test_foldl_setTo, test_empty, Bool.false_or]

@[simp] theorem iterAnd_empty (s : BitSet) : s.iterAnd ∅ = [] := by
  rw [iterAnd, List.flatMap_eq_nil_iff]
  intro maj _
  have hnone : fetchChunk s ∅ maj = none := by
    rw [fetchChunk]
    cases s.data[maj]? <;> rfl
  rw [hnone]

/-- Clearing a bit that is not set changes nothing. -/
theorem setTo_false_of_not_test {s : BitSet} {i : Nat} (h : s.test i = false) :
    (s.setTo i false).1 = s := by
  cases hc : s.data[i / bitsPerChunk]? with
  | none => simp [setTo, hc]
  | some w =>
      have hclear : w &&& mask i = 0#64 := by simpa [test, hc] using h
      have hsame : w &&& ~~~ mask i = w := by
        have : w = (w &&& mask i) ||| (w &&& ~~~ mask i) := by
          ext k hk
          simp only [BitVec.getElem_or, BitVec.getElem_and, BitVec.getElem_not]
          cases w[k] <;> cases (mask i)[k] <;> rfl
        rw [hclear, BitVec.zero_or] at this
        exact this.symm
      obtain ⟨hlt, hget⟩ := List.getElem?_eq_some_iff.1 hc
      have hset : s.data.set (i / bitsPerChunk) w = s.data := by
        rw [← hget]
        exact List.set_getElem_self hlt
      simp only [setTo, hc, hsame, hset]

/-! ## Length -/

theorem length_padTrailingZeroes (s : BitSet) (len : Nat) :
    (s.padTrailingZeroes len).data.length = max s.data.length len := by
  simp only [padTrailingZeroes, List.length_append, List.length_replicate]
  omega

theorem length_setTo_true (s : BitSet) (i : Nat) :
    (s.setTo i true).1.data.length = max s.data.length (i / bitsPerChunk + 1) := by
  cases hc : s.data[i / bitsPerChunk]? with
  | none => simp [setTo, hc, length_padTrailingZeroes]
  | some c =>
      obtain ⟨hlt, -⟩ := List.getElem?_eq_some_iff.1 hc
      simp only [setTo, hc, List.length_set]
      omega

theorem length_setTo_false (s : BitSet) (i : Nat) :
    (s.setTo i false).1.data.length = s.data.length := by
  cases hc : s.data[i / bitsPerChunk]? <;> simp [setTo, hc]

theorem length_le_setTo (s : BitSet) (i : Nat) (v : Bool) :
    s.data.length ≤ (s.setTo i v).1.data.length := by
  cases v with
  | true => rw [length_setTo_true]; omega
  | false => exact Nat.le_of_eq (length_setTo_false s i).symm

end BitSet

end ReoRs
