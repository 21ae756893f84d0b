import ReoRs.BitSet

/-!
# What the iterators over a bit set yield

Both iterators run the loop of `Words.Cursor`, which takes the one bits of its
chunks in order. `iter_sparse` reads the chunks of the set and reports the
index of the bit it saw: it enumerates the set, and collecting what it yields
gives the set back, chunk for chunk, as soon as its trailing zero chunks are
gone.

`iter_and` does neither thing right. It reads the chunks of the first set
against the first chunk of the second, and it reports the index after the bit
it saw, since the increment comes first. What it enumerates is the successors
of the indices `p` with `p` in the first set and `p % 64` in the second. That
this is ever the intersection of the two sets takes a coincidence, and which
one it takes is the last theorem: none of the first 65 indices is in both
sets, and beyond them the indices that `iter_and` goes by and the common
indices are, one by one, neighbours.
-/

namespace ReoRs

namespace BitSet

open Words (Cursor)

/-! ## One set -/

theorem bit_sparseChunks (a : BitSet) (i : Nat) : a.sparseChunks.bit i = a.test i := by
  rw [test_eq_mem]
  show (a.data[i / 64]?).any (·.getLsbD (i % 64)) = _
  cases hc : a.data[i / 64]? with
  | none => rw [Words.mem_of_length_le (by simpa using hc), Option.any_none]
  | some c => rw [Words.mem_of_getElem? hc, Option.any_some]

/-- The minor index is taken back by the one it was ahead. -/
theorem reportAt_sparse : Cursor.reportAt 64 SparseIter.report = id := by
  funext p
  rw [Cursor.reportAt, SparseIter.report, bitsPerChunk, Nat.add_sub_cancel, id, Nat.mul_comm]
  exact Nat.div_add_mod p 64

theorem drain_iterSparse (a : BitSet) : a.iterSparse.drain = a.iterSparse.left := by
  rw [SparseIter.drain, Cursor.drain_eq, reportAt_sparse, List.map_id]

theorem drain_iterSparse_pairwise (a : BitSet) : a.iterSparse.drain.Pairwise (· < ·) := by
  rw [drain_iterSparse]
  exact a.sparseChunks.left_pairwise

theorem mem_drain_iterSparse (a : BitSet) (i : Nat) :
    i ∈ a.iterSparse.drain ↔ a.test i = true := by
  rw [drain_iterSparse, ← bit_sparseChunks]
  exact a.sparseChunks.mem_left

/-! ## Trailing zero chunks -/

theorem mem_popZeroes (data : List Chunk) (i : Nat) :
    Words.mem (popZeroes data) i = Words.mem data i := by
  fun_induction popZeroes data with
  | case1 data hnone => rfl
  | case2 data x hlast _ hx => rw [List.dropLast_append_getLast? x hlast]
  | case3 data x hlast _ hx ih =>
      rw [ih]
      conv_rhs => rw [← List.dropLast_append_getLast? x hlast]
      rw [not_not.1 hx]
      exact (Words.mem_append_zeros data.dropLast 1 i).symm

theorem trimmed_popZeroes (data : List Chunk) : Words.Trimmed (popZeroes data) := by
  fun_induction popZeroes data with
  | case1 data hnone =>
      rw [List.getLast?_eq_none_iff.1 hnone]
      exact Words.trimmed_nil
  | case2 data x hlast _ hx => exact Words.trimmed_concat data.dropLast hx
  | case3 data x hlast _ hx ih => exact ih

@[simp] theorem test_stripTrailingZeroes (s : BitSet) (i : Nat) :
    s.stripTrailingZeroes.test i = s.test i := by
  rw [test_eq_mem, test_eq_mem]
  exact mem_popZeroes s.data i

/-- A bit that is set last is in the last chunk, or that chunk had a bit
before. -/
theorem trimmed_setTo_true {s : BitSet} (h : Words.Trimmed s.data) (i : Nat) :
    Words.Trimmed (s.setTo i true).1.data := by
  intro n hn
  rw [length_setTo_true] at hn
  by_cases hi : i / bitsPerChunk = n
  · refine ⟨i, hi, ?_⟩
    rw [← test_eq_mem, test_setTo_self]
  · obtain ⟨j, hj, hbit⟩ := h n (by omega)
    refine ⟨j, hj, ?_⟩
    rw [← test_eq_mem] at hbit ⊢
    rw [test_setTo, hbit, ite_self]

theorem trimmed_fromIter (ids : List Nat) : Words.Trimmed (fromIter ids).data := by
  have hfold : ∀ (ids : List Nat) (s : BitSet), Words.Trimmed s.data →
      Words.Trimmed (ids.foldl (fun me i => (me.setTo i true).1) s).data := by
    intro ids
    induction ids with
    | nil => exact fun s h => h
    | cons i ids ih => exact fun s h => ih _ (trimmed_setTo_true h i)
  exact hfold ids ∅ Words.trimmed_nil

/-- Collecting the members of a set, in whatever order and however often,
gives its chunks without the trailing zeroes. -/
theorem fromIter_data {s : BitSet} {ids : List Nat} (h : ∀ i, i ∈ ids ↔ s.test i = true) :
    (fromIter ids).data = s.stripTrailingZeroes.data := by
  refine (trimmed_fromIter ids).ext (trimmed_popZeroes s.data) fun i => ?_
  rw [← test_eq_mem, ← test_eq_mem, test_stripTrailingZeroes, test_fromIter, Bool.eq_iff_iff,
    decide_eq_true_iff]
  exact h i

example : (iterSparse ⟨[5, 0, 1, 0]⟩).drain = [0, 2, 128] := by
  rw [drain_iterSparse]
  decide

/-- Enumerating a set and collecting it again are inverse, and the zero chunks
at its end do not matter to either. -/
theorem enumeration_inverse (b : BitSet) :
    b.iterSparse.drain.Pairwise (· < ·) ∧
      (∀ i, i ∈ b.iterSparse.drain ↔ b.test i = true) ∧
      (∀ ids : List Nat, (∀ i, i ∈ ids ↔ i ∈ b.iterSparse.drain) →
        (fromIter ids).data = b.stripTrailingZeroes.data) ∧
      (∀ i, b.stripTrailingZeroes.test i = b.test i) ∧
      ∀ len i, (b.padTrailingZeroes len).test i = b.test i := by
  refine ⟨drain_iterSparse_pairwise b, mem_drain_iterSparse b, fun ids hids => ?_,
    test_stripTrailingZeroes b, test_padTrailingZeroes b⟩
  exact fromIter_data fun i => (hids i).trans (mem_drain_iterSparse b i)

/-- Indices 0 and 65 out of order and one of them twice, against a vector with
a zero chunk at its end. -/
theorem enumeration_inverse_shuffled :
    (fromIter [65, 0, 65]).data = (stripTrailingZeroes ⟨[1, 2, 0]⟩).data := by
  refine (enumeration_inverse ⟨[1, 2, 0]⟩).2.2.1 [65, 0, 65] fun i => ?_
  have hpad : (⟨[1, 2, 0]⟩ : BitSet) = (fromIter [0, 65]).padTrailingZeroes 3 := by decide
  rw [mem_drain_iterSparse, hpad, test_padTrailingZeroes, test_fromIter, decide_eq_true_iff]
  simp only [List.mem_cons, List.not_mem_nil, or_false]
  exact ⟨fun h => h.elim .inr id, fun h => h.elim (fun h0 => .inr (.inl h0)) .inl⟩

/-! ## Two sets -/

/-- The bit that is looked at is the conjunction of a bit of the first set and
one in the first chunk of the second. -/
theorem bit_andChunks (a b : BitSet) (p : Nat) :
    (andChunks a b).bit p = (a.test p && b.test (p % 64)) := by
  rw [test_eq_mem, test_eq_mem]
  show ((a.data[p / 64]?).bind fun x => (b.data[0]?).map fun y => x &&& y).any
    (·.getLsbD (p % 64)) = _
  have hchunk : p % 64 / 64 = 0 := Nat.div_eq_of_lt (Nat.mod_lt p (by decide))
  cases ha : a.data[p / 64]? with
  | none =>
      rw [Words.mem_of_length_le (by simpa using ha)]
      rfl
  | some x =>
      rw [Words.mem_of_getElem? ha]
      cases hb : b.data[0]? with
      | none =>
          have hnot : Words.mem b.data (p % 64) = false :=
            Words.mem_of_length_le (by rw [hchunk]; simpa using hb)
          rw [hnot, Bool.and_false]
          rfl
      | some y =>
          have hbit : Words.mem b.data (p % 64) = y.getLsbD (p % 64 % 64) :=
            Words.mem_of_getElem? (by rw [hchunk]; exact hb)
          rw [hbit, Nat.mod_mod]
          exact BitVec.getLsbD_and

/-- The minor index is reported as it is after the increment. -/
theorem reportAt_and : Cursor.reportAt 64 AndIter.report = fun p => p + 1 := by
  funext p
  rw [Cursor.reportAt, AndIter.report, bitsPerChunk, ← Nat.add_assoc, Nat.mul_comm,
    Nat.div_add_mod]

theorem drain_ofSets (a b : BitSet) :
    (AndIter.ofSets a b).drain = (AndIter.ofSets a b).left.map fun p => p + 1 := by
  rw [AndIter.drain, Cursor.drain_eq, reportAt_and]

theorem drain_ofSets_pairwise (a b : BitSet) : (AndIter.ofSets a b).drain.Pairwise (· < ·) := by
  rw [drain_ofSets, List.pairwise_map]
  exact (andChunks a b).left_pairwise.imp Nat.succ_lt_succ

/-- What `iter_and` yields. -/
theorem mem_drain_ofSets (a b : BitSet) (i : Nat) : i ∈ (AndIter.ofSets a b).drain ↔
    ∃ p, a.test p = true ∧ b.test (p % 64) = true ∧ p + 1 = i := by
  rw [drain_ofSets, List.mem_map]
  refine exists_congr fun p => ?_
  rw [← and_assoc, ← Bool.and_eq_true, ← bit_andChunks]
  exact and_congr_left' (andChunks a b).mem_left

/-- The list that `exhaust_rules` goes through is what the iterator yields. -/
theorem iterAnd_eq_drain (a b : BitSet) : a.iterAnd b = (AndIter.ofSets a b).drain := by
  have hdrain : (AndIter.ofSets a b).drain = (List.range ((andChunks a b).len * 64)).filterMap
      fun p => if (andChunks a b).bit p then some (p / 64 * 64 + (p % 64 + 1)) else none := by
    rw [AndIter.drain, Cursor.drain_eq]
    exact (andChunks a b).map_left_word_zero AndIter.report
  obtain ⟨bs⟩ := b
  cases bs with
  | nil =>
      rw [hdrain]
      exact iterAnd_empty a
  | cons y ys =>
      -- a round of the inner loop, at the position it is at
      let f := fun maj min => (fetchChunk a ⟨y :: ys⟩ maj).bind fun x =>
        if (mask min &&& x) != 0#64 then some (maj * 64 + (min + 1)) else none
      have hinner : a.iterAnd ⟨y :: ys⟩ =
          (List.range a.data.length).flatMap fun maj => (List.range 64).filterMap (f maj) := by
        refine List.flatMap_congr fun maj _ => ?_
        show _ = List.filterMap (f maj) _
        dsimp only [f]
        cases fetchChunk a ⟨y :: ys⟩ maj with
        | none => exact (List.filterMap_eq_nil_iff.2 fun _ _ => rfl).symm
        | some x => rfl
      rw [hinner, hdrain, Words.flatMap_range_filterMap f (by decide)]
      refine List.filterMap_congr fun p _ => ?_
      dsimp only [f]
      rw [Words.Source.bit]
      show (fetchChunk a ⟨y :: ys⟩ (p / 64)).bind _ =
        if (fetchChunk a ⟨y :: ys⟩ (p / 64)).any _ then _ else _
      cases fetchChunk a ⟨y :: ys⟩ (p / 64) with
      | none => rfl
      | some x =>
          have hbit := Words.and_bit_ne_zero (by decide) x (p % 64)
          rw [Nat.mod_mod, BitVec.and_comm] at hbit
          rw [Option.any_some, ← hbit]
          rfl

/-- `a.iter_and(&b)` enumerates the intersection of `a` and `b`. -/
structure IteratesIntersection (a b : BitSet) : Prop where
  increasing : (AndIter.ofSets a b).drain.Pairwise (· < ·)
  mem_iff : ∀ i, i ∈ (AndIter.ofSets a b).drain ↔ a.test i = true ∧ b.test i = true

/-- Nothing up to 64 is in both sets, and after that an index is in the first
set and its bit in the second's first chunk if and only if the next index is in
both. -/
def Neighbouring (a b : BitSet) : Prop :=
  (∀ i, i ≤ 64 → ¬ (a.test i = true ∧ b.test i = true)) ∧
    ∀ p, 64 ≤ p → (a.test p = true ∧ b.test (p % 64) = true ↔
      a.test (p + 1) = true ∧ b.test (p + 1) = true)

theorem succ_mem_drain_ofSets (a b : BitSet) (p : Nat) : p + 1 ∈ (AndIter.ofSets a b).drain ↔
    a.test p = true ∧ b.test (p % 64) = true := by
  rw [mem_drain_ofSets]
  constructor
  · rintro ⟨q, ha, hb, hq⟩
    cases hq
    exact ⟨ha, hb⟩
  · rintro ⟨ha, hb⟩
    exact ⟨p, ha, hb, rfl⟩

theorem zero_not_mem_drain_ofSets (a b : BitSet) : 0 ∉ (AndIter.ofSets a b).drain := by
  rw [mem_drain_ofSets]
  rintro ⟨p, -, -, hp⟩
  cases hp

/-- A common index up to 64 would have to be yielded for the index before it,
which is common then. -/
theorem not_common_of_mem_drain {a b : BitSet}
    (h : ∀ i, i ∈ (AndIter.ofSets a b).drain ↔ a.test i = true ∧ b.test i = true) :
    ∀ i, i ≤ 64 → ¬ (a.test i = true ∧ b.test i = true) := by
  intro i
  induction i with
  | zero => exact fun _ hcommon => zero_not_mem_drain_ofSets a b ((h 0).2 hcommon)
  | succ p ih =>
      intro hp hcommon
      have hbefore := (succ_mem_drain_ofSets a b p).1 ((h (p + 1)).2 hcommon)
      rw [Nat.mod_eq_of_lt (by omega)] at hbefore
      exact ih (by omega) hbefore

/-- What is yielded are the common indices if and only if the neighbours fit. -/
theorem mem_drain_iff_neighbouring (a b : BitSet) :
    (∀ i, i ∈ (AndIter.ofSets a b).drain ↔ a.test i = true ∧ b.test i = true) ↔
      Neighbouring a b := by
  constructor
  · intro h
    refine ⟨not_common_of_mem_drain h, fun p _ => ?_⟩
    rw [← succ_mem_drain_ofSets, h]
  · intro h i
    cases i with
    | zero => exact iff_of_false (zero_not_mem_drain_ofSets a b) (h.1 0 (by decide))
    | succ p =>
        rw [succ_mem_drain_ofSets]
        by_cases hp : 64 ≤ p
        · exact h.2 p hp
        · rw [Nat.mod_eq_of_lt (by omega)]
          exact iff_of_false (h.1 p (by omega)) (h.1 (p + 1) (by omega))

/-- `iter_and` enumerates the intersection if and only if the neighbours fit. -/
theorem iteratesIntersection_iff (a b : BitSet) :
    IteratesIntersection a b ↔ Neighbouring a b :=
  ⟨fun h => (mem_drain_iff_neighbouring a b).1 h.mem_iff,
    fun h => ⟨drain_ofSets_pairwise a b, (mem_drain_iff_neighbouring a b).2 h⟩⟩

/-- Index 0 in both sets is reported as index 1. -/
theorem not_iteratesIntersection_single : ¬ IteratesIntersection ⟨[1]⟩ ⟨[1]⟩ := by
  intro h
  exact zero_not_mem_drain_ofSets ⟨[1]⟩ ⟨[1]⟩ ((h.mem_iff 0).2 (by decide))

end BitSet

end ReoRs
