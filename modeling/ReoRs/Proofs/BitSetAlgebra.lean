import ReoRs.BitSet

/-!
# The operations on two bit sets

Vectors of different lengths are zipped as far as the shorter one reaches, and
each operation has its own way with the rest. For `difference_with` and
`intersects_with` there is nothing to do there. `or_with` has to append what
the second vector has more, and appends all of it: its chunks appear a second
time, as many chunks further on as the first vector is long. That goes well
only if there is nothing to append, if the first vector has no chunks, so that
all of the second is what it has more, or if the second has no bits.

`is_superset` answers no, without a look, if the second vector is the longer
one. It is right to unless what the second has more is nothing but zero chunks,
and the rest of it is included.
-/

namespace ReoRs

namespace BitSet

/-! ## Words other than zero -/

theorem exists_bit_of_and_ne_zero {x y : Chunk} (h : x &&& y ≠ 0#64) :
    ∃ k, k < 64 ∧ x.getLsbD k = true ∧ y.getLsbD k = true := by
  obtain ⟨k, hk, hbit⟩ := Words.exists_getLsbD_of_ne_zero h
  rw [BitVec.getLsbD_and, Bool.and_eq_true] at hbit
  exact ⟨k, hk, hbit⟩

theorem and_ne_zero_of_bit {x y : Chunk} {k : Nat} (hx : x.getLsbD k = true)
    (hy : y.getLsbD k = true) : x &&& y ≠ 0#64 := by
  intro h0
  have hbit := BitVec.getLsbD_and (x := x) (y := y) (i := k)
  rw [h0, hx, hy, BitVec.getLsbD_zero] at hbit
  cases hbit

/-- The chunk of a member, which has its bit. -/
theorem getElem?_of_test {s : BitSet} {i : Nat} (h : s.test i = true) :
    ∃ c, s.data[i / 64]? = some c ∧ c.getLsbD (i % 64) = true := by
  rw [test_eq_mem] at h
  have hlt := Words.lt_length_of_mem h
  refine ⟨s.data[i / 64], List.getElem?_eq_getElem hlt, ?_⟩
  rw [← Words.mem_of_getElem? (List.getElem?_eq_getElem hlt), h]

theorem test_of_getElem? {s : BitSet} {n k : Nat} {c : Chunk} (hc : s.data[n]? = some c)
    (hk : k < 64) : s.test (64 * n + k) = c.getLsbD k := by
  rw [test_eq_mem, Words.getLsbD_of_getElem? hc hk]

theorem isEmpty_iff (s : BitSet) : s.isEmpty = true ↔ ∀ i, s.test i = false := by
  rw [isEmpty, List.all_eq_true]
  constructor
  · intro hall i
    cases ht : s.test i with
    | false => rfl
    | true =>
        obtain ⟨c, hc, hbit⟩ := getElem?_of_test ht
        have hzero := hall c (List.mem_of_getElem? hc)
        rw [eq_of_beq hzero, BitVec.getLsbD_zero] at hbit
        cases hbit
  · intro hno c hc
    obtain ⟨n, hn⟩ := List.getElem?_of_mem hc
    rw [beq_iff_eq]
    by_contra hne
    obtain ⟨k, hk, hbit⟩ := Words.exists_getLsbD_of_ne_zero hne
    rw [← test_of_getElem? hn hk, hno] at hbit
    cases hbit

/-! ## Intersection, difference and union -/

theorem intersectsWith_iff (a b : BitSet) :
    a.intersectsWith b = true ↔ ∃ i, a.test i = true ∧ b.test i = true := by
  rw [intersectsWith, List.any_eq_true]
  constructor
  · rintro ⟨⟨x, y⟩, hxy, hne⟩
    obtain ⟨n, hn⟩ := List.getElem?_of_mem hxy
    rw [List.getElem?_zip_eq_some] at hn
    obtain ⟨k, hk, hx, hy⟩ := exists_bit_of_and_ne_zero (bne_iff_ne.1 hne)
    exact ⟨64 * n + k, by rw [test_of_getElem? hn.1 hk, hx], by rw [test_of_getElem? hn.2 hk, hy]⟩
  · rintro ⟨i, ha, hb⟩
    obtain ⟨x, hx, hxbit⟩ := getElem?_of_test ha
    obtain ⟨y, hy, hybit⟩ := getElem?_of_test hb
    refine ⟨(x, y), List.mem_of_getElem? (i := i / 64) ?_, ?_⟩
    · rw [List.getElem?_zip_eq_some]
      exact ⟨hx, hy⟩
    · exact bne_iff_ne.2 (and_ne_zero_of_bit hxbit hybit)

theorem test_differenceWith (a b : BitSet) (i : Nat) :
    (a.differenceWith b).test i = (a.test i && !b.test i) := by
  rw [test_eq_mem, test_eq_mem, test_eq_mem]
  exact Words.mem_zipInto_andNot a.data b.data i (by decide)

/-- As far as the first vector reaches the union is right. -/
theorem test_orWith_of_lt {a b : BitSet} {i : Nat} (hi : i / 64 < a.data.length) :
    (a.orWith b).test i = (a.test i || b.test i) := by
  have hzip := Words.mem_zipInto_or a.data b.data i
  rw [decide_eq_true hi, Bool.true_and] at hzip
  rw [test_eq_mem, test_eq_mem, test_eq_mem, ← hzip, orWith]
  split
  · rw [Words.mem_append, if_pos (by rw [Words.length_zipInto]; exact hi)]
  · rfl

/-- Past it the second vector starts again. -/
theorem test_orWith_of_le {a b : BitSet} {i : Nat} (hi : a.data.length ≤ i / 64)
    (hlen : a.data.length < b.data.length) :
    (a.orWith b).test i = b.test (i - 64 * a.data.length) := by
  have hdata : (a.orWith b).data =
      Words.zipInto (fun s o => s ||| o) a.data b.data ++ b.data := by
    rw [orWith, if_pos (by rw [Words.length_zipInto]; exact hlen)]
  rw [test_eq_mem, test_eq_mem, hdata, Words.mem_append, Words.length_zipInto,
    if_neg (Nat.not_lt.2 hi)]

/-- With nothing to append the union is right. -/
theorem test_orWith_of_length_le {a b : BitSet} (hlen : b.data.length ≤ a.data.length) (i : Nat) :
    (a.orWith b).test i = (a.test i || b.test i) := by
  by_cases hi : i / 64 < a.data.length
  · exact test_orWith_of_lt hi
  · have hle := Nat.le_of_not_lt hi
    rw [test_of_length_le (s := a) hle, test_of_length_le (s := b) (Nat.le_trans hlen hle),
      orWith, if_neg (by rw [Words.length_zipInto]; exact Nat.not_lt.2 hlen), test_eq_mem,
      Words.mem_of_length_le (by rw [Words.length_zipInto]; exact hle)]
    rfl

/-- Past the first vector the union is right if what starts again there is what
the second vector has there. -/
theorem orWith_iff_repeats {a b : BitSet} (hlen : a.data.length < b.data.length) :
    (∀ i, (a.orWith b).test i = (a.test i || b.test i)) ↔
      ∀ i, b.test (i + 64 * a.data.length) = b.test i := by
  constructor
  · intro h i
    have hle : a.data.length ≤ (i + 64 * a.data.length) / 64 := by omega
    have hi := h (i + 64 * a.data.length)
    rw [test_orWith_of_le hle hlen, Nat.add_sub_cancel, test_of_length_le hle,
      Bool.false_or] at hi
    exact hi.symm
  · intro h i
    by_cases hi : i / 64 < a.data.length
    · exact test_orWith_of_lt hi
    · have hle := Nat.le_of_not_lt hi
      have hsub : i - 64 * a.data.length + 64 * a.data.length = i := by omega
      rw [test_orWith_of_le hle hlen, ← h, hsub, test_of_length_le (s := a) hle, Bool.false_or]

/-- A set that repeats itself further on has no end, unless it has no
members. -/
theorem repeats_iff (b : BitSet) (n : Nat) :
    (∀ i, b.test (i + n) = b.test i) ↔ n = 0 ∨ b.isEmpty = true := by
  rw [isEmpty_iff]
  constructor
  · intro h
    refine or_iff_not_imp_left.2 fun hn i => ?_
    have hfar : ∀ m, b.test (i + m * n) = b.test i := by
      intro m
      induction m with
      | zero => rw [Nat.zero_mul, Nat.add_zero]
      | succ m ih => rw [Nat.succ_mul, ← Nat.add_assoc, h, ih]
    rw [← hfar (64 * b.data.length)]
    refine test_of_length_le ?_
    rw [bitsPerChunk, Nat.le_div_iff_mul_le (by decide), Nat.mul_comm]
    exact Nat.le_trans (Nat.le_mul_of_pos_right _ (Nat.pos_of_ne_zero hn)) (Nat.le_add_left _ _)
  · rintro (rfl | hempty) i
    · rfl
    · rw [hempty, hempty]

/-- The algebra of `a` and `b` is that of the sets. -/
structure AlgebraExact (a b : BitSet) : Prop where
  orWith : ∀ i, (a.orWith b).test i = true ↔ a.test i = true ∨ b.test i = true
  differenceWith : ∀ i, (a.differenceWith b).test i = true ↔ a.test i = true ∧ ¬ b.test i = true
  intersectsWith : a.intersectsWith b = true ↔ ∃ i, a.test i = true ∧ b.test i = true

theorem algebraExact_iff_orWith (a b : BitSet) :
    AlgebraExact a b ↔ ∀ i, (a.orWith b).test i = (a.test i || b.test i) := by
  constructor
  · intro h i
    rw [Bool.eq_iff_iff, Bool.or_eq_true]
    exact h.orWith i
  · intro h
    refine ⟨fun i => ?_, fun i => ?_, intersectsWith_iff a b⟩
    · rw [h, Bool.or_eq_true]
    · rw [test_differenceWith, Bool.and_eq_true, Bool.not_eq_true', Bool.not_eq_true]

/-- The algebra is exact if and only if there is nothing to append, all of the
second vector is to be appended, or the second set has no members. -/
theorem algebraExact_iff (a b : BitSet) : AlgebraExact a b ↔
    b.data.length ≤ a.data.length ∨ a.data = [] ∨ b.isEmpty = true := by
  rw [algebraExact_iff_orWith]
  by_cases hlen : b.data.length ≤ a.data.length
  · exact iff_of_true (test_orWith_of_length_le hlen) (.inl hlen)
  · have hnil : 64 * a.data.length = 0 ↔ a.data = [] := by
      rw [← List.length_eq_zero_iff]
      omega
    rw [orWith_iff_repeats (Nat.lt_of_not_le hlen), repeats_iff, hnil, or_iff_right hlen]

/-- One chunk against two: index 0 of the second set comes back as index 64. -/
theorem not_algebraExact_longer : ¬ AlgebraExact ⟨[0]⟩ ⟨[1, 2]⟩ := by
  intro h
  have h64 : (orWith ⟨[0]⟩ ⟨[1, 2]⟩).test 64 = true := by decide
  rcases (h.orWith 64).1 h64 with ha | hb
  · exact absurd ha (by decide)
  · exact absurd hb (by decide)

end BitSet

end ReoRs
