import ReoRs.BitSetPrograms
import ReoRs.Lib.Machines
import ReoRs.Proofs.BitSetAlgebra
import ReoRs.Proofs.BitSetIter
import ReoRs.Proofs.StateWaiters

/-!
# A bit set is a set

Whatever a program does to bit sets and asks of them, the answers are those of
finite sets, but for three functions. `or_with` goes wrong where the second
vector is longer and both vectors have something in them. `is_superset` goes by
the lengths first, and says no to a set that is included but has zero chunks at
the end. `iter_and` yields the common indices by coincidence only. And whoever
asks for the chunks themselves gets the zero chunks with them.

The type claims the invariant that there are none. `set_to` with false,
`pad_trailing_zeroes`, `with_capacity` and `difference_with` leave some, and
the invariant is back once `strip_trailing_zeroes` was called. While it holds
of the set that is to be included `is_superset` is right, and the chunks say
which set it is.
-/

namespace ReoRs

open Words (Trimmed)

/-- The vector has the bits of the set. -/
def BitSet.Represents (s : BitSet) (A : Finset Nat) : Prop := ∀ i, s.test i = true ↔ i ∈ A

namespace BitSet

variable {s o : BitSet} {A B : Finset Nat}

theorem Represents.test_eq (h : s.Represents A) (i : Nat) : s.test i = decide (i ∈ A) := by
  rw [Bool.eq_iff_iff, decide_eq_true_iff]
  exact h i

/-! ## Functions that change a set -/

theorem represents_fromIter (ids : List Nat) : (fromIter ids).Represents ids.toFinset := by
  intro i
  rw [test_fromIter, decide_eq_true_iff, List.mem_toFinset]

theorem represents_chunks (it : List Chunk) : Represents ⟨it⟩ (SetOp.chunksIds it) := by
  intro i
  rw [test_eq_mem, SetOp.chunksIds, Finset.mem_filter, Finset.mem_range]
  refine (and_iff_right_of_imp fun hmem => ?_).symm
  have hlt : i / 64 < it.length := Words.lt_length_of_mem hmem
  omega

theorem Represents.strip (h : s.Represents A) : s.stripTrailingZeroes.Represents A := by
  intro i
  rw [test_stripTrailingZeroes]
  exact h i

theorem Represents.pad (h : s.Represents A) (len : Nat) :
    (s.padTrailingZeroes len).Represents A := by
  intro i
  rw [test_padTrailingZeroes]
  exact h i

theorem represents_fromChunk (chunk : Chunk) :
    (fromChunk chunk).Represents (SetOp.chunksIds [chunk]) := by
  rw [fromChunk]
  split
  · next hzero =>
      intro i
      have hzeros : Words.mem [0#64] i = Words.mem [] i := Words.mem_append_zeros [] 1 i
      rw [hzero, ← represents_chunks [0#64] i, test_eq_mem, test_eq_mem, hzeros]
  · exact represents_chunks [chunk]

theorem represents_withCapacity (cap : Nat) : (withCapacity cap).Represents ∅ := by
  intro i
  have hzeros := Words.mem_append_zeros ([] : List Chunk) (lenNeededForCapacity cap) i
  rw [withCapacity, test_eq_mem]
  rw [List.nil_append, Words.mem_nil] at hzeros
  simp [hzeros]

theorem Represents.setTo (h : s.Represents A) (idx : Nat) (val : Bool) :
    (s.setTo idx val).1.Represents (if val then insert idx A else A.erase idx) := by
  intro i
  rw [test_setTo]
  cases val with
  | true =>
      by_cases hi : i = idx
      · simp [hi]
      · simp [hi, h i]
  | false =>
      by_cases hi : i = idx
      · simp [hi]
      · simp [hi, h i]

theorem Represents.differenceWith (hs : s.Represents A) (ho : o.Represents B) :
    (s.differenceWith o).Represents (A \ B) := by
  intro i
  rw [test_differenceWith, hs.test_eq, ho.test_eq]
  simp

/-- The cases in which `or_with` appends nothing that was there before. -/
def Appendable (s o : BitSet) : Prop :=
  o.data.length ≤ s.data.length ∨ s.data = [] ∨ o.isEmpty = true

theorem represents_orWith_iff (hs : s.Represents A) (ho : o.Represents B) :
    (s.orWith o).Represents (A ∪ B) ↔ Appendable s o := by
  have hunion : (s.orWith o).Represents (A ∪ B) ↔
      ∀ i, (s.orWith o).test i = (s.test i || o.test i) := by
    refine forall_congr' fun i => ?_
    rw [Finset.mem_union, ← hs i, ← ho i, ← Bool.or_eq_true, ← Bool.eq_iff_iff]
  rw [hunion, Appendable]
  by_cases hlen : o.data.length ≤ s.data.length
  · exact iff_of_true (test_orWith_of_length_le hlen) (.inl hlen)
  · rw [orWith_iff_repeats (Nat.lt_of_not_le hlen), repeats_iff, or_iff_right hlen,
      ← List.length_eq_zero_iff, Nat.mul_eq_zero, or_iff_right (by decide : (64 : Nat) ≠ 0)]

/-! ## Functions that ask -/

theorem Represents.isEmpty (h : s.Represents A) : s.isEmpty = decide (A = ∅) := by
  rw [Bool.eq_iff_iff, isEmpty_iff, decide_eq_true_iff, Finset.eq_empty_iff_forall_notMem]
  refine forall_congr' fun i => ?_
  rw [← h i, Bool.not_eq_true]

theorem Represents.intersectsWith (hs : s.Represents A) (ho : o.Represents B) :
    s.intersectsWith o = decide (A ∩ B ≠ ∅) := by
  rw [Bool.eq_iff_iff, intersectsWith_iff, decide_eq_true_iff, ← Finset.nonempty_iff_ne_empty]
  refine exists_congr fun i => ?_
  rw [hs i, ho i, Finset.mem_inter]

theorem Represents.isSuperset_iff (hs : s.Represents A) (ho : o.Represents B) :
    s.isSuperset o = decide (B ⊆ A) ↔ Fits s o := by
  rw [← isSuperset_iff_included_iff, Bool.eq_iff_iff, decide_eq_true_iff]
  have hincluded : Included o s ↔ B ⊆ A := forall_congr' fun i => by rw [hs i, ho i]
  rw [hincluded]

/-- A set without zero chunks at the end is never too long to be included. -/
theorem fits_of_trimmed (ho : Trimmed o.data) : Fits s o := by
  by_cases hin : ∃ i, o.test i = true ∧ s.test i = false
  · exact .inr hin
  · refine .inl (ho.length_le fun i hi => ?_)
    rw [← test_eq_mem] at hi ⊢
    exact Bool.eq_true_of_not_eq_false fun hs => hin ⟨i, hi, hs⟩

theorem Represents.drain (h : s.Represents A) : s.iterSparse.drain = A.sort (· ≤ ·) := by
  have hlt := drain_iterSparse_pairwise s
  have hperm : s.iterSparse.drain.Perm (A.sort (· ≤ ·)) := by
    rw [List.perm_ext_iff_of_nodup (hlt.imp Nat.ne_of_lt) (Finset.sort_nodup A _)]
    intro i
    rw [mem_drain_iterSparse, Finset.mem_sort]
    exact h i
  exact hperm.eq_of_pairwise (fun _ _ _ _ => Nat.le_antisymm) (hlt.imp Nat.le_of_lt)
    (Finset.pairwise_sort A _)

theorem getLsbD_foldl_twoPow (l : List Nat) (c : Chunk) {k : Nat} (hk : k < 64) :
    (l.foldl (fun c k => c ||| BitVec.twoPow 64 k) c).getLsbD k =
      (c.getLsbD k || decide (k ∈ l)) := by
  induction l generalizing c with
  | nil => simp
  | cons j l ih =>
      rw [List.foldl_cons, ih, BitVec.getLsbD_or, BitVec.getLsbD_twoPow]
      by_cases hj : k = j
      · subst hj
        simp [hk]
      · simp [hj, Ne.symm hj]

theorem getLsbD_chunkOf (A : Finset Nat) (vecIdx : Nat) {k : Nat} (hk : k < 64) :
    (SetOp.chunkOf A vecIdx).getLsbD k = decide (64 * vecIdx + k ∈ A) := by
  rw [SetOp.chunkOf, getLsbD_foldl_twoPow _ _ hk, Bool.eq_iff_iff]
  simp [hk]

theorem Represents.getChunk (h : s.Represents A) (vecIdx : Nat) :
    s.getChunk vecIdx = SetOp.chunkOf A vecIdx := by
  refine BitVec.eq_of_getLsbD_eq fun k hk => ?_
  have hbit : (s.getChunk vecIdx).getLsbD k = s.test (64 * vecIdx + k) := by
    rw [BitSet.getChunk, test_eq_mem]
    cases hc : s.data[vecIdx]? with
    | some c => rw [← Words.getLsbD_of_getElem? hc hk, Option.getD_some]
    | none =>
        have hle : s.data.length ≤ (64 * vecIdx + k) / 64 := by
          have := List.getElem?_eq_none_iff.1 hc
          omega
        rw [Words.mem_of_length_le hle]
        simp
  rw [hbit, h.test_eq, getLsbD_chunkOf A vecIdx hk]

theorem Represents.iterAnd_iff (hs : s.Represents A) (ho : o.Represents B) :
    s.iterAnd o = (A ∩ B).sort (· ≤ ·) ↔ Neighbouring s o := by
  have hcommon : ∀ i, i ∈ (A ∩ B).sort (· ≤ ·) ↔ s.test i = true ∧ o.test i = true := by
    intro i
    rw [Finset.mem_sort, Finset.mem_inter, hs i, ho i]
  rw [iterAnd_eq_drain, ← mem_drain_iff_neighbouring]
  constructor
  · intro heq i
    rw [heq, hcommon]
  · intro hmem
    have hlt := drain_ofSets_pairwise s o
    have hperm : (AndIter.ofSets s o).drain.Perm ((A ∩ B).sort (· ≤ ·)) := by
      rw [List.perm_ext_iff_of_nodup (hlt.imp Nat.ne_of_lt) (Finset.sort_nodup _ _)]
      intro i
      rw [hmem, hcommon]
    exact hperm.eq_of_pairwise (fun _ _ _ _ => Nat.le_antisymm) (hlt.imp Nat.le_of_lt)
      (Finset.pairwise_sort _ _)

/-! ## Trailing zero chunks -/

theorem trimmed_fromChunk (chunk : Chunk) : Trimmed (fromChunk chunk).data := by
  rw [fromChunk]
  split
  · exact Words.trimmed_nil
  · next hne => exact Words.trimmed_concat [] hne

/-- The last chunk of a set of indices is the one with the greatest. -/
theorem lt_length_chunksOf {i : Nat} (hi : i ∈ A) : i / 64 < (SetOp.chunksOf A).length := by
  rw [SetOp.chunksOf, List.length_map, List.length_range]
  exact Finset.le_sup (f := fun i => i / 64 + 1) hi

theorem represents_chunksOf (A : Finset Nat) : Represents ⟨SetOp.chunksOf A⟩ A := by
  intro i
  rw [test_eq_mem]
  cases hc : (SetOp.chunksOf A)[i / 64]? with
  | none =>
      have hle := List.getElem?_eq_none_iff.1 hc
      rw [Words.mem_of_length_le hle]
      refine iff_of_false Bool.false_ne_true fun hi => ?_
      have := lt_length_chunksOf hi
      omega
  | some c =>
      rw [Words.mem_of_getElem? hc]
      rw [SetOp.chunksOf, List.getElem?_map, Option.map_eq_some_iff] at hc
      obtain ⟨n, hn, rfl⟩ := hc
      obtain ⟨hlt, rfl⟩ := List.getElem?_eq_some_iff.1 hn
      rw [List.getElem_range, getLsbD_chunkOf A _ (Nat.mod_lt i (by decide)), Nat.div_add_mod,
        decide_eq_true_iff]

theorem trimmed_chunksOf (A : Finset Nat) : Trimmed (SetOp.chunksOf A) := by
  intro n hn
  have hsup : (A.sup fun i => i / 64 + 1) = n + 1 := by
    rwa [SetOp.chunksOf, List.length_map, List.length_range] at hn
  have hne : A.Nonempty := by
    by_contra hempty
    rw [Finset.not_nonempty_iff_eq_empty.1 hempty] at hsup
    cases hsup
  obtain ⟨i, hi, hmax⟩ := Finset.exists_mem_eq_sup A hne fun i => i / 64 + 1
  refine ⟨i, by omega, ?_⟩
  rw [← test_eq_mem ⟨_⟩]
  exact (represents_chunksOf A i).2 hi

/-- Who asks for the chunks sees the zero chunks at the end. -/
theorem Represents.data_iff (h : s.Represents A) :
    s.data = SetOp.chunksOf A ↔ Trimmed s.data := by
  constructor
  · intro heq
    rw [heq]
    exact trimmed_chunksOf A
  · intro hs
    refine hs.ext (trimmed_chunksOf A) fun i => ?_
    rw [← test_eq_mem, ← test_eq_mem ⟨_⟩, h.test_eq, (represents_chunksOf A).test_eq]

/-- Without zero chunks at the end the chunks say which set it is. -/
theorem intoUsizes_eq_iff (hs : Trimmed s.data) (ho : Trimmed o.data) :
    s.intoUsizes = o.intoUsizes ↔ ∀ i, s.test i = o.test i := by
  simp only [test_eq_mem]
  exact ⟨fun heq i => congrArg (Words.mem · i) heq, fun htest => hs.ext ho htest⟩

/-- Whichever chunk comes last it has a bit. -/
theorem trimmed_orWith (hs : Trimmed s.data) (ho : Trimmed o.data) :
    Trimmed (s.orWith o).data := by
  intro n hn
  by_cases hlen : o.data.length ≤ s.data.length
  · rw [orWith, if_neg (by rw [Words.length_zipInto]; exact Nat.not_lt.2 hlen),
      Words.length_zipInto] at hn
    obtain ⟨i, hi, hbit⟩ := hs n hn
    refine ⟨i, hi, ?_⟩
    rw [← test_eq_mem] at hbit ⊢
    rw [test_orWith_of_length_le hlen, hbit, Bool.true_or]
  · have hlt := Nat.lt_of_not_le hlen
    rw [orWith, if_pos (by rw [Words.length_zipInto]; exact hlt), List.length_append,
      Words.length_zipInto] at hn
    obtain ⟨j, hj, hbit⟩ := ho (o.data.length - 1) (by omega)
    refine ⟨j + 64 * s.data.length, by omega, ?_⟩
    rw [← test_eq_mem] at hbit ⊢
    rw [test_orWith_of_le (by omega) hlt, Nat.add_sub_cancel, hbit]

end BitSet

namespace SetOp

open BitSet

/-! ## Programs -/

def RepresentsAll (sets : SetVar → BitSet) (As : SetVar → Finset Nat) : Prop :=
  ∀ r, (sets r).Represents (As r)

/-- The operation does what it is for. -/
def Faithful (op : SetOp) (sets : SetVar → BitSet) : Prop :=
  match op with
  | orWith r other => Appendable (sets r) (sets other)
  | isSuperset r other => Fits (sets r) (sets other)
  | iterAnd r other => Neighbouring (sets r) (sets other)
  | iterChunks r | intoUsizes r => Trimmed (sets r).data
  | _ => True

variable {sets : SetVar → BitSet} {As : SetVar → Finset Nat}

/-- Only the variable that is written matters. -/
theorem representsAll_update_iff (h : RepresentsAll sets As) (r : SetVar) (s : BitSet)
    (A : Finset Nat) :
    RepresentsAll (Function.update sets r s) (Function.update As r A) ↔ s.Represents A := by
  constructor
  · intro hall
    have hr := hall r
    rwa [Function.update_self, Function.update_self] at hr
  · intro hs q
    by_cases hq : q = r
    · rw [hq, Function.update_self, Function.update_self]
      exact hs
    · rw [Function.update_of_ne hq, Function.update_of_ne hq]
      exact h q

theorem representsAll_update_left (h : RepresentsAll sets As) {r : SetVar} {s : BitSet}
    (hs : s.Represents (As r)) : RepresentsAll (Function.update sets r s) As := by
  have hsame := (representsAll_update_iff h r s (As r)).2 hs
  rwa [Function.update_eq_self] at hsame

theorem faithful_iff (op : SetOp) (h : RepresentsAll sets As) : op.Faithful sets ↔
    RepresentsAll (op.exec sets).1 (op.meaning As).1 ∧ (op.exec sets).2 = (op.meaning As).2 := by
  have hchange : ∀ {r : SetVar} {s : BitSet} {A : Finset Nat} {x y : SetAnswer},
      s.Represents A → x = y →
      (True ↔ RepresentsAll (Function.update sets r s) (Function.update As r A) ∧ x = y) :=
    fun hs hxy => (iff_true_intro ⟨(representsAll_update_iff h _ _ _).2 hs, hxy⟩).symm
  have hask : ∀ {x y : SetAnswer}, x = y → (True ↔ RepresentsAll sets As ∧ x = y) :=
    fun hxy => (iff_true_intro ⟨h, hxy⟩).symm
  cases op with
  | fromIter r ids => exact hchange (represents_fromIter ids) rfl
  | fromChunks r it => exact hchange (represents_chunks it).strip rfl
  | fromChunk r chunk => exact hchange (represents_fromChunk chunk) rfl
  | withCapacity r cap => exact hchange (represents_withCapacity cap) rfl
  | clone r other => exact hchange (h other) rfl
  | setTo r idx val =>
      have hwas := (setTo_snd (sets r) idx val).trans ((h r).test_eq idx)
      exact hchange ((h r).setTo idx val) (congrArg SetAnswer.bool hwas)
  | padTrailingZeroes r len =>
      exact (iff_true_intro ⟨representsAll_update_left h ((h r).pad len), rfl⟩).symm
  | padTrailingZeroesToCapacity r cap =>
      exact (iff_true_intro ⟨representsAll_update_left h ((h r).pad _), rfl⟩).symm
  | stripTrailingZeroes r =>
      exact (iff_true_intro ⟨representsAll_update_left h (h r).strip, rfl⟩).symm
  | differenceWith r other => exact hchange ((h r).differenceWith (h other)) rfl
  | orWith r other =>
      show Appendable (sets r) (sets other) ↔ RepresentsAll _ _ ∧ _
      rw [← represents_orWith_iff (h r) (h other), ← representsAll_update_iff h r]
      exact (and_iff_left rfl).symm
  | test r idx => exact hask (congrArg SetAnswer.bool ((h r).test_eq idx))
  | getChunk r vecIdx => exact hask (congrArg SetAnswer.chunk ((h r).getChunk vecIdx))
  | isEmpty r => exact hask (congrArg SetAnswer.bool (h r).isEmpty)
  | intersectsWith r other =>
      exact hask (congrArg SetAnswer.bool ((h r).intersectsWith (h other)))
  | isSuperset r other =>
      show Fits (sets r) (sets other) ↔ RepresentsAll sets As ∧ SetAnswer.bool _ = .bool _
      rw [SetAnswer.bool.injEq, (h r).isSuperset_iff (h other), and_iff_right h]
  | iterSparse r => exact hask (congrArg SetAnswer.ids (h r).drain)
  | iterAnd r other =>
      show Neighbouring (sets r) (sets other) ↔ RepresentsAll sets As ∧ SetAnswer.ids _ = .ids _
      rw [SetAnswer.ids.injEq, (h r).iterAnd_iff (h other), and_iff_right h]
  | iterChunks r =>
      show Trimmed (sets r).data ↔ RepresentsAll sets As ∧ SetAnswer.chunks _ = .chunks _
      rw [SetAnswer.chunks.injEq, (h r).data_iff, and_iff_right h]
  | intoUsizes r =>
      have hmoved := (representsAll_update_iff h r ∅ ∅).2 fun i => by simp
      show Trimmed (sets r).data ↔ RepresentsAll _ _ ∧ SetAnswer.chunks (sets r).data = .chunks _
      rw [SetAnswer.chunks.injEq, (h r).data_iff]
      exact (and_iff_right hmoved).symm

theorem programs_follow (ops : List SetOp) (h : RepresentsAll sets As) :
    Machine.Follows exec meaning RepresentsAll ops sets As ↔
      Machine.Along exec Faithful ops sets :=
  Machine.follows_iff_along (P := Faithful) (fun op _ _ hall => faithful_iff op hall) h

/-- A program over bit sets is one over finite sets, answer for answer, iff
each `or_with` finds something to append only where it may, no `is_superset` is
deceived by a length, and so on for the others. -/
theorem programs_follow_iff (h : RepresentsAll sets As) (ops : List SetOp) :
    (Machine.Follows exec meaning RepresentsAll ops sets As ↔
      Machine.Along exec Faithful ops sets) ∧
    (Machine.Along exec Faithful ops sets →
      (Machine.run exec ops sets).2 = (Machine.run meaning ops As).2 ∧
        RepresentsAll (Machine.run exec ops sets).1 (Machine.run meaning ops As).1) := by
  refine ⟨programs_follow ops h, fun halong => ?_⟩
  obtain ⟨hstates, hanswers⟩ := ((programs_follow ops h).2 halong).run
  exact ⟨hanswers, hstates⟩

/-- An index that was set and cleared leaves two zero chunks, which nothing
without chunks is found to include. -/
theorem not_follows_cleared : ¬ Machine.Follows exec meaning RepresentsAll
    [setTo 0 64 true, setTo 0 64 false, isSuperset 1 0] (fun _ => ∅) (fun _ => ∅) := by
  have hempty : RepresentsAll (fun _ => ∅) (fun _ => ∅) := fun _ i => by simp
  rw [(programs_follow_iff hempty _).1]
  rintro ⟨-, -, hfits, -⟩
  rcases hfits with hlen | ⟨i, hi, -⟩
  · exact absurd hlen (by decide)
  · have hno := (isEmpty_iff _).1 (by decide : BitSet.isEmpty ⟨[0, 0]⟩ = true) i
    exact absurd (hi.symm.trans hno) (by decide)

/-! ## The invariant -/

/-- Which of the variables are sure to have no trailing zero chunks, after an
operation. -/
def trims (clean : SetVar → Bool) : SetOp → SetVar → Bool
  | fromIter r _ | fromChunks r _ | fromChunk r _ | stripTrailingZeroes r =>
      Function.update clean r true
  | withCapacity r _ | padTrailingZeroes r _ | padTrailingZeroesToCapacity r _
  | differenceWith r _ => Function.update clean r false
  | clone r other => Function.update clean r (clean other)
  | intoUsizes r => Function.update clean r true
  | setTo r _ val => Function.update clean r (clean r && val)
  | orWith r other => Function.update clean r (clean r && clean other)
  | _ => clean

def TrimmedWhere (sets : SetVar → BitSet) (clean : SetVar → Bool) : Prop :=
  ∀ r, clean r = true → Trimmed (sets r).data

variable {clean : SetVar → Bool}

theorem TrimmedWhere.update (h : TrimmedWhere sets clean) {r : SetVar} {s : BitSet} {b : Bool}
    (hs : b = true → Trimmed s.data) :
    TrimmedWhere (Function.update sets r s) (Function.update clean r b) := by
  intro q hq
  by_cases hqr : q = r
  · subst hqr
    rw [Function.update_self] at hq ⊢
    exact hs hq
  · rw [Function.update_of_ne hqr] at hq ⊢
    exact h q hq

theorem trimmedWhere_trims (op : SetOp) (h : TrimmedWhere sets clean) :
    TrimmedWhere (op.exec sets).1 (trims clean op) := by
  cases op with
  | fromIter r ids => exact h.update fun _ => trimmed_fromIter ids
  | fromChunks r it => exact h.update fun _ => trimmed_popZeroes it
  | fromChunk r chunk => exact h.update fun _ => trimmed_fromChunk chunk
  | stripTrailingZeroes r => exact h.update fun _ => trimmed_popZeroes (sets r).data
  | withCapacity r cap => exact h.update fun hb => absurd hb Bool.false_ne_true
  | padTrailingZeroes r len => exact h.update fun hb => absurd hb Bool.false_ne_true
  | padTrailingZeroesToCapacity r cap => exact h.update fun hb => absurd hb Bool.false_ne_true
  | clone r other => exact h.update (h other)
  | intoUsizes r => exact h.update fun _ => Words.trimmed_nil
  | differenceWith r other => exact h.update fun hb => absurd hb Bool.false_ne_true
  | setTo r idx val =>
      refine h.update fun hb => ?_
      obtain ⟨hr, rfl⟩ := Bool.and_eq_true_iff.1 hb
      exact trimmed_setTo_true (h r hr) idx
  | orWith r other =>
      refine h.update fun hb => ?_
      obtain ⟨hr, hother⟩ := Bool.and_eq_true_iff.1 hb
      exact trimmed_orWith (h r hr) (h other hother)
  | test _ _ | getChunk _ _ | isEmpty _ | intersectsWith _ _ | isSuperset _ _ | iterSparse _
  | iterAnd _ _ | iterChunks _ => exact h

/-- What the analysis lets through: no `or_with` and no `iter_and`, and where
zero chunks at the end would be seen, sets that have none. -/
def Asks (op : SetOp) (clean : SetVar → Bool) : Prop :=
  match op with
  | orWith _ _ | iterAnd _ _ => False
  | isSuperset _ other => clean other = true
  | iterChunks r | intoUsizes r => clean r = true
  | _ => True

theorem faithful_of_asks (op : SetOp) (h : TrimmedWhere sets clean) (hasks : op.Asks clean) :
    op.Faithful sets := by
  cases op with
  | orWith _ _ | iterAnd _ _ => exact hasks.elim
  | isSuperset r other => exact fits_of_trimmed (h other hasks)
  | iterChunks r | intoUsizes r => exact h r hasks
  | _ => trivial

/-- A program that starts from empty sets leaves the invariant where the
analysis says so, and there the chunks say which set it is. If the program
never calls `or_with` and `iter_and`, and asks for chunks or whether a set is
included only where the invariant holds of that set, its answers are those of
finite sets. -/
theorem invariant_kept (ops : List SetOp) :
    (∀ r, ops.foldl trims (fun _ => true) r = true →
      Trimmed ((Machine.run exec ops fun _ => ∅).1 r).intoUsizes) ∧
    (∀ r q, ops.foldl trims (fun _ => true) r = true → ops.foldl trims (fun _ => true) q = true →
      (((Machine.run exec ops fun _ => ∅).1 r).intoUsizes =
          ((Machine.run exec ops fun _ => ∅).1 q).intoUsizes ↔
        ∀ i, ((Machine.run exec ops fun _ => ∅).1 r).test i =
          ((Machine.run exec ops fun _ => ∅).1 q).test i)) ∧
    (Machine.Passes trims Asks ops (fun _ => true) →
      (Machine.run exec ops fun _ => ∅).2 = (Machine.run meaning ops fun _ => ∅).2) := by
  have hstart : TrimmedWhere (fun _ => ∅) (fun _ => true) := fun _ _ => Words.trimmed_nil
  have hend : TrimmedWhere (Machine.run exec ops fun _ => ∅).1 (ops.foldl trims fun _ => true) :=
    Machine.invariant_run (fun op _ _ => trimmedWhere_trims op) hstart
  refine ⟨hend, fun r q hr hq => intoUsizes_eq_iff (hend r hr) (hend q hq), fun hpasses => ?_⟩
  have halong : Machine.Along exec Faithful ops (fun _ => ∅) :=
    Machine.along_of_passes (I := TrimmedWhere) (P := Faithful)
      (fun op _ _ => trimmedWhere_trims op) (fun op _ _ => faithful_of_asks op) hstart hpasses
  have hempty : RepresentsAll (fun _ => ∅) (fun _ => ∅) := fun _ i => by simp
  exact ((programs_follow ops hempty).2 halong).run.2

/-- The same with a call of `strip_trailing_zeroes` in between. -/
theorem invariant_kept_stripped :
    Trimmed ((Machine.run exec [setTo 0 64 true, setTo 0 64 false, stripTrailingZeroes 0,
      isSuperset 1 0] fun _ => ∅).1 0).intoUsizes ∧
    (Machine.run exec [setTo 0 64 true, setTo 0 64 false, stripTrailingZeroes 0,
      isSuperset 1 0] fun _ => ∅).2 =
    (Machine.run meaning [setTo 0 64 true, setTo 0 64 false, stripTrailingZeroes 0,
      isSuperset 1 0] fun _ => ∅).2 := by
  obtain ⟨htrimmed, -, hanswers⟩ := invariant_kept
    [setTo 0 64 true, setTo 0 64 false, stripTrailingZeroes 0, isSuperset 1 0]
  exact ⟨htrimmed 0 rfl, hanswers ⟨trivial, trivial, trivial, rfl, trivial⟩⟩

end SetOp

end ReoRs
