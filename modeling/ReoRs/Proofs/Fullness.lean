import ReoRs.Proofs.IsReady

/-!
# What firing does to the memory bits

`assign_memory_bits` rewrites the memory bits chunk by chunk against the two
masks of a rule, for as long as all three vectors last. Within that length it
does what the masks say. All three are padded by `len_needed_for_capacity` of
the largest id, which counts one id too few when that id begins a chunk, and
so the largest id is the one location the update can miss. It does miss it
when nothing else has made the vectors longer: a getter's bit needs a chunk of
the memory bits, and a putter's bit one of the values, which never get one by
being cleared.
-/

namespace ReoRs

variable {D : Type}

/-! ## How long the vectors are -/

/-- A vector filled by setting bits reaches as far as the largest of them. -/
theorem lt_length_foldl_setTo {k : Nat} : ∀ (ids : List Nat) (s : BitSet),
    k < (ids.foldl (fun me i => (me.setTo i true).1) s).data.length ↔
      k < s.data.length ∨ ∃ i ∈ ids, k ≤ i / 64
  | [], s => by simp
  | i :: ids, s => by
      have hmax : k < max s.data.length (i / 64 + 1) ↔ k < s.data.length ∨ k ≤ i / 64 := by omega
      rw [List.foldl_cons, lt_length_foldl_setTo ids, BitSet.length_setTo_true,
        BitSet.bitsPerChunk, hmax, or_assoc, List.exists_mem_cons_iff]

theorem lt_length_fromIter {k : Nat} (ids : List Nat) :
    k < (BitSet.fromIter ids).data.length ↔ ∃ i ∈ ids, k ≤ i / 64 := by
  rw [BitSet.fromIter, lt_length_foldl_setTo]
  exact or_iff_right (Nat.not_lt_zero k)

/-- The loop rule for folds that happened to succeed. -/
theorem foldlM_inv {ε σ α : Type} {f : σ → α → Except ε σ} {I : σ → Prop} :
    ∀ {xs : List α} (_ : ∀ x ∈ xs, ∀ s t, I s → f s x = .ok t → I t) {s t : σ},
      I s → xs.foldlM f s = .ok t → I t
  | [], _, s, t, hI, h => by
      cases h
      exact hI
  | x :: xs, hstep, s, t, hI, h => by
      rw [List.foldlM_cons] at h
      cases hx : f s x with
      | error e =>
          rw [hx] at h
          cases h
      | ok u =>
          rw [hx] at h
          exact foldlM_inv (fun y hy => hstep y (List.mem_cons_of_mem x hy))
            (hstep x List.mem_cons_self s u hI hx) h

section Lengths

variable {locKinds : HashMap LocId LocKind} {id2TypeId : HashMap LocId TypeId} {c : Nat}

/-- Only a memory getter makes the values longer. -/
theorem buildGetter_vals {ruleId actionId : Nat} {p g : LocId} {tp : TypeId} {memPutter : Bool}
    {st st' : RuleSets × RunAction}
    (h : buildGetter locKinds id2TypeId ruleId actionId p tp memPutter st g = .ok st')
    (hg : isMemLoc locKinds g = true → g / 64 < c)
    (hst : st.1.assignVals.data.length ≤ c) : st'.1.assignVals.data.length ≤ c := by
  cases hk : locKinds.lookup g with
  | none => simp [buildGetter, kindOf, hk, bind, Except.bind] at h
  | some k =>
      rw [isMemLoc_of_lookup hk] at hg
      cases ht : id2TypeId.lookup g with
      | none => simp [buildGetter, kindOf, typeOf, hk, ht, bind, Except.bind] at h
      | some t =>
          simp only [buildGetter, kindOf, typeOf, hk, ht, bind, Except.bind] at h
          split at h
          · cases h
          split at h
          · cases h
          cases hm : k.isMem with
          | true =>
              have hbits : (st.1.getterBits g).assignVals.data.length ≤ c := by
                rw [RuleSets.getterBits, BitSet.length_setTo_true]
                exact Nat.max_le.2 ⟨hst, hg hm⟩
              simp only [hm, if_true] at h
              split at h
              · split at h
                · cases h
                  rw [RuleSets.selfPutBits, BitSet.length_setTo_false]
                  exact hbits
                · cases h
              · cases h
                exact hbits
          | false =>
              simp only [hm, Bool.false_eq_true, if_false] at h
              split at h
              · split at h
                · cases h
                  rw [RuleSets.selfPutBits, BitSet.length_setTo_false]
                  exact hst
                · cases h
              · cases h
                exact hst

theorem buildAction_vals {ruleId : Nat} {st st' : RuleSets × List RunAction}
    {a : ActionDef × Nat} (h : buildAction locKinds id2TypeId ruleId st a = .ok st')
    (hg : ∀ g ∈ a.1.getters, isMemLoc locKinds g = true → g / 64 < c)
    (hst : st.1.assignVals.data.length ≤ c) : st'.1.assignVals.data.length ≤ c := by
  cases hk : locKinds.lookup a.1.putter with
  | none => simp [buildAction, kindOf, hk, bind, Except.bind] at h
  | some k =>
      cases ht : id2TypeId.lookup a.1.putter with
      | none => simp [buildAction, kindOf, typeOf, hk, ht, bind, Except.bind] at h
      | some t =>
          have hbits : (if k.isMem then st.1.putterBits a.1.putter
              else st.1).assignVals.data.length ≤ c := by
            split
            · rw [RuleSets.putterBits, BitSet.length_setTo_false]
              exact hst
            · exact hst
          generalize hsets : (if k.isMem then st.1.putterBits a.1.putter else st.1) = sets at hbits
          simp only [buildAction, kindOf, typeOf, hk, ht, bind, Except.bind] at h
          split at h
          · cases h
          split at h
          · cases h
          rw [hsets] at h
          split at h
          · cases h
          split at h
          · cases h
          · next loop hloop =>
              cases h
              refine foldlM_inv (I := fun st => st.1.assignVals.data.length ≤ c) ?_ hbits hloop
              intro g hmem s t hs hstep
              exact buildGetter_vals hstep (hg g (List.mem_eraseDups.1 hmem)) hs

theorem buildActions_vals {ruleId : Nat} {actions : List ActionDef}
    {st : RuleSets × List RunAction}
    (h : buildActions locKinds id2TypeId ruleId actions = .ok st)
    (hg : ∀ a ∈ actions, ∀ g ∈ a.getters, isMemLoc locKinds g = true → g / 64 < c) :
    st.1.assignVals.data.length ≤ c := by
  refine foldlM_inv (I := fun st => st.1.assignVals.data.length ≤ c) ?_ (Nat.zero_le c) h
  intro a ha s t hs hstep
  exact buildAction_vals hstep (hg a.1 (List.fst_mem_of_mem_zipIdx ha)) hs

end Lengths

/-- The values of a rule are as long as their padding and the memory getters
make them. -/
theorem buildRule_vals {P : Proto D} {id2TypeId : HashMap LocId TypeId} {rule : RuleDef × Nat}
    {run : RunRule D} {b b' : Build D} (h : (buildRule P id2TypeId rule).run b = .ok run b')
    {c : Nat} (hc : BitSet.lenNeededForCapacity (maxLocId P.typelessProtoDef) ≤ c)
    (hg : ∀ a ∈ rule.1.actions, ∀ g ∈ a.getters,
      isMemLoc P.typelessProtoDef.locKinds g = true → g / 64 < c) :
    run.assignVals.data.length ≤ c := by
  rw [buildRule] at h
  obtain ⟨⟨sets, actions⟩, b₁, hacts, h⟩ := Effect.ok_of_bind_ok h
  obtain ⟨_, b₂, -, h⟩ := Effect.ok_of_bind_ok h
  cases h
  obtain ⟨hacts, -⟩ := ok_of_liftBuild hacts
  rw [show (sets.padTo (maxLocId P.typelessProtoDef)).assignVals =
    sets.assignVals.padTrailingZeroesToCapacity (maxLocId P.typelessProtoDef) from rfl,
    BitSet.padTrailingZeroesToCapacity, BitSet.length_padTrailingZeroes]
  exact Nat.max_le.2 ⟨buildActions_vals hacts hg, hc⟩

theorem buildRulesFrom_vals {P : Proto D} {id2TypeId : HashMap LocId TypeId} {c : Nat}
    (hc : BitSet.lenNeededForCapacity (maxLocId P.typelessProtoDef) ≤ c) :
    ∀ {rules : List (RuleDef × Nat)} {runs : List (RunRule D)} {b b' : Build D},
      (buildRulesFrom P id2TypeId rules).run b = .ok runs b' →
        List.Forall₂ (fun rule run => (∀ a ∈ rule.1.actions, ∀ g ∈ a.getters,
          isMemLoc P.typelessProtoDef.locKinds g = true → g / 64 < c) →
            run.assignVals.data.length ≤ c) rules runs := by
  intro rules
  induction rules with
  | nil =>
      intro runs b b' h
      cases h
      exact .nil
  | cons rule rules ih =>
      intro runs b b' h
      rw [buildRulesFrom] at h
      obtain ⟨run, b₁, hone, h⟩ := Effect.ok_of_bind_ok h
      obtain ⟨tail, b₂, hrest, h⟩ := Effect.ok_of_bind_ok h
      cases h
      exact .cons (buildRule_vals hone hc) (ih hrest)

theorem finish_vals {P : Proto D} {b b' : Build D} {s : ProtoAll D}
    (h : (finish P).run b = .ok s b') {c : Nat}
    (hc : BitSet.lenNeededForCapacity (maxLocId P.typelessProtoDef) ≤ c) {i : RuleId} {r : RuleDef}
    {run : RunRule D} (hr : P.typelessProtoDef.behaviour.rules[i]? = some r)
    (hrun : s.r.rules[i]? = some run)
    (hg : ∀ a ∈ r.actions, ∀ g ∈ a.getters,
      isMemLoc P.typelessProtoDef.locKinds g = true → g / 64 < c) :
    run.assignVals.data.length ≤ c := by
  rw [finish] at h
  obtain ⟨⟨types, infos⟩, b₁, -, h⟩ := Effect.ok_of_bind_ok h
  obtain ⟨ports, b₂, -, h⟩ := Effect.ok_of_bind_ok h
  obtain ⟨_, _, hget, h⟩ := Effect.ok_of_bind_ok h
  obtain ⟨spaces, b₅, -, h⟩ := Effect.ok_of_bind_ok h
  obtain ⟨rules, b₆, hrules, h⟩ := Effect.ok_of_bind_ok h
  obtain ⟨_, _, hget, h⟩ := Effect.ok_of_bind_ok h
  cases h
  have hall := buildRulesFrom_vals hc hrules
  have hrun' : rules[i]? = some run := hrun
  have hrule : P.typelessProtoDef.behaviour.rules.zipIdx[i]? = some (r, i) := by
    rw [List.getElem?_zipIdx, hr, Nat.zero_add]
    rfl
  obtain ⟨hi, hget⟩ := List.getElem?_eq_some_iff.1 hrule
  obtain ⟨hi', hget'⟩ := List.getElem?_eq_some_iff.1 hrun'
  have hone := hall.get hi hi'
  simp only [List.get_eq_getElem, hget, hget'] at hone
  exact hone hg

/-! ## What is assigned -/

/-- A bit neither mask has keeps its value. -/
theorem test_assignMemoryBits_of_clear {memory : BitSet} {rule : RunRule D} {l : LocId}
    (hmask : rule.assignMask.test l = false) (hvals : rule.assignVals.test l = false) :
    (assignMemoryBits memory rule).test l = memory.test l := by
  by_cases hlen : l / 64 < rule.assignVals.data.length ∧ l / 64 < rule.assignMask.data.length
  · by_cases hm : l / 64 < memory.data.length
    · rw [test_assignMemoryBits hm hlen.1 hlen.2, hmask, hvals]
      simp
    · rw [Nat.not_lt] at hm
      rw [BitSet.test_of_length_le hm, BitSet.test_of_length_le]
      rwa [length_assignMemoryBits]
  · rw [not_and_or, Nat.not_lt, Nat.not_lt] at hlen
    exact test_assignMemoryBits_of_short hlen

/-- What the memory bits are to be after a rule has fired. -/
structure FullnessUpdated (locKinds : HashMap LocId LocKind) (actions : List ActionDef)
    (bits bits' : BitSet) : Prop where
  filled : ∀ l, isMemLoc locKinds l = true → (∃ a ∈ actions, l ∈ a.getters) →
    ¬ putsToItself actions l → bits'.test l = true
  emptied : ∀ l, isMemLoc locKinds l = true → (∃ a ∈ actions, l = a.putter) →
    ¬ putsToItself actions l → bits'.test l = false
  unchanged : ∀ l, ¬ (isMemLoc locKinds l = true ∧ involved actions l ∧ ¬ putsToItself actions l) →
    bits'.test l = bits.test l

/-- The memory bits after a number of firings. -/
def bitsAfter (fired : List (RunRule D)) (bits : BitSet) : BitSet :=
  fired.foldl assignMemoryBits bits

theorem length_bitsAfter : ∀ (fired : List (RunRule D)) (bits : BitSet),
    (bitsAfter fired bits).data.length = bits.data.length
  | [], _ => rfl
  | rule :: fired, bits =>
      (length_bitsAfter fired _).trans (length_assignMemoryBits bits rule)

/-- Location `l` is one an update misses: it is the largest id, begins a chunk,
and either gets without having been initialised, or puts while its bit is
set. -/
structure Missed (d : TypelessProtoDef) (actions : List ActionDef) (bits : BitSet) (l : LocId) :
    Prop where
  last : l = maxLocId d
  begins : l % 64 = 0
  memory : isMemLoc d.locKinds l = true
  notSelf : ¬ putsToItself actions l
  why : (∃ a ∈ actions, l ∈ a.getters) ∧ d.locKinds.lookup l ≠ some .memInitialized ∨
    (∃ a ∈ actions, l = a.putter) ∧ bits.test l = true

section Update

variable {P : Proto D} {b b' : Build D} {s : ProtoAll D}

/-- The memory bits have a chunk for a location iff the padding reaches it or
an initialised cell does. -/
theorem lt_length_memoryBits (hfin : (finish P).run b = .ok s b') (k : Nat) :
    k < s.w.memoryBits.data.length ↔
      k < BitSet.lenNeededForCapacity (maxLocId P.typelessProtoDef) ∨
        ∃ l, P.typelessProtoDef.locKinds.lookup l = some .memInitialized ∧ k ≤ l / 64 := by
  have hfill := lt_length_fromIter (k := k)
    (idsOfKind P.typelessProtoDef.locKinds (· == .memInitialized))
  have hmem : (∃ i ∈ idsOfKind P.typelessProtoDef.locKinds (· == .memInitialized), k ≤ i / 64) ↔
      ∃ l, P.typelessProtoDef.locKinds.lookup l = some .memInitialized ∧ k ≤ l / 64 := by
    constructor
    · rintro ⟨l, hl, hk⟩
      obtain ⟨kind, hkind, hinit⟩ := mem_idsOfKind.1 hl
      exact ⟨l, by rw [hkind, eq_of_beq hinit], hk⟩
    · rintro ⟨l, hl, hk⟩
      exact ⟨l, mem_idsOfKind.2 ⟨_, hl, rfl⟩, hk⟩
  rw [(built_of_finish hfin).memoryBits, BitSet.padTrailingZeroesToCapacity,
    BitSet.length_padTrailingZeroes, ← hmem, ← hfill]
  omega

/-- Within the padding every location has its chunk in every vector. -/
theorem lt_lenNeededForCapacity {d : TypelessProtoDef} {l : LocId} (hle : l ≤ maxLocId d)
    (h : ¬ (l = maxLocId d ∧ l % 64 = 0)) :
    l / 64 < BitSet.lenNeededForCapacity (maxLocId d) := by
  rw [BitSet.lenNeededForCapacity, BitSet.bitsPerChunk]
  split <;> grind

/-- Ids below one that begins a chunk are in earlier chunks. -/
theorem chunk_lt_of_begins {j l : Nat} (h : j < l) (hl : l % 64 = 0) : j / 64 < l / 64 := by omega

theorem le_maxLocId_of_isMemLoc {d : TypelessProtoDef} {l : LocId}
    (h : isMemLoc d.locKinds l = true) : l ≤ maxLocId d := by
  rw [isMemLoc, Option.any_eq_true] at h
  obtain ⟨k, hk, -⟩ := h
  exact le_maxLocId hk

/-- In a well-formed rule what gets does not put, unless it puts to itself. -/
theorem WellFormedRule.not_putter_of_getter {locKinds : HashMap LocId LocKind}
    {typeAt : LocId → Option TypeId} {actions : List ActionDef}
    (h : WellFormedRule locKinds typeAt actions) {l : LocId} (hself : ¬ putsToItself actions l)
    (hget : ∃ a ∈ actions, l ∈ a.getters) : ¬ ∃ a ∈ actions, l = a.putter := by
  rintro ⟨b, hb, hlb⟩
  obtain ⟨a, ha, hla⟩ := hget
  obtain rfl := h.eq_of_mentions ha hb (.inr hla) (.inl hlb)
  exact hself ⟨a, ha, hlb, hla⟩

/-- A getter's bit is set iff its chunk is there. -/
theorem assign_getter_iff (hfin : (finish P).run b = .ok s b') {bits : BitSet}
    (hlen : bits.data.length = s.w.memoryBits.data.length) {i : RuleId} {r : RuleDef}
    {run : RunRule D} (hr : P.typelessProtoDef.behaviour.rules[i]? = some r)
    (hrun : s.r.rules[i]? = some run) {l : LocId}
    (hmem : isMemLoc P.typelessProtoDef.locKinds l = true) (hself : ¬ putsToItself r.actions l)
    (hget : ∃ a ∈ r.actions, l ∈ a.getters) :
    (assignMemoryBits bits run).test l = true ↔ ¬ Missed P.typelessProtoDef r.actions bits l := by
  obtain ⟨infos, hs⟩ := (built_of_finish hfin).standing
  have hwf := hs.wellFormed r (List.mem_of_getElem? hr)
  have henc := hs.encodes_at hr hrun
  have hinv : involved r.actions l := by
    obtain ⟨a, ha, hl⟩ := hget
    exact ⟨a, ha, .inr hl⟩
  have hvals := (henc.sets.vals l).2 ⟨hmem, hget, hself⟩
  have hmask := (henc.sets.mask l).2 ⟨hmem, hinv, hself⟩
  have hlong : (assignMemoryBits bits run).test l = true ↔ l / 64 < bits.data.length := by
    constructor
    · intro h
      have := BitSet.lt_length_of_test h
      rwa [length_assignMemoryBits] at this
    · intro h
      rw [test_assignMemoryBits h (BitSet.lt_length_of_test hvals) (BitSet.lt_length_of_test hmask)]
      simp [show run.assignMask.test l = true from hmask,
        show run.assignVals.test l = true from hvals]
  rw [hlong, hlen, lt_length_memoryBits hfin]
  constructor
  · rintro hin hmiss
    have hinit := (hmiss.why.resolve_right fun h =>
      hwf.not_putter_of_getter hself hget h.1).2
    have hcap : BitSet.lenNeededForCapacity (maxLocId P.typelessProtoDef) = l / 64 := by
      rw [← hmiss.last, BitSet.lenNeededForCapacity, BitSet.bitsPerChunk, if_pos hmiss.begins]
    rcases hin with hin | ⟨j, hj, hlj⟩
    · omega
    · -- the cell that has the chunk could only be the largest id itself
      have hle := le_maxLocId hj
      rw [← hmiss.last] at hle
      rcases Nat.lt_or_eq_of_le hle with hlt | rfl
      · exact Nat.not_le_of_lt (chunk_lt_of_begins hlt hmiss.begins) hlj
      · exact hinit hj
  · intro hnot
    by_contra hout
    rw [not_or] at hout
    obtain ⟨hcap, hinit⟩ := hout
    by_cases hlast : l = maxLocId P.typelessProtoDef ∧ l % 64 = 0
    · exact hnot ⟨hlast.1, hlast.2, hmem, hself, .inl ⟨hget, fun h => hinit ⟨l, h, Nat.le_refl _⟩⟩⟩
    · exact hcap (lt_lenNeededForCapacity (le_maxLocId_of_isMemLoc hmem) hlast)

/-- A putter's bit is cleared iff the values have its chunk or it was clear. -/
theorem assign_putter_iff (hfin : (finish P).run b = .ok s b') {bits : BitSet} {i : RuleId}
    {r : RuleDef} {run : RunRule D} (hr : P.typelessProtoDef.behaviour.rules[i]? = some r)
    (hrun : s.r.rules[i]? = some run) {l : LocId}
    (hmem : isMemLoc P.typelessProtoDef.locKinds l = true) (hself : ¬ putsToItself r.actions l)
    (hput : ∃ a ∈ r.actions, l = a.putter) :
    (assignMemoryBits bits run).test l = false ↔ ¬ Missed P.typelessProtoDef r.actions bits l := by
  obtain ⟨infos, hs⟩ := (built_of_finish hfin).standing
  have hwf := hs.wellFormed r (List.mem_of_getElem? hr)
  have henc := hs.encodes_at hr hrun
  have hpad := hs.padded run (List.mem_of_getElem? hrun)
  have hnget : ¬ ∃ a ∈ r.actions, l ∈ a.getters := fun h => hwf.not_putter_of_getter hself h hput
  have hinv : involved r.actions l := by
    obtain ⟨a, ha, hl⟩ := hput
    exact ⟨a, ha, .inl hl⟩
  have hmask : run.assignMask.test l = true := (henc.sets.mask l).2 ⟨hmem, hinv, hself⟩
  have hvals : run.assignVals.test l = false := by
    cases h : run.assignVals.test l with
    | false => rfl
    | true => exact absurd ((henc.sets.vals l).1 h).2.1 hnget
  have hclear : (assignMemoryBits bits run).test l = false ↔
      bits.test l = true → l / 64 < run.assignVals.data.length := by
    by_cases hlong : l / 64 < run.assignVals.data.length
    · refine iff_of_true ?_ fun _ => hlong
      by_cases hbits : l / 64 < bits.data.length
      · rw [test_assignMemoryBits hbits hlong (BitSet.lt_length_of_test hmask), if_pos hmask, hvals]
      · rw [Nat.not_lt] at hbits
        rw [BitSet.test_of_length_le]
        rwa [length_assignMemoryBits]
    · rw [test_assignMemoryBits_of_short (.inl (Nat.le_of_not_lt hlong))]
      simp [hlong]
  rw [hclear]
  constructor
  · intro hin hmiss
    have hset := (hmiss.why.resolve_left fun h => hnget h.1).2
    refine absurd (hin hset) (Nat.not_lt_of_le (finish_vals hfin ?_ hr hrun ?_))
    · rw [← hmiss.last, BitSet.lenNeededForCapacity, BitSet.bitsPerChunk, if_pos hmiss.begins]
    · intro a ha g hg hgmem
      have hle := le_maxLocId_of_isMemLoc hgmem
      have hne : g ≠ l := by
        rintro rfl
        exact hnget ⟨a, ha, hg⟩
      rw [← hmiss.last] at hle
      exact chunk_lt_of_begins (Nat.lt_of_le_of_ne hle hne) hmiss.begins
  · intro hnot hset
    by_contra hshort
    by_cases hlast : l = maxLocId P.typelessProtoDef ∧ l % 64 = 0
    · exact hnot ⟨hlast.1, hlast.2, hmem, hself, .inr ⟨hput, hset⟩⟩
    · have := lt_lenNeededForCapacity (le_maxLocId_of_isMemLoc hmem) hlast
      exact hshort (Nat.lt_of_lt_of_le this hpad.vals)

/-- Whatever has fired before, firing a rule updates the fullness of every
location iff it does not miss the largest id. -/
theorem fullnessUpdated_iff (P : Proto D) {b b' : Build D} {s : ProtoAll D}
    (hfin : (finish P).run b = .ok s b') (fired : List (RunRule D)) {i : RuleId} {r : RuleDef}
    {run : RunRule D} (hr : P.typelessProtoDef.behaviour.rules[i]? = some r)
    (hrun : s.r.rules[i]? = some run) :
    FullnessUpdated P.typelessProtoDef.locKinds r.actions (bitsAfter fired s.w.memoryBits)
        (assignMemoryBits (bitsAfter fired s.w.memoryBits) run) ↔
      ¬ Missed P.typelessProtoDef r.actions (bitsAfter fired s.w.memoryBits)
        (maxLocId P.typelessProtoDef) := by
  obtain ⟨infos, hs⟩ := (built_of_finish hfin).standing
  have henc := hs.encodes_at hr hrun
  have hlen := length_bitsAfter fired s.w.memoryBits
  have hnot : ∀ l, ¬ Missed P.typelessProtoDef r.actions (bitsAfter fired s.w.memoryBits)
      (maxLocId P.typelessProtoDef) →
        ¬ Missed P.typelessProtoDef r.actions (bitsAfter fired s.w.memoryBits) l := by
    intro l h hmiss
    have hlast := hmiss.last
    subst hlast
    exact h hmiss
  constructor
  · intro h hmiss
    rcases hmiss.why with ⟨hget, -⟩ | ⟨hput, -⟩
    · exact (assign_getter_iff hfin hlen hr hrun hmiss.memory hmiss.notSelf hget).1
        (h.filled _ hmiss.memory hget hmiss.notSelf) hmiss
    · exact (assign_putter_iff hfin hr hrun hmiss.memory hmiss.notSelf hput).1
        (h.emptied _ hmiss.memory hput hmiss.notSelf) hmiss
  · intro hmiss
    constructor
    · intro l hmem hget hself
      exact (assign_getter_iff hfin hlen hr hrun hmem hself hget).2 (hnot l hmiss)
    · intro l hmem hput hself
      exact (assign_putter_iff hfin hr hrun hmem hself hput).2 (hnot l hmiss)
    · intro l hl
      have hmask : run.assignMask.test l = false := by
        cases h : run.assignMask.test l with
        | false => rfl
        | true => exact absurd ((henc.sets.mask l).1 h) hl
      have hvals : run.assignVals.test l = false := by
        cases h : run.assignVals.test l with
        | false => rfl
        | true =>
            obtain ⟨hmem, ⟨a, ha, hg⟩, hself⟩ := (henc.sets.vals l).1 h
            exact absurd ⟨hmem, ⟨a, ha, .inr hg⟩, hself⟩ hl
      exact test_assignMemoryBits_of_clear hmask hvals

end Update

namespace Coordination

variable {P : Proto D} {infos : HashMap TypeId (TypeInfo D)}

/-- The memory bits change by firing alone. -/
theorem Step.memoryBits {s t : Coordination D} {a : Act D} (hs : Standing P infos s.proto)
    (h : Step s a t) : t.proto.w.memoryBits = s.proto.w.memoryBits ∨
      ∃ rule ∈ s.proto.r.rules,
        t.proto.w.memoryBits = assignMemoryBits s.proto.w.memoryBits rule := by
  cases h with
  | offer _ _ | request _ _ | receive _ _ | withdraw _ _ _ | acquire _ _ _ => exact .inl rfl
  | arrive _ _ hrun =>
      rw [run_readySet hs.ungrouped] at hrun
      cases hrun
      exact .inl rfl
  | fire _ _ hrun =>
      have hres := exhaustPass_result hs.ungrouped hs.tempMems
      rw [hrun] at hres
      cases hres with
      | fired hrule _ hfire =>
          exact .inr ⟨_, List.mem_of_getElem? hrule,
            ((keeps_fire _).of_ok (Frame.refl _) hfire).memoryBits⟩
  | leave _ hend hrun =>
      have hres := exhaustPass_result hs.ungrouped hs.tempMems
      rw [hrun] at hres
      cases hres with
      | quiet _ => exact .inl rfl
      | @fired i _ _ _ _ _ => exact absurd rfl (hend i)
  | panic _ hrun =>
      have hres := exhaustPass_result hs.ungrouped hs.tempMems
      rw [hrun] at hres
      cases hres with
      | guardFault _ _ _ => exact .inl rfl
      | fireFault hrule _ hfire =>
          exact .inr ⟨_, List.mem_of_getElem? hrule,
            ((keeps_fire _).of_error (Frame.refl _) hfire).memoryBits⟩
  | finalizePort _ _ hrun =>
      exact .inl ((keeps_finalizePoPu _ _).of_ok (Frame.refl _) hrun).memoryBits
  | finalizeCell _ _ _ hrun =>
      exact .inl ((keeps_finalizeMemo hs.ungrouped _ _).of_ok (Frame.refl _) hrun).memoryBits
  | fault _ _ _ hrun =>
      exact .inl ((keeps_finalizeMemo hs.ungrouped _ _).of_error (Frame.refl _) hrun).memoryBits

/-- In every run the memory bits are those after some firings. -/
theorem reach_memoryBits {s : ProtoAll D} (hs : Standing P infos s) {h : List (Act D)}
    {t : Coordination D} (hrun : Run.Reach Step (start s) h t) :
    ∃ fired : List (RunRule D), (∀ rule ∈ fired, rule ∈ s.r.rules) ∧
      t.proto.w.memoryBits = bitsAfter fired s.w.memoryBits := by
  refine (hrun.preserves (P := fun t => Standing P infos t.proto ∧
    t.proto.r.rules = s.r.rules ∧ ∃ fired : List (RunRule D), (∀ rule ∈ fired, rule ∈ s.r.rules) ∧
      t.proto.w.memoryBits = bitsAfter fired s.w.memoryBits) ⟨hs, rfl, [], by simp, rfl⟩ ?_).2.2
  rintro t u a ⟨ht, hrules, fired, hin, hbits⟩ hstep
  refine ⟨hstep.standing ht, (hstep.rules ht).trans hrules, ?_⟩
  rcases hstep.memoryBits ht with hsame | ⟨rule, hrule, hassign⟩
  · exact ⟨fired, hin, hsame.trans hbits⟩
  · refine ⟨fired ++ [rule], ?_, ?_⟩
    · intro x hx
      rcases List.mem_append.1 hx with hx | hx
      · exact hin x hx
      · obtain rfl := List.mem_singleton.1 hx
        exact hrules ▸ hrule
    · rw [hassign, hbits, bitsAfter, bitsAfter, List.foldl_append]
      rfl

end Coordination

/-! ## A putter and one other location -/

/-- A putter, 0, feeds a location of the given kind, under a guard. -/
def link (kind : LocKind) (guard : Formula) (g : LocId) : Proto Nat where
  typelessProtoDef := ⟨⟨[⟨guard, [⟨0, [g]⟩]⟩]⟩, collectMap [(0, .portPutter), (g, kind)]⟩
  fillMemory := fun _ => none
  defFunc := fun _ => none
  locType := fun _ => some cellInfo

section Link

variable (kind : LocKind) (guard : Formula) {g : LocId}

theorem link_lookup (g l : LocId) :
    (link kind guard g).typelessProtoDef.locKinds.lookup l =
      if l = g then some kind else if l = 0 then some .portPutter else none :=
  lookup_collectMap_pair 0 g l _ _

theorem link_uninitialized (hinit : kind ≠ .memInitialized) :
    Uninitialized (link kind guard g) := by
  intro l
  rw [link_lookup]
  split
  · exact fun h => hinit (Option.some.inj h)
  · split <;> simp

/-- Any location that can get may be fed, and the guard is not looked at
unless it names functions. -/
theorem finish_link (hg : g ≠ 0) (hget : kind.canGet = true) (hinit : kind ≠ .memInitialized)
    (hguard : guard.mentionsFunc = false) :
    ∃ s b, (finish (link kind guard g)).run (.new .empty) = .ok s b := by
  refine (finish_iff_of_uninitialized (link_uninitialized kind guard hinit) (.new .empty)).1.2
    ⟨fun _ _ _ => ⟨cellInfo, rfl⟩, ?_, ?_⟩
  · intro r hr
    obtain rfl := List.mem_singleton.1 hr
    refine ⟨?_, ?_, ?_, ?_⟩
    · intro a ha
      obtain rfl := List.mem_singleton.1 ha
      exact ⟨.portPutter, by rw [link_lookup, if_neg hg.symm, if_pos rfl], rfl⟩
    · intro a ha x hx
      obtain rfl := List.mem_singleton.1 ha
      obtain rfl := List.mem_singleton.1 hx
      exact ⟨kind, by rw [link_lookup, if_pos rfl], hget, rfl⟩
    · intro a ha hself
      obtain rfl := List.mem_singleton.1 ha
      exact absurd (List.mem_singleton.1 hself).symm hg
    · exact List.pairwise_singleton _ _
  · intro r hr
    obtain rfl := List.mem_singleton.1 hr
    exact not_stopsBuild_of_not _ hguard

end Link

/-- Filling cell 1 is seen. -/
theorem fullnessUpdated_link : ∃ s b run,
    (finish (link .memUninitialized .true 1)).run (.new .empty) = .ok s b ∧
      s.r.rules[0]? = some run ∧
      FullnessUpdated (link .memUninitialized .true 1).typelessProtoDef.locKinds [⟨0, [1]⟩]
        s.w.memoryBits (assignMemoryBits s.w.memoryBits run) := by
  obtain ⟨s, b, hfin⟩ :=
    finish_link .memUninitialized .true (g := 1) (by decide) rfl (by decide) rfl
  obtain ⟨infos, hs⟩ := (built_of_finish hfin).standing
  obtain ⟨run, hrun⟩ : ∃ run, s.r.rules[0]? = some run :=
    ⟨_, List.getElem?_eq_getElem (hs.rules.length_eq ▸ Nat.zero_lt_one)⟩
  refine ⟨s, b, run, hfin, hrun, ?_⟩
  refine (fullnessUpdated_iff (link .memUninitialized .true 1) hfin [] (i := 0) rfl hrun).2 ?_
  intro hmiss
  exact absurd hmiss.begins (by decide)

/-- Filling cell 64 is not. -/
theorem not_fullnessUpdated_link : ∃ s b run,
    (finish (link .memUninitialized .true 64)).run (.new .empty) = .ok s b ∧
      s.r.rules[0]? = some run ∧
      ¬ FullnessUpdated (link .memUninitialized .true 64).typelessProtoDef.locKinds [⟨0, [64]⟩]
        s.w.memoryBits (assignMemoryBits s.w.memoryBits run) := by
  obtain ⟨s, b, hfin⟩ := finish_link .memUninitialized .true (g := 64) (by decide) rfl (by decide)
    rfl
  obtain ⟨infos, hs⟩ := (built_of_finish hfin).standing
  obtain ⟨run, hrun⟩ : ∃ run, s.r.rules[0]? = some run :=
    ⟨_, List.getElem?_eq_getElem (hs.rules.length_eq ▸ Nat.zero_lt_one)⟩
  refine ⟨s, b, run, hfin, hrun, ?_⟩
  have hself : ¬ putsToItself [⟨0, [64]⟩] 64 := by
    rintro ⟨a, ha, hput, -⟩
    obtain rfl := List.mem_singleton.1 ha
    cases hput
  have hget : ∃ a ∈ [(⟨0, [64]⟩ : ActionDef)], 64 ∈ a.getters :=
    ⟨_, List.mem_singleton_self _, List.mem_singleton_self _⟩
  have hmem : isMemLoc (link .memUninitialized .true 64).typelessProtoDef.locKinds 64 = true := by
    decide
  intro h
  have hset := h.filled 64 hmem hget hself
  refine (assign_getter_iff hfin rfl (i := 0) rfl hrun hmem hself hget).1 hset ?_
  exact ⟨by decide, by decide, hmem, hself, .inl ⟨hget, by decide⟩⟩

end ReoRs
