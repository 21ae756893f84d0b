import ReoRs.Proofs.Fullness
import ReoRs.Proofs.SoundSteps

/-!
# Memory coherence

With the largest id between 1 and 63 every bit set is one chunk. Then the
memory bits tell the truth about the cells, rules fire only when they should,
and from the state `finish` builds on, the counts, the storage and the bits
agree in every state of every run.
-/

namespace ReoRs

variable {D : Type}

open ProtoAll

namespace Coordination

variable {P : Proto D} {infos : HashMap TypeId (TypeInfo D)} {s t : Coordination D}

/-! ## The memory bits -/

/-- A cell's bit says that the cell is ready and full. -/
def BitsTrue (s : ProtoAll D) : Prop :=
  ∀ l sp, s.getSpace l = some (.memo sp) →
    (s.w.memoryBits.test l = true ↔ s.w.active.ready.test l = true ∧ sp.ptr ≠ .null)

/-- Nothing changed that the bits are about. -/
theorem BitsTrue.congr {s t : ProtoAll D} (h : BitsTrue s) (hbits : t.w.memoryBits = s.w.memoryBits)
    (hcells : ∀ l sp', t.getSpace l = some (.memo sp') → ∃ sp, s.getSpace l = some (.memo sp) ∧
      (t.w.active.ready.test l = true ∧ sp'.ptr ≠ .null ↔
        s.w.active.ready.test l = true ∧ sp.ptr ≠ .null)) : BitsTrue t := by
  intro l sp' hl
  obtain ⟨sp, hsp, hiff⟩ := hcells l sp' hl
  rw [hbits, h l sp hsp, hiff]

/-- Bits within the reach of the vectors are assigned as the rule says. -/
theorem test_assign (hs : Standing P infos s.proto) (hpos : 1 ≤ maxLocId P.typelessProtoDef)
    (hle : maxLocId P.typelessProtoDef ≤ 63) {i : RuleId} {run : RunRule D}
    (hrule : s.proto.r.rules[i]? = some run) {l : LocId} (hl : l ≤ maxLocId P.typelessProtoDef) :
    (assignMemoryBits s.proto.w.memoryBits run).test l =
      if run.assignMask.test l then run.assignVals.test l
      else s.proto.w.memoryBits.test l || run.assignVals.test l := by
  have hneed := BitSet.lenNeededForCapacity_eq_one hpos hle
  have hpad := hs.padded run (List.mem_of_getElem? hrule)
  have hcap := hs.capacity
  have hvals := hpad.vals
  have hmask := hpad.mask
  rw [hneed] at hcap hvals hmask
  have hdiv : l / 64 = 0 := Nat.div_eq_of_lt (Nat.lt_succ_of_le (Nat.le_trans hl hle))
  refine test_assignMemoryBits ?_ ?_ ?_ <;> rw [hdiv] <;> assumption

/-- A firing keeps the bits true. -/
theorem BitsTrue.fired (hs : Standing P infos s.proto) (h : BitsTrue s.proto)
    (hself : NoSelfPut P) (hpos : 1 ≤ maxLocId P.typelessProtoDef)
    (hle : maxLocId P.typelessProtoDef ≤ 63) {i : RuleId} {r : RuleDef} {run : RunRule D}
    (hr : P.typelessProtoDef.behaviour.rules[i]? = some r)
    (hrule : s.proto.r.rules[i]? = some run)
    (henc : Encodes P.typelessProtoDef.locKinds r run) {proto : ProtoAll D}
    (hf : Fired (s.proto.prepare run) run.actions proto) : BitsTrue proto := by
  have hwf := hs.wellFormed r (List.mem_of_getElem? hr)
  have hapart := henc.apart hwf
  have hs' : Standing P infos proto := (hs.prepare hrule).frame hf.frame
  intro l sp' hl'
  have hmem := hs'.shaped.isMemLoc_of_memo hl'
  obtain ⟨sp, hl, -⟩ := hs.shaped.isCell hmem
  have hlmax : l ≤ maxLocId P.typelessProtoDef := by
    cases hk : P.typelessProtoDef.locKinds.lookup l with
    | none =>
        rw [isMemLoc, hk] at hmem
        cases hmem
    | some k => exact le_maxLocId hk
  have hbits : proto.w.memoryBits.test l =
      if run.assignMask.test l then run.assignVals.test l
      else s.proto.w.memoryBits.test l || run.assignVals.test l := by
    rw [hf.frame.memoryBits]
    exact test_assign hs hpos hle hrule hlmax
  by_cases hinv : involved r.actions l
  · -- an involved cell is emptied or filled
    have hnoself : ¬ putsToItself r.actions l := by
      rintro ⟨a, ha, rfl, hg⟩
      exact hself r (List.mem_of_getElem? hr) a ha hg
    rw [hbits, if_pos ((henc.sets.mask l).2 ⟨hmem, hinv, hnoself⟩), henc.sets.vals]
    obtain ⟨a, ha, hal⟩ := hinv
    have hx := henc.mem_actions.2 ⟨a, ha, rfl⟩
    obtain ⟨kind, q, v, d, hready, hout, -, -⟩ := hf.each _ hx
    have hmentions : (a.encode P.typelessProtoDef.locKinds).Mentions l :=
      ActionDef.mentions_encode.2 hal
    rcases hal with rfl | hal
    · have hnot : ¬ ∃ b ∈ r.actions, a.putter ∈ b.getters := by
        rintro ⟨b, hb, hg⟩
        obtain rfl := hwf.eq_of_mentions ha hb (.inl rfl) (.inr hg)
        exact hself r (List.mem_of_getElem? hr) a ha hg
      refine iff_of_false (fun hcon => hnot hcon.2.1) ?_
      rintro ⟨hcon, hfull⟩
      rcases (ready_of_mentions henc hapart hf hx hmentions).1 hcon with hmg | ⟨-, hnil, -⟩
      · exact hnot ⟨a, ha, (ActionDef.mem_mg.1 hmg).1⟩
      · have hput := hready.putter
        have hspace : proto.getSpace a.putter =
            some ((a.encode P.typelessProtoDef.locKinds).putterAfter kind q d) := hout.putter
        cases kind with
        | port =>
            have hport : s.proto.getSpace a.putter = some (.poPu q ⟨none⟩) := hput.1
            cases hl.symm.trans hport
        | memory =>
            rw [RunAction.putterAfter, hnil] at hspace
            cases hl'.symm.trans hspace
            exact hfull rfl
    · have hmg : l ∈ (a.encode P.typelessProtoDef.locKinds).mg := ActionDef.mem_mg.2 ⟨hal, hmem⟩
      refine iff_of_true ⟨hmem, ⟨a, ha, hal⟩, hnoself⟩ ⟨?_, ?_⟩
      · exact (ready_of_mentions henc hapart hf hx hmentions).2 (.inl hmg)
      · obtain ⟨gp, dest, w, -, htg, hdest, -⟩ := hout.cells l hmg
        cases hl'.symm.trans htg
        exact hdest
  · have hmask : run.assignMask.test l = false := by
      rw [Bool.eq_false_iff]
      exact fun hcon => hinv ((henc.sets.mask l).1 hcon).2.1
    have hvals : run.assignVals.test l = false := by
      rw [Bool.eq_false_iff]
      intro hcon
      obtain ⟨-, ⟨a, ha, hg⟩, -⟩ := (henc.sets.vals l).1 hcon
      exact hinv ⟨a, ha, .inr hg⟩
    rw [hbits, hmask, hvals, Bool.or_false, if_neg (by simp), ready_of_not_involved henc hf hinv]
    have hsame : proto.getSpace l = s.proto.getSpace l :=
      hf.others l fun x hx hxl => hinv (henc.involved hx hxl)
    rw [hsame] at hl'
    exact h l sp' hl'

/-- A port's readiness is no cell's. -/
theorem BitsTrue.setReady_port {s : ProtoAll D} (h : BitsTrue s) {p : LocId} {b : MsgDropbox}
    (hb : s.getDropbox p = some b) (v : Bool) : BitsTrue (s.setReady p v) := by
  refine h.congr rfl fun l sp hl => ⟨sp, hl, ?_⟩
  have hne : l ≠ p := by
    rintro rfl
    have hsp : s.getSpace l = some (.memo sp) := hl
    rw [getDropbox, hsp] at hb
    cases hb
  rw [ready_setReady, if_neg hne]

/-- An update of one location that keeps its cell, if it is one. -/
theorem BitsTrue.mapSpace {s : ProtoAll D} (h : BitsTrue s) {p : LocId} {f : Space D → Space D}
    (hf : ∀ sp, s.getSpace p = some sp → ∀ q', f sp = .memo q' →
      ∃ q, sp = .memo q ∧ q'.ptr = q.ptr) :
    BitsTrue (s.mapSpace p f) := by
  refine h.congr rfl fun l sp' hl => ?_
  by_cases hlp : l = p
  · subst hlp
    rw [getSpace_mapSpace_self, Option.map_eq_some_iff] at hl
    obtain ⟨sp, hsp, heq⟩ := hl
    obtain ⟨q, rfl, hq⟩ := hf sp hsp sp' heq
    exact ⟨q, hsp, by rw [hq]; rfl⟩
  · rw [getSpace_mapSpace_ne s f hlp] at hl
    exact ⟨sp', hl, Iff.rfl⟩

theorem BitsTrue.setDropbox {s : ProtoAll D} (h : BitsTrue s) (p : LocId) (m : Option Nat) :
    BitsTrue (s.setDropbox p m) := by
  refine h.mapSpace fun sp _ q' heq => ?_
  cases sp with
  | memo q =>
      cases heq
      exact ⟨_, rfl, rfl⟩
  | poPu q b | poGe b | temp q | unused => cases heq

/-- Every step keeps the bits true. -/
theorem Step.bitsTrue (hs : Standing P infos s.proto) (hself : NoSelfPut P)
    (hclone : FanOutClones P) (hpos : 1 ≤ maxLocId P.typelessProtoDef)
    (hle : maxLocId P.typelessProtoDef ≤ 63) (hsound : Sound s)
    (htrue : s.locked = true → Truthful P s.proto) (h : BitsTrue s.proto) {a : Act D}
    (hstep : Step s a t) : BitsTrue t.proto := by
  cases hstep with
  | @offer p _ _ v _ hspace =>
      have hheap : BitsTrue { s.proto with heap := s.proto.heap.write (.stack p) (some v) } := h
      refine BitsTrue.mapSpace hheap fun sp hsp q' heq => ?_
      cases hspace.symm.trans hsp
      cases heq
  | request _ _ => exact h
  | @arrive p _ _ hcall _ hrun =>
      rw [run_readySet hs.ungrouped] at hrun
      cases hrun
      obtain ⟨b, hb, -⟩ := hsound.port (l := p) (by rw [hcall]; simp)
      exact h.setReady_port hb true
  | fire hlock hrule hrun =>
      have hpass := hsound.pass hs hself hclone (htrue hlock)
      rw [hrun] at hpass
      cases hpass with
      | fired hr hrule' henc _ _ hf => exact h.fired hs hself hpos hle hr hrule' henc hf
  | leave hlock hend hrun =>
      have hpass := hsound.pass hs hself hclone (htrue hlock)
      rw [hrun] at hpass
      cases hpass with
      | quiet => exact h
      | @fired i _ _ _ _ _ _ _ _ _ => exact absurd rfl (hend i)
  | panic hlock hrun =>
      have hpass := hsound.pass hs hself hclone (htrue hlock)
      rw [hrun] at hpass
      cases hpass with
      | guardFault _ _ => exact h
  | @receive p _ _ _ => exact h.setDropbox p none
  | @withdraw p hcall _ _ =>
      obtain ⟨b, hb, -⟩ := hsound.port (l := p) (by rw [hcall]; simp)
      exact h.setReady_port hb false
  | @acquire _ space _ _ hspace hacq =>
      obtain ⟨q, q', hq, rfl, -, hptr⟩ := hacq.sameKind
      refine h.mapSpace fun sp hsp p' heq => ?_
      cases hspace.symm.trans hsp
      cases space with
      | memo p =>
          cases hq
          cases heq
          rcases hptr with hptr | ⟨-, b, hb⟩
          · exact ⟨_, rfl, hptr⟩
          · cases hb
      | poPu p b | poGe b | temp p | unused => cases heq
  | finalizePort _ _ hrun =>
      obtain rfl := ok_of_send hrun
      exact h.setDropbox _ _
  | @finalizeCell p moved _ sp _ howed _ hspace hrun =>
      obtain ⟨v, u, -, hran, hemptied, -, -⟩ := hsound.finalizeMemo_ok hs howed hspace moved
      cases hran.symm.trans hrun
      refine h.congr hemptied.frame.memoryBits fun l sp' hl => ?_
      have hl' : u.getSpace l = some (.memo sp') := hl
      by_cases hlp : l = p
      · subst hlp
        cases hemptied.cell.symm.trans hl'
        refine ⟨sp, hspace, iff_of_false (fun hcon => hcon.2 rfl) ?_⟩
        rintro ⟨hcon, -⟩
        cases (hsound.cell hspace).2 with
        | resting _ h₂ => exact absurd h₂ (Nat.pos_iff_ne_zero.1 howed)
        | served h₁ _ _ => cases h₁.symm.trans hcon
      · rw [hemptied.others l hlp] at hl'
        refine ⟨sp', hl', ?_⟩
        show (u.setReady p true).w.active.ready.test l = true ∧ _ ↔ _
        rw [ready_setReady, if_neg hlp, hemptied.ready, decide_eq_false hlp, Bool.false_or]
  | @fault p moved _ _ _ howed _ hspace hrun =>
      obtain ⟨v, u, -, hran, -⟩ := hsound.finalizeMemo_ok hs howed hspace moved
      cases hran.symm.trans hrun

/-- With true bits in one chunk, a rule that would be fired may be. -/
theorem truthful_of_bitsTrue (hs : Standing P infos s.proto) (hself : NoSelfPut P)
    (hpos : 1 ≤ maxLocId P.typelessProtoDef) (hle : maxLocId P.typelessProtoDef ≤ 63)
    (h : BitsTrue s.proto) (hready : s.proto.w.active.ready.data ≠ []) :
    Truthful P s.proto := by
  intro i r run hr hrule hen
  have hmay := (hs.isReady_iff_mayFire hpos hle hready hr hrule).1 hen.1
  refine genuine_of_mayFire hs.shaped (hself r (List.mem_of_getElem? hr)) ?_ hmay
  intro l sp hsp hat
  rw [h l sp hsp]
  exact and_iff_right hat

/-! ## From the start -/

section Start

variable {b' : Build D} {s₀ : ProtoAll D} {heap : Heap D}

/-- No cell starts out with a slot. -/
theorem held_start (hun : Uninitialized P) (hfin : (finish P).run (.new heap) = .ok s₀ b')
    (l : LocId) : s₀.held l = none := by
  obtain ⟨infos, hspaces⟩ := (built_of_finish hfin).spaceAt
  cases h : s₀.held l with
  | none => rfl
  | some q =>
      obtain ⟨hnull, p, hp, rfl⟩ := held_memo_iff.1 h
      exact absurd ((hspaces l _ hp).ptr_eq_null hun rfl) hnull

theorem sound_start (hun : Uninitialized P) (hfin : (finish P).run (.new heap) = .ok s₀ b') :
    Sound (start s₀) := by
  have hbuilt := built_of_finish hfin
  obtain ⟨infos, hspaces⟩ := hbuilt.spaceAt
  obtain ⟨hst, -⟩ := (finish_iff_of_uninitialized hun _).2 _ _ hfin
  have hrefs : s₀.w.active.memRefs = ∅ := hbuilt.memRefs
  have hempty : s₀.mem = ⟨∅, s₀.heap⟩ := by rw [ProtoAll.mem, hst]; rfl
  have hheld := held_start hun hfin
  refine ⟨⟨?_, ?_, ?_, ?_, ?_⟩, fun l => ?_, fun hlock => by cases hlock⟩
  · intro q n
    show AList.lookup q s₀.w.active.memRefs = some n ↔ _
    rw [hrefs]
    refine iff_of_false (by simp) ?_
    rintro ⟨hpos, hcard⟩
    have hnone : Sharing.holders (Finset.range s₀.r.spaces.length) s₀.held q = ∅ := by
      refine Finset.eq_empty_of_forall_notMem fun l hl => ?_
      have := (Sharing.mem_holders.1 hl).2
      rw [hheld] at this
      cases this
    rw [← hcard] at hpos
    exact Nat.not_lt_zero _ (Nat.lt_of_lt_of_eq hpos (Finset.card_eq_zero.2 hnone))
  · intro q
    show q ∈ s₀.w.active.storage.owned ↔ _
    rw [hst]
    refine iff_of_false (AList.notMem_empty q) ?_
    rintro ⟨l, hl⟩
    cases (hheld l).symm.trans hl
  · show Storage.Valid s₀.mem
    rw [hempty]
    exact Storage.valid_empty _
  · intro l q hl
    cases (hheld l).symm.trans hl
  · intro l q info hc hq
    have : s₀.held l = some q := held_eq_some.2 ⟨hq, info, hc⟩
    cases (hheld l).symm.trans this
  · show Located (start s₀) l (s₀.getSpace l)
    cases hsp : s₀.getSpace l with
    | none => exact .nothing rfl (.inl rfl)
    | some sp =>
        have hat := hspaces l sp hsp
        have hready := hbuilt.ready_test l
        have hport : ∀ k, P.typelessProtoDef.locKinds.lookup l = some k → k.isMem = false →
            PortStatus (start s₀) l ⟨none⟩ := by
          intro k hk hmem
          rw [isMemLoc_of_lookup hk, hmem] at hready
          exact .outside (by simp [start]) hready rfl rfl
        cases hat with
        | unused _ => exact .nothing rfl (.inr rfl)
        | @putter info hk _ =>
            have hnot : s₀.w.active.ready.test l = false := by
              rw [hready, isMemLoc_of_lookup hk]
              rfl
            refine .putter (hport _ hk rfl) (.inl rfl) ?_
            rintro (hcon | hcon)
            · cases hcon
            · cases hnot.symm.trans hcon
        | getter hk => exact .getter (hport _ hk rfl) rfl
        | filled hk _ => exact absurd hk (hun l)
        | empty hk _ =>
            rw [isMemLoc_of_lookup hk] at hready
            exact .cell rfl (.resting hready rfl)

theorem bitsTrue_start (hun : Uninitialized P) (hfin : (finish P).run (.new heap) = .ok s₀ b') :
    BitsTrue s₀ := by
  have hbuilt := built_of_finish hfin
  obtain ⟨infos, hspaces⟩ := hbuilt.spaceAt
  intro l sp hl
  refine iff_of_false ?_ fun hcon => hcon.2 ((hspaces l _ hl).ptr_eq_null hun rfl)
  rw [hbuilt.memoryBits, BitSet.test_padTrailingZeroesToCapacity, BitSet.test_fromIter,
    decide_eq_true_iff, mem_idsOfKind]
  rintro ⟨k, hk, hinit⟩
  exact hun l (by rw [hk, eq_of_beq hinit])

/-- In every run of a protocol in one chunk the invariant holds and rules are
fired rightly. -/
theorem reach_sound (hun : Uninitialized P) (hself : NoSelfPut P) (hclone : FanOutClones P)
    (hpos : 1 ≤ maxLocId P.typelessProtoDef) (hle : maxLocId P.typelessProtoDef ≤ 63)
    (hfin : (finish P).run (.new heap) = .ok s₀ b') {h : List (Act D)}
    (hrun : Run.Reach Step (start s₀) h t) : ∃ infos, Standing P infos t.proto ∧ Sound t ∧
      BitsTrue t.proto ∧ (t.locked = true → Truthful P t.proto) := by
  obtain ⟨infos, hs⟩ := (built_of_finish hfin).standing
  have hstanding : ∀ {h u}, Run.Reach Step (start s₀) h u → Standing P infos u.proto :=
    fun hu => reach_standing hs hu
  have hinv : Sound t ∧ BitsTrue t.proto := by
    refine hrun.invariant (P := fun _ u => Sound u ∧ BitsTrue u.proto)
      ⟨sound_start hun hfin, bitsTrue_start hun hfin⟩ ?_
    intro h u a v hu hprev hstep
    have hsu := hstanding hu
    have htrue : u.locked = true → Truthful P u.proto := fun hlock =>
      truthful_of_bitsTrue hsu hself hpos hle hprev.2 (hprev.1.lock hlock)
    exact ⟨(hstep.sound hsu hself hclone hprev.1 htrue).1,
      hstep.bitsTrue hsu hself hclone hpos hle hprev.1 htrue hprev.2⟩
  exact ⟨infos, hstanding hrun, hinv.1, hinv.2, fun hlock =>
    truthful_of_bitsTrue (hstanding hrun) hself hpos hle hinv.2 (hinv.1.lock hlock)⟩

end Start

/-! ## Coherence -/

/-- Counts, storage and bits agree with the pointers in the cells; `held l` is
the pointer in the cell `l`, if it is a cell and the pointer is not null. -/
structure MemoryCoherent (P : Proto D) (s : ProtoAll D) : Prop where
  counts : ∀ q n, s.w.active.memRefs.lookup q = some n ↔
    0 < n ∧ ((Finset.range s.r.spaces.length).filter fun l => s.held l = some q).card = n
  owned : ∀ q, q ∈ s.w.active.storage.owned ↔ ∃ l, s.held l = some q
  free : ∀ layout stack, s.w.active.storage.free.lookup layout = some stack →
    ∀ q ∈ stack, ∀ l, s.held l ≠ some q
  bits : ∀ l p, s.getMePu l = some p → s.w.active.ready.test l = true →
    (s.w.memoryBits.test l = true ↔ p.ptr ≠ .null)
  ports : ∀ l, s.w.memoryBits.test l = true → isMemLoc P.typelessProtoDef.locKinds l = true

/-- No assertion of the coordinator fails: a pass can only be stopped by a
guard, which leaves everything as it was, and an owed `finalize` of a cell
returns. -/
structure NeverFails (s : Coordination D) : Prop where
  pass : s.locked = true → ∀ e t, exhaustPass.run s.proto = .error e t → t = s.proto ∧
    ∃ (i : RuleId) (rule : RunRule D), s.proto.r.rules[i]? = some rule ∧
      evalFormula s.proto rule.guardPred = .error e
  finalize : ∀ p sp someoneMoved, 0 < s.owed p → s.proto.getSpace p = some (.memo sp) →
    ∃ t, (finalizeMemo p someoneMoved).run s.proto = .ok true t

/-- After every step of every run of a protocol in one chunk with empty memory
and no action that puts to itself, the memory is coherent, and nothing that is
done to it next can fail. -/
theorem memoryCoherent (P : Proto D) {heap : Heap D} {b : Build D} {s₀ : ProtoAll D}
    (hfin : (finish P).run (.new heap) = .ok s₀ b) (hpos : 1 ≤ maxLocId P.typelessProtoDef)
    (hle : maxLocId P.typelessProtoDef ≤ 63) (hun : Uninitialized P) (hself : NoSelfPut P)
    (hclone : FanOutClones P) {h : List (Act D)} {t : Coordination D}
    (hrun : Run.Reach Step (start s₀) h t) : MemoryCoherent P t.proto ∧ NeverFails t := by
  obtain ⟨infos, hs, hsound, hbits, htrue⟩ :=
    reach_sound hun hself hclone hpos hle hfin hrun
  have hcoh := hsound.coherent
  refine ⟨⟨hcoh.counted, hcoh.owned, ?_, ?_, hs.bits⟩, ⟨?_, ?_⟩⟩
  · intro layout stack hstack q hq l hl
    exact hcoh.valid.free_not_owned layout stack hstack q hq ((hcoh.owned q).2 ⟨l, hl⟩)
  · intro l p hp hready
    rw [hbits l p (getMePu_eq_some.1 hp)]
    exact and_iff_right hready
  · intro hlock e u hfail
    have hpass := hsound.pass hs hself hclone (htrue hlock)
    rw [hfail] at hpass
    cases hpass with
    | guardFault hrule hguard => exact ⟨rfl, _, _, hrule, hguard⟩
  · intro p sp moved howed hspace
    obtain ⟨v, u, -, hran, -⟩ := hsound.finalizeMemo_ok hs howed hspace moved
    exact ⟨_, hran⟩

end Coordination

/-! ## A put into a cell -/

section Link

variable (kind : LocKind) (guard : Formula)

theorem link_noSelfPut {g : LocId} (hg : g ≠ 0) : NoSelfPut (link kind guard g) := by
  intro r hr a ha
  obtain rfl := List.mem_singleton.1 hr
  obtain rfl := List.mem_singleton.1 ha
  exact fun hmem => hg (List.mem_singleton.1 hmem).symm

theorem link_fanOutClones (g : LocId) : FanOutClones (link kind guard g) := by
  intro r hr a ha hlen
  obtain rfl := List.mem_singleton.1 hr
  obtain rfl := List.mem_singleton.1 ha
  exact absurd hlen (by simp [List.eraseDups_cons])

end Link

/-- The first put makes the rule ready, whatever its guard. -/
theorem link_isReady (guard : Formula) {s : ProtoAll Nat} {b b' : Build Nat}
    (hfin : (finish (link .memUninitialized guard 1)).run b = .ok s b') {run : RunRule Nat}
    (hrule : s.r.rules[0]? = some run) :
    isReady s.w.memoryBits (s.w.active.ready.setTo 0 true).1 run = true := by
  have hkinds := link_lookup .memUninitialized guard 1
  have hbuilt := built_of_finish hfin
  obtain ⟨infos, hs⟩ := hbuilt.standing
  have hreadyAt : ∀ l, l = 0 ∨ l = 1 → (s.w.active.ready.setTo 0 true).1.test l = true := by
    intro l hl
    have hcell : (1 : LocId) ∈ idsOfKind
        (link .memUninitialized guard 1).typelessProtoDef.locKinds LocKind.isMem :=
      mem_idsOfKind.2 ⟨.memUninitialized, by rw [hkinds, if_pos rfl], rfl⟩
    rcases hl with rfl | rfl
    · exact BitSet.test_setTo_self _ 0 true
    · rw [BitSet.test_setTo_ne _ _ (by decide), hbuilt.ready, BitSet.test_fromIter]
      exact decide_eq_true hcell
  have hempty : ∀ l, s.w.memoryBits.test l = false := by
    intro l
    rw [hbuilt.memoryBits, BitSet.test_padTrailingZeroesToCapacity, BitSet.test_fromIter,
      decide_eq_false_iff_not, mem_idsOfKind]
    rintro ⟨k, hk, hinit⟩
    rw [hkinds] at hk
    cases eq_of_beq hinit
    split at hk
    · cases hk
    · split at hk <;> cases hk
  have hinv : ∀ l, involved [⟨0, [1]⟩] l → l = 0 ∨ l = 1 := fun l hl => channel_involved hl
  refine (isReady_iff_met (hs.wellFormed _ (List.mem_singleton_self _))
    (hs.encodes_at (i := 0) rfl hrule) hs.bits).2 ?_
  intro l hl _
  refine ⟨hreadyAt l (hinv l hl), ?_, fun _ _ => hempty l⟩
  rintro hmem ⟨a, ha, rfl⟩
  obtain rfl := List.mem_singleton.1 ha
  rw [isMemLoc_of_lookup (k := .portPutter)
    (by rw [hkinds, if_neg (by decide), if_pos rfl])] at hmem
  cases hmem

section LinkPass

variable {infos : HashMap TypeId (TypeInfo Nat)} {c : Coordination Nat}
  (hs : Standing (link .memUninitialized .true 1) infos c.proto) (hsound : Coordination.Sound c)
  (htrue : Truthful (link .memUninitialized .true 1) c.proto)
include hs hsound htrue

/-- A pass fires the one rule if it is ready. -/
theorem link_pass : exhaustPass.run c.proto = .ok .quiet c.proto ∧
      (∀ rule ∈ c.proto.r.rules, isReady c.proto.w.memoryBits c.proto.w.active.ready rule = false) ∨
    ∃ run t, exhaustPass.run c.proto = .ok (.fired 0) t ∧ run.actions = [⟨0, [1], []⟩] ∧
      Fired (c.proto.prepare run) run.actions t := by
  have hguard : ∀ rule ∈ c.proto.r.rules, rule.guardPred = .true := by
    intro rule hrule
    obtain ⟨i, hi⟩ := List.getElem?_of_mem hrule
    obtain ⟨r, hr, henc⟩ := hs.rule_at hi
    obtain rfl := List.mem_singleton.1 hr
    exact henc.guardPred
  have heval : ∀ rule ∈ c.proto.r.rules, evalFormula c.proto rule.guardPred = .ok true := by
    intro rule hrule
    rw [hguard rule hrule]
    rfl
  have hres := exhaustPass_result hs.ungrouped hs.tempMems
  have hpass := hsound.pass hs (link_noSelfPut .memUninitialized .true (by decide))
    (link_fanOutClones .memUninitialized .true 1) htrue
  cases hrun : exhaustPass.run c.proto with
  | ok fin t =>
      rw [hrun] at hres hpass
      cases hpass with
      | quiet =>
          cases hres with
          | quiet hnone =>
              refine .inl ⟨rfl, fun rule hrule => ?_⟩
              rw [← Bool.not_eq_true]
              exact fun hready => hnone rule hrule ⟨hready, heval rule hrule⟩
      | @fired i r run _ hr hrule henc _ _ hf =>
          obtain ⟨hi, hget⟩ := List.getElem?_eq_some_iff.1 hr
          obtain rfl : i = 0 := Nat.lt_one_iff.1 hi
          obtain rfl : (⟨.true, [⟨0, [1]⟩]⟩ : RuleDef) = r := hget
          exact .inr ⟨run, t, rfl, henc.actions.trans (by decide), hf⟩
  | error e t =>
      rw [hrun] at hpass
      cases hpass with
      | guardFault hrule hfail =>
          cases hfail.symm.trans (heval _ (List.mem_of_getElem? hrule))

end LinkPass

/-- Firing it takes the putter's readiness for granted, and tells the putter
that its datum was moved. -/
theorem link_fired {s t : ProtoAll Nat} {run : RunRule Nat} (hacts : run.actions = [⟨0, [1], []⟩])
    (hf : Fired (s.prepare run) run.actions t) {sp : PutterSpace Nat} {b : MsgDropbox}
    (hspace : s.getSpace 0 = some (.poPu sp b)) :
    b = ⟨none⟩ ∧ t.getDropbox 0 = some ⟨some 1⟩ := by
  obtain ⟨kind, sp', v, d, hready, hout, -, -⟩ := hf.each ⟨0, [1], []⟩ (by rw [hacts]; simp)
  cases kind with
  | port =>
      have hwas : s.getSpace 0 = some (.poPu sp' ⟨none⟩) := hready.putter.1
      have hnow : t.getSpace 0 = some (.poPu sp' ⟨some 1⟩) := hout.putter
      cases hspace.symm.trans hwas
      exact ⟨rfl, by rw [ProtoAll.getDropbox, hnow]; rfl⟩
  | memory =>
      have hwas : s.getSpace 0 = some (.memo sp') := hready.putter.1
      cases hspace.symm.trans hwas

/-- The put fills the cell. -/
theorem link_reach_fire : ∃ s b t u,
    (finish (link .memUninitialized .true 1)).run (.new .empty) = .ok s b ∧
    Run.Reach Coordination.Step (.start s) [.arrive 0, .offer 0 (.data 7)] t ∧
    t.locked = true ∧ t.proto.w.active.ready.test 0 = true ∧
    exhaustPass.run t.proto = .ok (.fired 0) u.proto ∧ Coordination.Step t (.fire 0) u := by
  obtain ⟨s, b, hfin⟩ := finish_link .memUninitialized .true (g := 1) (by decide) rfl (by decide)
    rfl
  obtain ⟨infos, hs⟩ := (built_of_finish hfin).standing
  obtain ⟨t, hrun, hlock, hproto⟩ := hs.reach_put (p := 0) (.data 7)
    (by rw [link_lookup, if_neg (by decide), if_pos rfl])
  obtain ⟨infos', ht, hsound, -, htrue⟩ := Coordination.reach_sound
    (link_uninitialized .memUninitialized .true (by decide))
    (link_noSelfPut .memUninitialized .true (by decide))
    (link_fanOutClones .memUninitialized .true 1) (by decide) (by decide) hfin hrun
  obtain ⟨run, hrule⟩ : ∃ run, t.proto.r.rules[0]? = some run :=
    ⟨_, List.getElem?_eq_getElem (ht.rules.length_eq ▸ Nat.zero_lt_one)⟩
  have hready : isReady t.proto.w.memoryBits t.proto.w.active.ready run = true := by
    rw [hproto] at hrule ⊢
    exact link_isReady .true hfin hrule
  have hset : t.proto.w.active.ready.test 0 = true := by
    rw [hproto]
    exact BitSet.test_setTo_self _ 0 true
  rcases link_pass ht hsound (htrue hlock) with ⟨-, hnone⟩ | ⟨run₁, u, hpass, -, -⟩
  · cases (hnone run (List.mem_of_getElem? hrule)).symm.trans hready
  · exact ⟨s, b, t, _, hfin, hrun, hlock, hset, hpass, .fire hlock hrule hpass⟩

/-- It holds after a put has filled a cell. -/
theorem memoryCoherent_link : ∃ s b h t u,
    (finish (link .memUninitialized .true 1)).run (.new .empty) = .ok s b ∧
    Run.Reach Coordination.Step (.start s) h t ∧ Coordination.Step t (.fire 0) u ∧
    Coordination.MemoryCoherent (link .memUninitialized .true 1) u.proto ∧
    Coordination.NeverFails u := by
  obtain ⟨s, b, t, u, hfin, hrun, -, -, -, hfire⟩ := link_reach_fire
  exact ⟨s, b, _, t, u, hfin, hrun, hfire,
    Coordination.memoryCoherent (link .memUninitialized .true 1) hfin (by decide) (by decide)
      (link_uninitialized .memUninitialized .true (by decide))
      (link_noSelfPut .memUninitialized .true (by decide))
      (link_fanOutClones .memUninitialized .true 1) (hrun.tail hfire)⟩

end ReoRs
