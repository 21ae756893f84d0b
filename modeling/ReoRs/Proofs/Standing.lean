import ReoRs.Proofs.Finish
import ReoRs.Proofs.Pass

/-!
# What every run keeps

The parts of an instance no step changes: its rules, the kinds and types of
its spaces, the absence of groups, and the size of its memory bits. `Standing`
says what they are, in terms of the definition the instance was built from,
and that no memory bit was ever set for a port. It holds after `finish`, and
no step of `Coordination` ends it.
-/

namespace ReoRs

variable {D : Type}

/-! ## Bits -/

theorem test_subtractReadiness (ready : BitSet) (rule : RunRule D) (l : LocId) :
    (subtractReadiness ready rule).test l = (ready.test l && !rule.guardReady.test l) := by
  simp only [BitSet.test_eq_mem]
  exact Words.mem_zipInto_andNot _ _ l (by decide)

theorem length_subtractReadiness (ready : BitSet) (rule : RunRule D) :
    (subtractReadiness ready rule).data.length = ready.data.length :=
  Words.length_zipInto _ _ _

theorem length_assignMemoryBits (memory : BitSet) (rule : RunRule D) :
    (assignMemoryBits memory rule).data.length = memory.data.length :=
  Words.length_zipInto _ _ _

/-- Within all three vectors a masked bit is assigned and the others gain what
the values have. -/
theorem test_assignMemoryBits {memory : BitSet} {rule : RunRule D} {l : LocId}
    (hm : l / 64 < memory.data.length) (hv : l / 64 < rule.assignVals.data.length)
    (ha : l / 64 < rule.assignMask.data.length) :
    (assignMemoryBits memory rule).test l =
      if rule.assignMask.test l then rule.assignVals.test l
      else memory.test l || rule.assignVals.test l := by
  have hk : l % 64 < 64 := Nat.mod_lt l (by decide)
  obtain ⟨mv, hmv⟩ : ∃ c, memory.data[l / 64]? = some c := ⟨_, List.getElem?_eq_getElem hm⟩
  obtain ⟨av, hav⟩ : ∃ c, rule.assignVals.data[l / 64]? = some c :=
    ⟨_, List.getElem?_eq_getElem hv⟩
  obtain ⟨am, ham⟩ : ∃ c, rule.assignMask.data[l / 64]? = some c :=
    ⟨_, List.getElem?_eq_getElem ha⟩
  have hzip : (rule.assignVals.data.zip rule.assignMask.data)[l / 64]? = some (av, am) := by
    rw [List.getElem?_zip_eq_some]
    exact ⟨hav, ham⟩
  have hnew : (assignMemoryBits memory rule).data[l / 64]? =
      some ((mv ||| (av ||| am)) &&& (av ||| ~~~ am)) := by
    rw [assignMemoryBits, Words.getElem?_zipInto, hmv, hzip]
    rfl
  simp only [BitSet.test_eq_mem]
  rw [Words.mem_of_getElem? hnew, Words.mem_of_getElem? hmv, Words.mem_of_getElem? hav,
    Words.mem_of_getElem? ham]
  simp only [BitVec.getLsbD_and, BitVec.getLsbD_or, BitVec.getLsbD_not, hk, decide_true,
    Bool.true_and]
  cases mv.getLsbD (l % 64) <;> cases av.getLsbD (l % 64) <;> cases am.getLsbD (l % 64) <;> rfl

/-- Past the end of either mask nothing is assigned. -/
theorem test_assignMemoryBits_of_short {memory : BitSet} {rule : RunRule D} {l : LocId}
    (h : rule.assignVals.data.length ≤ l / 64 ∨ rule.assignMask.data.length ≤ l / 64) :
    (assignMemoryBits memory rule).test l = memory.test l := by
  have hnone : (rule.assignVals.data.zip rule.assignMask.data)[l / 64]? = none := by
    rw [List.getElem?_eq_none_iff, List.length_zip]
    omega
  have hsame : (assignMemoryBits memory rule).data[l / BitSet.bitsPerChunk]? =
      memory.data[l / BitSet.bitsPerChunk]? := by
    rw [BitSet.bitsPerChunk, assignMemoryBits, Words.getElem?_zipInto, hnone]
    cases memory.data[l / 64]? <;> rfl
  rw [BitSet.test, BitSet.test, hsame]

/-- A bit that is set was set before or is one of the values. -/
theorem test_of_test_assignMemoryBits {memory : BitSet} {rule : RunRule D} {l : LocId}
    (h : (assignMemoryBits memory rule).test l = true) :
    memory.test l = true ∨ rule.assignVals.test l = true := by
  have hm : l / 64 < memory.data.length := by
    have := BitSet.lt_length_of_test h
    rwa [length_assignMemoryBits] at this
  by_cases hlen : l / 64 < rule.assignVals.data.length ∧ l / 64 < rule.assignMask.data.length
  · rw [test_assignMemoryBits hm hlen.1 hlen.2] at h
    split at h
    · exact .inr h
    · exact Bool.or_eq_true_iff.1 h
  · left
    rw [not_and_or, Nat.not_lt, Nat.not_lt] at hlen
    rwa [test_assignMemoryBits_of_short hlen] at h

/-! ## Shapes -/

/-- The shape of a location's space, by its kind. -/
inductive ShapeAt (P : Proto D) (infos : HashMap TypeId (TypeInfo D)) (l : LocId) :
    Space.Shape D → Prop where
  | unused (hk : P.typelessProtoDef.locKinds.lookup l = none) : ShapeAt P infos l .unused
  | putter {info : TypeInfo D} (hk : P.typelessProtoDef.locKinds.lookup l = some .portPutter)
      (hinfo : InfoAt P infos l info) : ShapeAt P infos l (.poPu info)
  | getter (hk : P.typelessProtoDef.locKinds.lookup l = some .portGetter) :
      ShapeAt P infos l .poGe
  | cell {info : TypeInfo D} {k : LocKind} (hk : P.typelessProtoDef.locKinds.lookup l = some k)
      (hmem : k.isMem = true) (hinfo : InfoAt P infos l info) : ShapeAt P infos l (.memo info)

theorem SpaceAt.shapeAt {P : Proto D} {infos : HashMap TypeId (TypeInfo D)} {l : LocId}
    {sp : Space D} (h : SpaceAt P infos l sp) : ShapeAt P infos l sp.shape := by
  cases h with
  | unused hk => exact .unused hk
  | putter hk hinfo => exact .putter hk hinfo
  | getter hk => exact .getter hk
  | filled hk hinfo => exact .cell hk rfl hinfo
  | empty hk hinfo => exact .cell hk rfl hinfo

/-- Every space is of its location's kind and type, whatever is in it. -/
def Shaped (P : Proto D) (infos : HashMap TypeId (TypeInfo D)) (s : ProtoAll D) : Prop :=
  List.Forall₂ (ShapeAt P infos) (List.range (maxLocId P.typelessProtoDef + 1)) s.shapes

namespace Shaped

variable {P : Proto D} {infos : HashMap TypeId (TypeInfo D)} {s t : ProtoAll D}

theorem congr (h : Shaped P infos s) (hshapes : t.shapes = s.shapes) : Shaped P infos t := by
  rw [Shaped, hshapes]
  exact h

/-- The shape of a space is that of its location. -/
theorem shapeAt (h : Shaped P infos s) {l : LocId} {sp : Space D}
    (hl : s.getSpace l = some sp) : ShapeAt P infos l sp.shape := by
  have hlen := List.Forall₂.length_eq h
  have hshape : s.shapes[l]? = some sp.shape := by
    rw [ProtoAll.shapes, List.getElem?_map]
    show (s.getSpace l).map Space.shape = _
    rw [hl]
    rfl
  obtain ⟨hi, hget⟩ := List.getElem?_eq_some_iff.1 hshape
  have := List.Forall₂.get h (hlen ▸ hi) hi
  simpa [hget] using this

theorem exists_space (h : Shaped P infos s) {l : LocId} {k : LocKind}
    (hk : P.typelessProtoDef.locKinds.lookup l = some k) : ∃ sp, s.getSpace l = some sp := by
  have hlen := List.Forall₂.length_eq h
  rw [List.length_range] at hlen
  have hlt : l < s.r.spaces.length := by
    have := le_maxLocId hk
    rw [ProtoAll.shapes, List.length_map] at hlen
    exact hlen ▸ Nat.lt_succ_of_le this
  exact ⟨_, List.getElem?_eq_getElem hlt⟩

theorem isPutter (h : Shaped P infos s) {l : LocId}
    (hk : P.typelessProtoDef.locKinds.lookup l = some .portPutter) :
    ∃ p b, s.getSpace l = some (.poPu p b) ∧ InfoAt P infos l p.typeInfo := by
  obtain ⟨sp, hsp⟩ := h.exists_space hk
  have hshape := h.shapeAt hsp
  cases sp with
  | poPu p b =>
      cases hshape with
      | putter _ hinfo => exact ⟨p, b, hsp, hinfo⟩
  | poGe b =>
      cases hshape with
      | getter hk' => cases hk.symm.trans hk'
  | memo p =>
      cases hshape with
      | cell hk' hmem _ =>
          cases hk.symm.trans hk'
          cases hmem
  | temp p => cases hshape
  | unused =>
      cases hshape with
      | unused hk' => cases hk.symm.trans hk'

theorem isGetter (h : Shaped P infos s) {l : LocId}
    (hk : P.typelessProtoDef.locKinds.lookup l = some .portGetter) :
    ∃ b, s.getSpace l = some (.poGe b) := by
  obtain ⟨sp, hsp⟩ := h.exists_space hk
  have hshape := h.shapeAt hsp
  cases sp with
  | poPu p b =>
      cases hshape with
      | putter hk' _ => cases hk.symm.trans hk'
  | poGe b => exact ⟨b, hsp⟩
  | memo p =>
      cases hshape with
      | cell hk' hmem _ =>
          cases hk.symm.trans hk'
          cases hmem
  | temp p => cases hshape
  | unused =>
      cases hshape with
      | unused hk' => cases hk.symm.trans hk'

theorem isCell (h : Shaped P infos s) {l : LocId}
    (hmem : isMemLoc P.typelessProtoDef.locKinds l = true) :
    ∃ p, s.getSpace l = some (.memo p) ∧ InfoAt P infos l p.typeInfo := by
  cases hk : P.typelessProtoDef.locKinds.lookup l with
  | none =>
      rw [isMemLoc, hk] at hmem
      cases hmem
  | some k =>
      rw [isMemLoc_of_lookup hk] at hmem
      obtain ⟨sp, hsp⟩ := h.exists_space hk
      have hshape := h.shapeAt hsp
      cases sp with
      | poPu p b =>
          cases hshape with
          | putter hk' _ =>
              cases hk.symm.trans hk'
              cases hmem
      | poGe b =>
          cases hshape with
          | getter hk' =>
              cases hk.symm.trans hk'
              cases hmem
      | memo p =>
          cases hshape with
          | cell _ _ hinfo => exact ⟨p, hsp, hinfo⟩
      | temp p => cases hshape
      | unused =>
          cases hshape with
          | unused hk' => cases hk.symm.trans hk'

/-- A space is a cell only at a memory location. -/
theorem isMemLoc_of_memo (h : Shaped P infos s) {l : LocId} {p : PutterSpace D}
    (hl : s.getSpace l = some (.memo p)) : isMemLoc P.typelessProtoDef.locKinds l = true := by
  have hshape := h.shapeAt hl
  cases hshape with
  | cell hk hmem _ => rw [isMemLoc_of_lookup hk, hmem]

theorem lookup_of_poPu (h : Shaped P infos s) {l : LocId} {p : PutterSpace D}
    {b : MsgDropbox} (hl : s.getSpace l = some (.poPu p b)) :
    P.typelessProtoDef.locKinds.lookup l = some .portPutter := by
  have hshape := h.shapeAt hl
  cases hshape with
  | putter hk _ => exact hk

theorem lookup_of_poGe (h : Shaped P infos s) {l : LocId} {b : MsgDropbox}
    (hl : s.getSpace l = some (.poGe b)) :
    P.typelessProtoDef.locKinds.lookup l = some .portGetter := by
  have hshape := h.shapeAt hl
  cases hshape with
  | getter hk => exact hk

end Shaped

/-- A later state of the same instance: no operation changes the rules or the
kinds of the spaces, or takes chunks from the memory bits. -/
structure SameInstance (s t : ProtoAll D) : Prop where
  rules : t.r.rules = s.r.rules
  shapes : t.shapes = s.shapes
  capacity : s.w.memoryBits.data.length ≤ t.w.memoryBits.data.length

theorem SameInstance.refl (s : ProtoAll D) : SameInstance s s := ⟨rfl, rfl, Nat.le_refl _⟩

theorem SameInstance.trans {s t u : ProtoAll D} (h : SameInstance s t) (k : SameInstance t u) :
    SameInstance s u :=
  ⟨k.rules.trans h.rules, k.shapes.trans h.shapes, Nat.le_trans h.capacity k.capacity⟩

theorem Frame.sameInstance {s t : ProtoAll D} (h : Frame s t) : SameInstance s t :=
  ⟨h.rules, h.shapes, Nat.le_of_eq (congrArg (·.data.length) h.memoryBits).symm⟩

theorem sameInstance_prepare (s : ProtoAll D) (rule : RunRule D) :
    SameInstance s (s.prepare rule) :=
  ⟨rfl, rfl, Nat.le_of_eq (length_assignMemoryBits _ rule).symm⟩

/-- What no run changes. -/
structure Standing (P : Proto D) (infos : HashMap TypeId (TypeInfo D)) (s : ProtoAll D) :
    Prop where
  shapes : List.Forall₂ (ShapeAt P infos) (List.range (maxLocId P.typelessProtoDef + 1)) s.shapes
  wellFormed : ∀ r ∈ P.typelessProtoDef.behaviour.rules,
    WellFormedRule P.typelessProtoDef.locKinds P.typeAt r.actions
  rules : List.Forall₂ (Encodes P.typelessProtoDef.locKinds)
    P.typelessProtoDef.behaviour.rules s.r.rules
  padded : ∀ rule ∈ s.r.rules, Padded (maxLocId P.typelessProtoDef) rule
  ungrouped : s.Ungrouped
  bits : ∀ l, s.w.memoryBits.test l = true → isMemLoc P.typelessProtoDef.locKinds l = true
  capacity : BitSet.lenNeededForCapacity (maxLocId P.typelessProtoDef) ≤
    s.w.memoryBits.data.length

theorem Built.standing {P : Proto D} {initMems : HashMap LocId Ptr} {s : ProtoAll D}
    (h : Built P initMems s) : ∃ infos, Standing P infos s := by
  obtain ⟨infos, hspaces⟩ := h.spaces
  refine ⟨infos, ?_, h.wellFormed, h.rules, h.padded,
    ⟨h.commitment, h.readyTentative, h.awaitingStates⟩, ?_, ?_⟩
  · rw [ProtoAll.shapes, List.forall₂_map_right_iff]
    exact hspaces.imp fun _ _ hsp => hsp.shapeAt
  · intro l hl
    rw [h.memoryBits, BitSet.test_padTrailingZeroesToCapacity, BitSet.test_fromIter,
      decide_eq_true_iff, mem_idsOfKind] at hl
    obtain ⟨k, hk, hinit⟩ := hl
    rw [isMemLoc_of_lookup hk, eq_of_beq hinit]
    rfl
  · rw [h.memoryBits]
    exact Nat.le_trans (Nat.le_max_right _ _)
      (Nat.le_of_eq (BitSet.length_padTrailingZeroes _ _).symm)

namespace Standing

variable {P : Proto D} {infos : HashMap TypeId (TypeInfo D)} {s t : ProtoAll D}

/-- The rule a run-time rule was compiled from. -/
theorem rule_at (h : Standing P infos s) {i : RuleId} {rule : RunRule D}
    (hrule : s.r.rules[i]? = some rule) :
    ∃ r ∈ P.typelessProtoDef.behaviour.rules, Encodes P.typelessProtoDef.locKinds r rule := by
  have hlen := h.rules.length_eq
  obtain ⟨hi, hget⟩ := List.getElem?_eq_some_iff.1 hrule
  refine ⟨_, List.getElem_mem (hlen ▸ hi), ?_⟩
  have := h.rules.get (hlen ▸ hi) hi
  simpa [hget] using this

theorem encodes_at (h : Standing P infos s) {i : RuleId} {r : RuleDef} {rule : RunRule D}
    (hr : P.typelessProtoDef.behaviour.rules[i]? = some r) (hrule : s.r.rules[i]? = some rule) :
    Encodes P.typelessProtoDef.locKinds r rule := by
  obtain ⟨hi, hgetr⟩ := List.getElem?_eq_some_iff.1 hr
  obtain ⟨hi', hget⟩ := List.getElem?_eq_some_iff.1 hrule
  have := h.rules.get hi hi'
  simpa [hget, hgetr] using this

theorem tempMems (h : Standing P infos s) : ∀ rule ∈ s.r.rules, rule.tempMems = [] := by
  intro rule hrule
  obtain ⟨i, hi⟩ := List.getElem?_of_mem hrule
  obtain ⟨r, -, hr⟩ := h.rule_at hi
  exact hr.tempMems

theorem shaped (h : Standing P infos s) : Shaped P infos s := h.shapes

/-! ## Steps -/

/-- Leaving the frame alone keeps it. -/
theorem frame (h : Standing P infos s) (hf : Frame s t) : Standing P infos t where
  shapes := hf.shapes ▸ h.shapes
  wellFormed := h.wellFormed
  rules := hf.rules ▸ h.rules
  padded := hf.rules ▸ h.padded
  ungrouped := hf.ungrouped h.ungrouped
  bits := hf.memoryBits ▸ h.bits
  capacity := hf.memoryBits ▸ h.capacity

theorem prepare (h : Standing P infos s) {i : RuleId} {rule : RunRule D}
    (hrule : s.r.rules[i]? = some rule) : Standing P infos (s.prepare rule) where
  shapes := h.shapes
  wellFormed := h.wellFormed
  rules := h.rules
  padded := h.padded
  ungrouped := ⟨h.ungrouped.commitment, h.ungrouped.readyTentative, h.ungrouped.awaitingStates⟩
  bits := by
    intro l hl
    rcases test_of_test_assignMemoryBits hl with hl | hl
    · exact h.bits l hl
    · obtain ⟨r, -, hr⟩ := h.rule_at hrule
      exact ((hr.sets.vals l).1 hl).1
  capacity := Nat.le_trans h.capacity (Nat.le_of_eq (length_assignMemoryBits _ rule).symm)

/-- A pass that fires keeps it. -/
theorem fire (h : Standing P infos s) {i : RuleId} {rule : RunRule D}
    (hrule : s.r.rules[i]? = some rule) (hfire : rule.fire.run (s.prepare rule) = .ok () t) :
    Standing P infos t :=
  (h.prepare hrule).frame ((keeps_fire rule).of_ok (Frame.refl _) hfire)

end Standing

/-! ## Runs -/

theorem frame_offer (s : ProtoAll D) (p : LocId) (v : Datum D) : Frame s (s.offer p v) :=
  { Frame.refl s with shapes := ProtoAll.shapes_setPtr _ p _ }

theorem frame_endCall (s : ProtoAll D) (p : LocId) : Frame s (s.endCall p) :=
  { Frame.refl s with }

/-- A getting call has nothing in its frame. -/
theorem endCall_setDropbox_of_getter {s : ProtoAll D} {p : LocId} {b : MsgDropbox}
    (h : s.getSpace p = some (.poGe b)) (m : Option Nat) :
    (s.setDropbox p m).endCall p = s.setDropbox p m := by
  rw [ProtoAll.endCall, ProtoAll.getSpace_setDropbox, if_pos rfl, h]
  rfl

/-- The other frames stay. -/
theorem read_endCall_ne (s : ProtoAll D) {p : LocId} {q : Ptr} (h : q ≠ .stack p) :
    (s.endCall p).heap.read q = s.heap.read q := by
  rw [ProtoAll.endCall]
  split
  · exact Heap.read_write_ne _ _ h
  · rfl

theorem dropped_endCall (s : ProtoAll D) (p : LocId) :
    (s.endCall p).heap.dropped = s.heap.dropped := by
  rw [ProtoAll.endCall]
  split <;> rfl

theorem keeps_finalizeMemo {s : ProtoAll D} (hs : s.Ungrouped) (id : LocId) (moved : Bool) :
    Effect.Keeps (Frame s) (finalizeMemo (D := D) id moved) := by
  refine (keeps_makeEmpty _ id).bind fun _ t ht => ?_
  rw [run_readySet (ht.ungrouped hs)]
  exact ht.setReady id true

theorem keeps_finalizePoPu {s : ProtoAll D} (id : LocId) (moved : Bool) :
    Effect.Keeps (Frame s) (finalizePoPu (D := D) id moved) := keeps_send id _

namespace Coordination

variable {P : Proto D} {infos : HashMap TypeId (TypeInfo D)}

theorem Acquiring.shape {sp sp' : Space D} (h : Acquiring sp sp') : sp'.shape = sp.shape := by
  obtain ⟨p, p', hp, rfl, hinfo, -⟩ := h.sameKind
  cases sp with
  | poPu q b =>
      cases hp
      simp [Space.mapPutter, Space.shape, hinfo]
  | memo q =>
      cases hp
      simp [Space.mapPutter, Space.shape, hinfo]
  | temp q =>
      cases hp
      simp [Space.mapPutter, Space.shape, hinfo]
  | poGe b => cases hp
  | unused => cases hp

/-- Every step keeps what stands. -/
theorem Step.standing {s t : Coordination D} {a : Act D} (hs : Standing P infos s.proto)
    (h : Step s a t) : Standing P infos t.proto := by
  cases h with
  | offer _ _ => exact hs.frame (frame_offer _ _ _)
  | request _ _ => exact hs
  | arrive _ _ hrun =>
      rw [run_readySet hs.ungrouped] at hrun
      cases hrun
      exact hs.frame ((Frame.refl _).setReady _ _)
  | fire _ hrule hrun =>
      have hres := exhaustPass_result hs.ungrouped hs.tempMems
      rw [hrun] at hres
      cases hres with
      | fired hrule' _ hfire => exact hs.fire hrule' hfire
  | leave _ hend hrun =>
      have hres := exhaustPass_result hs.ungrouped hs.tempMems
      rw [hrun] at hres
      cases hres with
      | quiet _ => exact hs
      | @fired i _ _ _ _ _ => exact absurd rfl (hend i)
  | panic _ hrun =>
      have hres := exhaustPass_result hs.ungrouped hs.tempMems
      rw [hrun] at hres
      cases hres with
      | guardFault _ _ _ => exact hs
      | fireFault hrule _ hfire =>
          exact (hs.prepare hrule).frame ((keeps_fire _).of_error (Frame.refl _) hfire)
  | receive _ _ => exact hs.frame (((Frame.refl _).setDropbox _ _).trans (frame_endCall _ _))
  | withdraw _ _ _ => exact hs.frame (((Frame.refl _).setReady _ _).trans (frame_endCall _ _))
  | acquire _ hspace hacq =>
      refine hs.frame { Frame.refl s.proto with shapes := ProtoAll.shapes_mapSpace_of ?_ }
      intro sp hsp
      cases hspace.symm.trans hsp
      exact hacq.shape
  | finalizePort _ _ hrun => exact hs.frame ((keeps_finalizePoPu _ _).of_ok (Frame.refl _) hrun)
  | finalizeCell _ _ _ hrun =>
      exact hs.frame ((keeps_finalizeMemo hs.ungrouped _ _).of_ok (Frame.refl _) hrun)
  | fault _ _ _ hrun =>
      exact hs.frame ((keeps_finalizeMemo hs.ungrouped _ _).of_error (Frame.refl _) hrun)

theorem Step.sameInstance {s t : Coordination D} {a : Act D} (hs : Standing P infos s.proto)
    (h : Step s a t) : SameInstance s.proto t.proto := by
  cases h with
  | offer _ _ => exact (frame_offer _ _ _).sameInstance
  | request _ _ => exact .refl _
  | arrive _ _ hrun =>
      rw [run_readySet hs.ungrouped] at hrun
      cases hrun
      exact ((Frame.refl _).setReady _ _).sameInstance
  | fire _ hrule hrun =>
      have hres := exhaustPass_result hs.ungrouped hs.tempMems
      rw [hrun] at hres
      cases hres with
      | @fired _ rule _ _ _ hfire =>
          exact (sameInstance_prepare _ rule).trans
            ((keeps_fire _).of_ok (Frame.refl _) hfire).sameInstance
  | leave _ hend hrun =>
      have hres := exhaustPass_result hs.ungrouped hs.tempMems
      rw [hrun] at hres
      cases hres with
      | quiet _ => exact .refl _
      | @fired i _ _ _ _ _ => exact absurd rfl (hend i)
  | panic _ hrun =>
      have hres := exhaustPass_result hs.ungrouped hs.tempMems
      rw [hrun] at hres
      cases hres with
      | guardFault _ _ _ => exact .refl _
      | @fireFault _ rule _ _ _ _ hfire =>
          exact (sameInstance_prepare _ rule).trans
            ((keeps_fire _).of_error (Frame.refl _) hfire).sameInstance
  | receive _ _ => exact (((Frame.refl _).setDropbox _ _).trans (frame_endCall _ _)).sameInstance
  | withdraw _ _ _ => exact (((Frame.refl _).setReady _ _).trans (frame_endCall _ _)).sameInstance
  | acquire _ hspace hacq =>
      refine Frame.sameInstance
        { Frame.refl s.proto with shapes := ProtoAll.shapes_mapSpace_of ?_ }
      intro sp hsp
      cases hspace.symm.trans hsp
      exact hacq.shape
  | finalizePort _ _ hrun =>
      exact ((keeps_finalizePoPu _ _).of_ok (Frame.refl _) hrun).sameInstance
  | finalizeCell _ _ _ hrun =>
      exact ((keeps_finalizeMemo hs.ungrouped _ _).of_ok (Frame.refl _) hrun).sameInstance
  | fault _ _ _ hrun =>
      exact ((keeps_finalizeMemo hs.ungrouped _ _).of_error (Frame.refl _) hrun).sameInstance

theorem Step.rules {s t : Coordination D} {a : Act D} (hs : Standing P infos s.proto)
    (h : Step s a t) : t.proto.r.rules = s.proto.r.rules := (h.sameInstance hs).rules

theorem reach_standing {s : ProtoAll D} (hs : Standing P infos s) {h : List (Act D)}
    {t : Coordination D} (hrun : Run.Reach Step (start s) h t) : Standing P infos t.proto :=
  hrun.preserves (P := fun t => Standing P infos t.proto) hs fun ht hstep => hstep.standing ht

theorem reach_sameInstance {s : ProtoAll D} (hs : Standing P infos s) {h : List (Act D)}
    {t : Coordination D} (hrun : Run.Reach Step (start s) h t) : SameInstance s t.proto :=
  (hrun.preserves (P := fun t => Standing P infos t.proto ∧ SameInstance s t.proto)
    ⟨hs, .refl s⟩ fun ht hstep =>
      ⟨hstep.standing ht.1, ht.2.trans (hstep.sameInstance ht.1)⟩).2

end Coordination

end ReoRs
