import ReoRs.Proofs.Instantiate
import ReoRs.Proofs.Standing

/-!
# What `is_ready` looks at

`is_ready` zips four chunk vectors and so looks at as many chunks as the
shortest has. Within these it decides exactly: bit for bit, every location the
rule involves must be ready and have the memory bit the rule asks for. About
the locations past them it says nothing. `isReady_iff_mayFire_iff` puts the
two together over the runs of a protocol. When every id fits in the first
chunk, nothing is past it (`isReady_iff_mayFire`).
-/

namespace ReoRs

variable {D : Type}

/-! ## Bit by bit -/

/-- The test of one chunk, one bit at a time. -/
theorem chunk_ok_iff (mr mv gr gv : Chunk) :
    ((gr &&& gv) &&& ~~~ (mr &&& mv) ||| (gr &&& ~~~ gv) &&& ~~~ (mr &&& ~~~ mv)) = 0#64 ↔
      ∀ k < 64, gr.getLsbD k = true → mr.getLsbD k = true ∧ mv.getLsbD k = gv.getLsbD k := by
  constructor
  · intro h k hk hg
    have hbit := congrArg (fun c => c.getLsbD k) h
    simp only [BitVec.getLsbD_or, BitVec.getLsbD_and, BitVec.getLsbD_not, hk, decide_true,
      Bool.true_and, hg, BitVec.getLsbD_zero] at hbit
    revert hbit
    cases mr.getLsbD k <;> cases mv.getLsbD k <;> cases gv.getLsbD k <;> simp
  · intro h
    refine BitVec.eq_of_getLsbD_eq fun k hk => ?_
    simp only [BitVec.getLsbD_or, BitVec.getLsbD_and, BitVec.getLsbD_not, hk, decide_true,
      Bool.true_and, BitVec.getLsbD_zero]
    cases hg : gr.getLsbD k with
    | false => simp
    | true =>
        obtain ⟨hr, hv⟩ := h k hk hg
        rw [hr, hv]
        cases gv.getLsbD k <;> simp

theorem isReadyChunks_iff : ∀ (rs ms gs fs : List Chunk),
    isReadyChunks rs ms gs fs = true ↔
      ∀ (n : Nat) (mr mv gr gv : Chunk), rs[n]? = some mr → ms[n]? = some mv → gs[n]? = some gr →
        fs[n]? = some gv →
          ∀ k < 64, gr.getLsbD k = true → mr.getLsbD k = true ∧ mv.getLsbD k = gv.getLsbD k
  | [], _, _, _ => by simp [isReadyChunks]
  | _ :: _, [], _, _ => by simp [isReadyChunks]
  | _ :: _, _ :: _, [], _ => by simp [isReadyChunks]
  | _ :: _, _ :: _, _ :: _, [] => by simp [isReadyChunks]
  | mr :: rs, mv :: ms, gr :: gs, gv :: fs => by
      have hchunk := chunk_ok_iff mr mv gr gv
      rw [isReadyChunks]
      split
      · next hbad =>
          simp only [Bool.false_eq_true, false_iff]
          intro h
          refine absurd ?_ (bne_iff_ne.1 hbad)
          exact hchunk.2 (h 0 mr mv gr gv rfl rfl rfl rfl)
      · next hgood =>
          rw [isReadyChunks_iff rs ms gs fs]
          constructor
          · intro h n mr' mv' gr' gv' h₁ h₂ h₃ h₄
            cases n with
            | zero =>
                cases h₁
                cases h₂
                cases h₃
                cases h₄
                exact hchunk.1 (by simpa using hgood)
            | succ n => exact h n mr' mv' gr' gv' h₁ h₂ h₃ h₄
          · exact fun h n mr' mv' gr' gv' => h (n + 1) mr' mv' gr' gv'

/-- How many chunks the loop of `is_ready` looks at. -/
def seenChunks (memory ready : BitSet) (rule : RunRule D) : Nat :=
  min (min ready.data.length memory.data.length)
    (min rule.guardReady.data.length rule.guardFull.data.length)

/-- `is_ready` is exact about the locations it looks at. -/
theorem isReady_iff (memory ready : BitSet) (rule : RunRule D) :
    isReady memory ready rule = true ↔
      ∀ l, l / 64 < seenChunks memory ready rule → rule.guardReady.test l = true →
        ready.test l = true ∧ memory.test l = rule.guardFull.test l := by
  rw [isReady, isReadyChunks_iff]
  simp only [BitSet.test_eq_mem, seenChunks]
  constructor
  · intro h l hl hg
    have hk : l % 64 < 64 := Nat.mod_lt l (by decide)
    obtain ⟨mr, hmr⟩ : ∃ c, ready.data[l / 64]? = some c := ⟨_, List.getElem?_eq_getElem (by omega)⟩
    obtain ⟨mv, hmv⟩ : ∃ c, memory.data[l / 64]? = some c :=
      ⟨_, List.getElem?_eq_getElem (by omega)⟩
    obtain ⟨gr, hgr⟩ : ∃ c, rule.guardReady.data[l / 64]? = some c :=
      ⟨_, List.getElem?_eq_getElem (by omega)⟩
    obtain ⟨gv, hgv⟩ : ∃ c, rule.guardFull.data[l / 64]? = some c :=
      ⟨_, List.getElem?_eq_getElem (by omega)⟩
    rw [Words.mem_of_getElem? hgr] at hg
    rw [Words.mem_of_getElem? hmr, Words.mem_of_getElem? hmv, Words.mem_of_getElem? hgv]
    exact h (l / 64) mr mv gr gv hmr hmv hgr hgv (l % 64) hk hg
  · intro h n mr mv gr gv hmr hmv hgr hgv k hk hg
    have hdiv : (n * 64 + k) / 64 = n := by omega
    have hmod : (n * 64 + k) % 64 = k := by omega
    have hlt : ∀ {xs : List Chunk} {c : Chunk}, xs[n]? = some c → n < xs.length := fun hx =>
      (List.getElem?_eq_some_iff.1 hx).1
    have hmem : ∀ {xs : List Chunk} {c : Chunk}, xs[n]? = some c →
        Words.mem xs (n * 64 + k) = c.getLsbD k := by
      intro xs c hx
      have := Words.mem_of_getElem? (i := n * 64 + k) (by rw [hdiv]; exact hx)
      rwa [hmod] at this
    have := h (n * 64 + k) (by
      have := hlt hmr
      have := hlt hmv
      have := hlt hgr
      have := hlt hgv
      omega)
    rw [hmem hmr, hmem hmv, hmem hgr, hmem hgv] at this
    exact this hg

/-! ## What a rule asks for -/

section

variable (locKinds : HashMap LocId LocKind) (actions : List ActionDef) (memory ready : BitSet)

/-- A location meets what a rule asks of it: it is ready, and a memory
location that puts is full, one that only gets empty. -/
structure Met (l : LocId) : Prop where
  ready : ready.test l = true
  full : isMemLoc locKinds l = true → (∃ a ∈ actions, l = a.putter) → memory.test l = true
  empty : isMemLoc locKinds l = true → (∃ a ∈ actions, l ∈ a.getters ∧ l ≠ a.putter) →
    memory.test l = false

/-- Every location a rule involves meets what it asks. -/
def MayFire : Prop := ∀ l, involved actions l → Met locKinds actions memory ready l

end

/-- In a well-formed rule a location is mentioned by one action only. -/
theorem WellFormedRule.eq_of_mentions {locKinds : HashMap LocId LocKind}
    {typeAt : LocId → Option TypeId} {actions : List ActionDef}
    (h : WellFormedRule locKinds typeAt actions) {a b : ActionDef} (ha : a ∈ actions)
    (hb : b ∈ actions) {l : LocId} (hla : a.mentions l) (hlb : b.mentions l) : a = b := by
  by_contra hne
  have : Std.Symm fun x y : ActionDef => ∀ l, ¬ (x.mentions l ∧ y.mentions l) :=
    ⟨fun _ _ hxy l hl => hxy l ⟨hl.2, hl.1⟩⟩
  exact h.apart.forall ha hb hne l ⟨hla, hlb⟩

/-- A location meets what a rule asks iff it is ready and its memory bit is
the one in `guard_full`. -/
theorem met_iff {locKinds : HashMap LocId LocKind} {typeAt : LocId → Option TypeId} {r : RuleDef}
    {run : RunRule D} (hwf : WellFormedRule locKinds typeAt r.actions)
    (henc : Encodes locKinds r run) {memory ready : BitSet} {l : LocId}
    (hbits : memory.test l = true → isMemLoc locKinds l = true) (hl : involved r.actions l) :
    Met locKinds r.actions memory ready l ↔
      ready.test l = true ∧ memory.test l = run.guardFull.test l := by
  have hfull := henc.sets.full l
  obtain ⟨a, ha, hal⟩ := hl
  by_cases hput : isMemLoc locKinds l = true ∧ ∃ a ∈ r.actions, l = a.putter
  · rw [show run.guardFull.test l = true from hfull.2 hput]
    constructor
    · exact fun h => ⟨h.ready, h.full hput.1 hput.2⟩
    · rintro ⟨hready, hmem⟩
      refine ⟨hready, fun _ _ => hmem, ?_⟩
      -- the putter of one action is no getter of another
      rintro - ⟨b, hb, hlb, hne⟩
      obtain ⟨c, hc, hlc⟩ := hput.2
      obtain rfl := hwf.eq_of_mentions hb hc (.inr hlb) (.inl hlc)
      exact absurd hlc hne
  · have hnot : run.guardFull.test l = false := by
      cases h : run.guardFull.test l with
      | false => rfl
      | true => exact absurd (hfull.1 h) hput
    rw [hnot]
    constructor
    · intro h
      refine ⟨h.ready, ?_⟩
      cases hmem : isMemLoc locKinds l with
      | false =>
          cases hm : memory.test l with
          | false => rfl
          | true =>
              rw [hbits hm] at hmem
              cases hmem
      | true =>
          have hnp : ∀ b ∈ r.actions, l ≠ b.putter := fun b hb hlb => hput ⟨hmem, b, hb, hlb⟩
          refine h.empty hmem ⟨a, ha, ?_, hnp a ha⟩
          rcases hal with hal | hal
          · exact absurd hal (hnp a ha)
          · exact hal
    · rintro ⟨hready, hmem⟩
      exact ⟨hready, fun h₁ h₂ => absurd ⟨h₁, h₂⟩ hput, fun _ _ => hmem⟩

/-- `is_ready` asks every location within reach to meet what the rule asks. -/
theorem isReady_iff_met {locKinds : HashMap LocId LocKind} {typeAt : LocId → Option TypeId}
    {r : RuleDef} {run : RunRule D} (hwf : WellFormedRule locKinds typeAt r.actions)
    (henc : Encodes locKinds r run) {memory ready : BitSet}
    (hbits : ∀ l, memory.test l = true → isMemLoc locKinds l = true) :
    isReady memory ready run = true ↔
      ∀ l, involved r.actions l → l / 64 < seenChunks memory ready run →
        Met locKinds r.actions memory ready l := by
  rw [isReady_iff]
  constructor
  · intro h l hl hseen
    exact (met_iff hwf henc (hbits l) hl).2 (h l hseen ((henc.sets.ready l).2 hl))
  · intro h l hseen hg
    have hl := (henc.sets.ready l).1 hg
    exact (met_iff hwf henc (hbits l) hl).1 (h l hl hseen)

theorem WellFormedRule.le_maxLocId {d : TypelessProtoDef} {typeAt : LocId → Option TypeId}
    {actions : List ActionDef} (h : WellFormedRule d.locKinds typeAt actions) {l : LocId}
    (hl : involved actions l) : l ≤ maxLocId d := by
  obtain ⟨a, ha, hal⟩ := hl
  rcases hal with rfl | hal
  · obtain ⟨k, hk, -⟩ := h.putters a ha
    exact ReoRs.le_maxLocId hk
  · obtain ⟨k, hk, -⟩ := h.getters a ha l hal
    exact ReoRs.le_maxLocId hk

/-- Out of reach are the locations past the end of the ready vector, none of
which is ready, and the largest id if it is a multiple of 64, for which the
other vectors are padded one chunk short. -/
theorem Standing.out_of_reach {P : Proto D} {infos : HashMap TypeId (TypeInfo D)} {s : ProtoAll D}
    (hs : Standing P infos s) {i : RuleId} {r : RuleDef} {run : RunRule D}
    (hr : P.typelessProtoDef.behaviour.rules[i]? = some r) (hrule : s.r.rules[i]? = some run)
    {l : LocId} (hl : involved r.actions l)
    (hout : seenChunks s.w.memoryBits s.w.active.ready run ≤ l / 64) :
    s.w.active.ready.data.length ≤ l / 64 ∨ l = maxLocId P.typelessProtoDef ∧ l % 64 = 0 := by
  have hpad := hs.padded run (List.mem_of_getElem? hrule)
  have hcap := hs.capacity
  have hreach : l / 64 < run.guardReady.data.length :=
    BitSet.lt_length_of_test (((hs.encodes_at hr hrule).sets.ready l).2 hl)
  have hle := (hs.wellFormed r (List.mem_of_getElem? hr)).le_maxLocId hl
  by_contra hcon
  rw [not_or] at hcon
  obtain ⟨hready, hlast⟩ := hcon
  have hneed : l / 64 < BitSet.lenNeededForCapacity (maxLocId P.typelessProtoDef) := by
    rw [BitSet.lenNeededForCapacity, BitSet.bitsPerChunk]
    split <;> grind
  refine absurd hout (Nat.not_le_of_lt ?_)
  have hfull := hpad.full
  rw [seenChunks]
  refine Nat.lt_min.2 ⟨Nat.lt_min.2 ⟨Nat.lt_of_not_le hready, ?_⟩, Nat.lt_min.2 ⟨hreach, ?_⟩⟩
  · exact Nat.lt_of_lt_of_le hneed hcap
  · exact Nat.lt_of_lt_of_le hneed hfull

/-- In any state of any run, `is_ready` decides a rule rightly iff a location
within its reach misses what the rule asks, or every location out of its reach
happens to meet it. Out of its reach are only locations past the end of the
ready vector and the largest one, if its id is a multiple of 64. -/
theorem isReady_iff_mayFire_iff (P : Proto D) {b b' : Build D} {s : ProtoAll D}
    (hfin : (finish P).run b = .ok s b') {h : List (Coordination.Act D)} {t : Coordination D}
    (hrun : Run.Reach Coordination.Step (.start s) h t) {i : RuleId} {r : RuleDef}
    {run : RunRule D} (hr : P.typelessProtoDef.behaviour.rules[i]? = some r)
    (hrule : t.proto.r.rules[i]? = some run) :
    ((isReady t.proto.w.memoryBits t.proto.w.active.ready run = true ↔
        MayFire P.typelessProtoDef.locKinds r.actions t.proto.w.memoryBits
          t.proto.w.active.ready) ↔
      ((∃ l, involved r.actions l ∧
          l / 64 < seenChunks t.proto.w.memoryBits t.proto.w.active.ready run ∧
          ¬ Met P.typelessProtoDef.locKinds r.actions t.proto.w.memoryBits
            t.proto.w.active.ready l) ∨
        ∀ l, involved r.actions l →
          seenChunks t.proto.w.memoryBits t.proto.w.active.ready run ≤ l / 64 →
          Met P.typelessProtoDef.locKinds r.actions t.proto.w.memoryBits
            t.proto.w.active.ready l)) ∧
      ∀ l, involved r.actions l →
        seenChunks t.proto.w.memoryBits t.proto.w.active.ready run ≤ l / 64 →
        t.proto.w.active.ready.data.length ≤ l / 64 ∨
          l = maxLocId P.typelessProtoDef ∧ l % 64 = 0 := by
  obtain ⟨infos, hs⟩ := (built_of_finish hfin).standing
  have ht := Coordination.reach_standing hs hrun
  have henc := ht.encodes_at hr hrule
  have hwf := ht.wellFormed r (List.mem_of_getElem? hr)
  refine ⟨?_, fun l hl hout => ht.out_of_reach hr hrule hl hout⟩
  rw [isReady_iff_met hwf henc ht.bits]
  constructor
  · intro hiff
    by_cases hseen : ∀ l, involved r.actions l →
        l / 64 < seenChunks t.proto.w.memoryBits t.proto.w.active.ready run →
        Met P.typelessProtoDef.locKinds r.actions t.proto.w.memoryBits
          t.proto.w.active.ready l
    · exact .inr fun l hl _ => hiff.1 hseen l hl
    · left
      simp only [not_forall] at hseen
      obtain ⟨l, hl, hlt, hnot⟩ := hseen
      exact ⟨l, hl, hlt, hnot⟩
  · rintro (⟨l, hl, hlt, hnot⟩ | hrest)
    · exact ⟨fun h => absurd (h l hl hlt) hnot, fun h => absurd (h l hl) hnot⟩
    · refine ⟨fun h l hl => ?_, fun h l hl _ => h l hl⟩
      rcases Nat.lt_or_ge (l / 64) (seenChunks t.proto.w.memoryBits t.proto.w.active.ready run)
        with hlt | hge
      · exact h l hl hlt
      · exact hrest l hl hge

/-- With all ids in the first chunk nothing is out of reach once some location
has been ready. -/
theorem Standing.isReady_iff_mayFire {P : Proto D} {infos : HashMap TypeId (TypeInfo D)}
    {s : ProtoAll D} (hs : Standing P infos s) (hpos : 1 ≤ maxLocId P.typelessProtoDef)
    (hle : maxLocId P.typelessProtoDef ≤ 63) (hready : s.w.active.ready.data ≠ []) {i : RuleId}
    {r : RuleDef} {run : RunRule D} (hr : P.typelessProtoDef.behaviour.rules[i]? = some r)
    (hrule : s.r.rules[i]? = some run) :
    isReady s.w.memoryBits s.w.active.ready run = true ↔
      MayFire P.typelessProtoDef.locKinds r.actions s.w.memoryBits s.w.active.ready := by
  rw [isReady_iff_met (hs.wellFormed r (List.mem_of_getElem? hr)) (hs.encodes_at hr hrule) hs.bits]
  refine ⟨fun h l hl => h l hl ?_, fun h l hl _ => h l hl⟩
  by_contra hout
  rcases hs.out_of_reach hr hrule hl (Nat.le_of_not_lt hout) with hout | ⟨heq, hmod⟩
  · have hlen : 0 < s.w.active.ready.data.length := List.length_pos_iff.2 hready
    have hl63 : l ≤ 63 :=
      Nat.le_trans ((hs.wellFormed r (List.mem_of_getElem? hr)).le_maxLocId hl) hle
    have hdiv : l / 64 = 0 := Nat.div_eq_of_lt (Nat.lt_succ_of_le hl63)
    rw [hdiv] at hout
    exact Nat.not_le_of_lt hlen hout
  · rw [heq] at hmod
    have := Nat.le_of_dvd hpos (Nat.dvd_of_mod_eq_zero hmod)
    exact absurd (Nat.le_trans this hle) (by decide)

/-! ## Two chunks -/

/-- A put at an idle putter, up to where `exhaust_rules` begins. -/
theorem Standing.reach_put {P : Proto D} {infos : HashMap TypeId (TypeInfo D)} {s : ProtoAll D}
    (hs : Standing P infos s) {p : LocId} (v : Datum D)
    (hp : P.typelessProtoDef.locKinds.lookup p = some .portPutter) :
    ∃ t, Run.Reach Coordination.Step (.start s) [.arrive p, .offer p v] t ∧ t.locked = true ∧
      t.proto = (s.offer p v).setReady p true := by
  obtain ⟨sp, b, hsp, -⟩ := hs.shaped.isPutter hp
  have hoffer : Standing P infos (s.offer p v) := hs.frame (frame_offer s p v)
  refine ⟨_, .tail (.single (.offer (v := v) rfl hsp)) (.arrive ?_ rfl
    (run_readySet hoffer.ungrouped p)), rfl, rfl⟩
  exact Function.update_self p _ _

theorem channel_involved {g l : LocId} (h : involved [⟨0, [g]⟩] l) : l = 0 ∨ l = g := by
  obtain ⟨a, ha, hal⟩ := h
  obtain rfl := List.mem_singleton.1 ha
  exact hal.imp id List.mem_singleton.1

/-- The state in which a put at a fresh channel calls `exhaust_rules`: the
putter is ready, and the ready vector has one chunk. -/
theorem channel_reach_put {g : LocId} (hg : g ≠ 0) : ∃ infos s b t run,
    (finish (channel g)).run (.new .empty) = .ok s b ∧
    Run.Reach Coordination.Step (.start s) [.arrive 0, .offer 0 (.data 7)] t ∧
    t.locked = true ∧
    Standing (channel g) infos t.proto ∧ t.proto.r.rules[0]? = some run ∧
    t.proto.w.active.ready = ((∅ : BitSet).setTo 0 true).1 := by
  obtain ⟨s, b, hfin⟩ := finish_channel hg
  have hbuilt := built_of_finish hfin
  obtain ⟨infos, hs⟩ := hbuilt.standing
  obtain ⟨t, hrun, hlock, hproto⟩ := hs.reach_put (p := 0) (.data 7)
    (by rw [channel_lookup, if_neg hg.symm, if_pos rfl])
  have ht := Coordination.reach_standing hs hrun
  obtain ⟨run, hrule⟩ : ∃ run, t.proto.r.rules[0]? = some run :=
    ⟨_, List.getElem?_eq_getElem (ht.rules.length_eq ▸ Nat.zero_lt_one)⟩
  refine ⟨infos, s, b, t, run, hfin, hrun, hlock, ht, hrule, ?_⟩
  have hnone : idsOfKind (channel g).typelessProtoDef.locKinds LocKind.isMem = [] := by
    rw [List.eq_nil_iff_forall_not_mem]
    intro l hl
    obtain ⟨k, hk, hmem⟩ := mem_idsOfKind.1 hl
    rw [channel_lookup] at hk
    split at hk
    · cases hk
      cases hmem
    · split at hk
      · cases hk
        cases hmem
      · cases hk
  have hready : s.w.active.ready = ∅ := by
    rw [hbuilt.ready, hnone]
    rfl
  rw [hproto]
  show (s.w.active.ready.setTo 0 true).1 = _
  rw [hready]

/-- In one chunk the rule of the channel is decided rightly as a put enters. -/
theorem isReady_channel : ∃ s b h t run, (finish (channel 1)).run (.new .empty) = .ok s b ∧
    Run.Reach Coordination.Step (.start s) h t ∧ t.locked = true ∧
    t.proto.r.rules[0]? = some run ∧
    (isReady t.proto.w.memoryBits t.proto.w.active.ready run = true ↔
      MayFire (channel 1).typelessProtoDef.locKinds [⟨0, [1]⟩] t.proto.w.memoryBits
        t.proto.w.active.ready) := by
  obtain ⟨infos, s, b, t, run, hfin, hrun, hlock, ht, hrule, hready⟩ :=
    channel_reach_put (g := 1) (by decide)
  refine ⟨s, b, _, t, run, hfin, hrun, hlock, hrule, ?_⟩
  refine (isReady_iff_mayFire_iff (channel 1) hfin hrun (i := 0) rfl hrule).1.2 (.inr ?_)
  intro l hl hout
  rcases ht.out_of_reach (i := 0) rfl hrule hl hout with hout | ⟨hlast, hmod⟩
  · rw [hready, BitSet.length_setTo_true] at hout
    rcases channel_involved hl with rfl | rfl <;> exact absurd hout (by decide)
  · have hmax : maxLocId (channel 1).typelessProtoDef = 1 := by decide
    rw [hlast, hmax] at hmod
    cases hmod

/-- With the getter at id 64 the rule is taken for ready as soon as the putter
is. -/
theorem not_isReady_farChannel : ∃ s b h t run,
    (finish (channel 64)).run (.new .empty) = .ok s b ∧
    Run.Reach Coordination.Step (.start s) h t ∧ t.locked = true ∧
    t.proto.r.rules[0]? = some run ∧
    ¬ (isReady t.proto.w.memoryBits t.proto.w.active.ready run = true ↔
      MayFire (channel 64).typelessProtoDef.locKinds [⟨0, [64]⟩] t.proto.w.memoryBits
        t.proto.w.active.ready) := by
  obtain ⟨infos, s, b, t, run, hfin, hrun, hlock, ht, hrule, hready⟩ :=
    channel_reach_put (g := 64) (by decide)
  refine ⟨s, b, _, t, run, hfin, hrun, hlock, hrule, ?_⟩
  intro hiff
  have htaken : isReady t.proto.w.memoryBits t.proto.w.active.ready run = true := by
    refine (isReady_iff_met (ht.wellFormed _ (List.mem_singleton_self _))
      (ht.encodes_at (i := 0) rfl hrule) ht.bits).2 ?_
    intro l hl hseen
    have hreach : l / 64 < t.proto.w.active.ready.data.length :=
      Nat.lt_of_lt_of_le hseen (Nat.le_trans (Nat.min_le_left _ _) (Nat.min_le_left _ _))
    rw [hready, BitSet.length_setTo_true] at hreach
    have hnot : isMemLoc (channel 64).typelessProtoDef.locKinds 0 = false := by decide
    rcases channel_involved hl with rfl | rfl
    · refine ⟨by rw [hready, BitSet.test_setTo_self], ?_, ?_⟩ <;>
        · intro hmem
          rw [hnot] at hmem
          cases hmem
    · exact absurd hreach (by decide)
  have hmet := hiff.1 htaken 64 ⟨_, List.mem_singleton_self _, .inr (List.mem_singleton_self _)⟩
  have := hmet.ready
  rw [hready, BitSet.test_setTo_ne _ _ (by decide), BitSet.test_empty] at this
  cases this

end ReoRs
