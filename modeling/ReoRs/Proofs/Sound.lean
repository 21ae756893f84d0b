import ReoRs.Proofs.FireRule
import ReoRs.Proofs.IsReady

/-!
# The invariant of the coordinator

`Sound` is what holds between any two steps of `Coordination` as long as rules
fire only when their locations really are as the rule needs them. Location by
location it ties together the readiness bit, the dropbox, the call at the
port and the `finalize` call a putter is still owed; over all cells it is
`Coherent`. None of the coordinator's assertions can fail in such a state.

Whether rules fire rightly is a matter of the memory bits, which are kept
apart in `BitsTrue`. It is they that need small location ids.
-/

namespace ReoRs

variable {D : Type}

open ProtoAll

/-! ## Compiled actions -/

section

variable {locKinds : HashMap LocId LocKind}

/-- The run-time form of an action. -/
def ActionDef.encode (locKinds : HashMap LocId LocKind) (a : ActionDef) : RunAction :=
  encodeAction locKinds a.putter a.getters.eraseDups

theorem ActionDef.mem_mg {a : ActionDef} {g : LocId} :
    g ∈ (a.encode locKinds).mg ↔ g ∈ a.getters ∧ isMemLoc locKinds g = true := by
  rw [encode, encodeAction, List.mem_filter, List.mem_eraseDups]

theorem ActionDef.mem_pg {a : ActionDef} {g : LocId} :
    g ∈ (a.encode locKinds).pg ↔ g ∈ a.getters ∧ isMemLoc locKinds g = false := by
  rw [encode, encodeAction, List.mem_filter, List.mem_eraseDups]
  cases isMemLoc locKinds g <;> simp

theorem ActionDef.mentions_encode {a : ActionDef} {l : LocId} :
    (a.encode locKinds).Mentions l ↔ a.mentions l := by
  rw [RunAction.Mentions, mentions, mem_mg, mem_pg]
  cases isMemLoc locKinds l <;> simp [encode, encodeAction]

theorem Encodes.mem_actions {r : RuleDef} {run : RunRule D} (h : Encodes locKinds r run)
    {x : RunAction} : x ∈ run.actions ↔ ∃ a ∈ r.actions, a.encode locKinds = x := by
  rw [h.actions, List.mem_map]
  rfl

theorem Encodes.involved {r : RuleDef} {run : RunRule D} (h : Encodes locKinds r run)
    {x : RunAction} (hx : x ∈ run.actions) {l : LocId} (hl : x.Mentions l) :
    involved r.actions l := by
  obtain ⟨a, ha, rfl⟩ := h.mem_actions.1 hx
  exact ⟨a, ha, ActionDef.mentions_encode.1 hl⟩

theorem Encodes.apart {typeAt : LocId → Option TypeId} {r : RuleDef} {run : RunRule D}
    (h : Encodes locKinds r run) (hwf : WellFormedRule locKinds typeAt r.actions) :
    run.actions.Pairwise RunAction.Apart := by
  rw [h.actions, List.pairwise_map]
  refine hwf.apart.imp ?_
  intro a b hab l hl
  exact hab l (hl.imp ActionDef.mentions_encode.1 ActionDef.mentions_encode.1)

end

theorem RunAction.eq_of_mentions {acts : List RunAction} (h : acts.Pairwise Apart)
    {a b : RunAction} (ha : a ∈ acts) (hb : b ∈ acts) {l : LocId} (hla : a.Mentions l)
    (hlb : b.Mentions l) : a = b := by
  by_contra hne
  have : Std.Symm Apart := ⟨fun _ _ hxy l hl => hxy l ⟨hl.2, hl.1⟩⟩
  exact h.forall ha hb hne l ⟨hla, hlb⟩

/-- Among actions that are apart a putter has only one. -/
theorem RunAction.countP_putter {acts : List RunAction} (h : acts.Pairwise Apart) {a : RunAction}
    (ha : a ∈ acts) (q : RunAction → Bool) :
    acts.countP (fun b => b.putter == a.putter && q b) = if q a then 1 else 0 := by
  induction acts with
  | nil => cases ha
  | cons b rest ih =>
      obtain ⟨hfirst, hrest⟩ := List.pairwise_cons.1 h
      rw [List.countP_cons]
      rcases List.mem_cons.1 ha with rfl | ha
      · have hzero : rest.countP (fun b => b.putter == a.putter && q b) = 0 := by
          rw [List.countP_eq_zero]
          intro c hc hp
          rw [Bool.and_eq_true, beq_iff_eq] at hp
          exact hfirst c hc a.putter ⟨.inl rfl, .inl hp.1.symm⟩
        rw [hzero, Nat.zero_add, beq_self_eq_true, Bool.true_and]
      · have hne : (b.putter == a.putter && q b) = false := by
          rw [Bool.eq_false_iff]
          intro hp
          rw [Bool.and_eq_true, beq_iff_eq] at hp
          exact hfirst a ha a.putter ⟨.inl hp.1.symm, .inl rfl⟩
        rw [ih hrest ha, hne]
        rfl

/-- A putter is owed for its own action only. -/
theorem RunRule.obligations_putter {rule : RunRule D}
    (h : rule.actions.Pairwise RunAction.Apart) {a : RunAction} (ha : a ∈ rule.actions) :
    rule.obligations a.putter = if a.pg.isEmpty then 0 else 1 := by
  rw [obligations, RunAction.countP_putter h ha]
  cases a.pg <;> rfl

theorem RunRule.obligations_eq_zero {rule : RunRule D} {l : LocId}
    (h : ∀ a ∈ rule.actions, a.putter ≠ l) : rule.obligations l = 0 := by
  rw [obligations, List.countP_eq_zero]
  intro a ha hp
  rw [Bool.and_eq_true, beq_iff_eq] at hp
  exact h a ha hp.1

/-- Descriptors of one type are one descriptor. -/
theorem InfoAt.eq {P : Proto D} {infos : HashMap TypeId (TypeInfo D)} {l l' : LocId}
    {i i' : TypeInfo D} (h : InfoAt P infos l i) (h' : InfoAt P infos l' i')
    (hty : P.typeAt l = P.typeAt l') : i = i' := by
  obtain ⟨j, hj, hij⟩ := h.typeAt
  obtain ⟨j', hj', hij'⟩ := h'.typeAt
  rw [Proto.typeAt, Proto.typeAt, hj, hj'] at hty
  have hid : i.typeId = i'.typeId := hij.trans ((Option.some.inj hty).trans hij'.symm)
  have := h.unique
  rw [hid, h'.unique] at this
  exact (Option.some.inj this).symm

theorem InfoAt.typeAt_eq {P : Proto D} {infos : HashMap TypeId (TypeInfo D)} {l : LocId}
    {i : TypeInfo D} (h : InfoAt P infos l i) : P.typeAt l = some i.typeId := by
  obtain ⟨j, hj, hij⟩ := h.typeAt
  rw [Proto.typeAt, hj, Option.map_some, hij]

/-! ## The class of protocols -/

/-- No action puts to itself. -/
def NoSelfPut (P : Proto D) : Prop :=
  ∀ r ∈ P.typelessProtoDef.behaviour.rules, ∀ a ∈ r.actions, a.putter ∉ a.getters

/-- What goes to several getters can be cloned. -/
def FanOutClones (P : Proto D) : Prop :=
  ∀ r ∈ P.typelessProtoDef.behaviour.rules, ∀ a ∈ r.actions, 2 ≤ a.getters.eraseDups.length →
    ∀ l info, P.locType l = some info → P.typeAt a.putter = some info.typeId →
      ∃ f, info.funcs.clone = .defined f

/-- The locations of a rule are as it needs them: all ready, the cells it
empties full, the cells it fills empty. -/
structure Genuine (locKinds : HashMap LocId LocKind) (s : ProtoAll D)
    (actions : List ActionDef) : Prop where
  ready : ∀ l, involved actions l → s.w.active.ready.test l = true
  full : ∀ a ∈ actions, isMemLoc locKinds a.putter = true → s.held a.putter ≠ none
  empty : ∀ a ∈ actions, ∀ g ∈ a.getters, isMemLoc locKinds g = true → s.held g = none

/-- Wherever a rule would be fired it may be. -/
def Truthful (P : Proto D) (s : ProtoAll D) : Prop :=
  ∀ (i : RuleId) (r : RuleDef) (run : RunRule D),
    P.typelessProtoDef.behaviour.rules[i]? = some r → s.r.rules[i]? = some run →
      Enabled s run → Genuine P.typelessProtoDef.locKinds s r.actions

namespace Coordination

/-! ## The invariant -/

/-- Where the port `p` stands: outside a call; in a call and ready; fired,
with its getters still at work; told. -/
inductive PortStatus (s : Coordination D) (p : LocId) (b : MsgDropbox) : Prop where
  | outside (hcall : s.calls p ≠ .waiting) (hready : s.proto.w.active.ready.test p = false)
      (hbox : b.slot = none) (howed : s.owed p = 0)
  | pending (hcall : s.calls p = .waiting) (hready : s.proto.w.active.ready.test p = true)
      (hbox : b.slot = none) (howed : s.owed p = 0)
  | served (hcall : s.calls p = .waiting) (hready : s.proto.w.active.ready.test p = false)
      (hbox : b.slot = none) (howed : s.owed p = 1)
  | told {m : Nat} (hcall : s.calls p = .waiting) (hready : s.proto.w.active.ready.test p = false)
      (hbox : b.slot = some m) (howed : s.owed p = 0)

/-- Where a cell stands: at rest, or emptied by a firing whose getters are
still at work. -/
inductive CellStatus (s : Coordination D) (l : LocId) (sp : PutterSpace D) : Prop where
  | resting (hready : s.proto.w.active.ready.test l = true) (howed : s.owed l = 0)
  | served (hready : s.proto.w.active.ready.test l = false) (howed : s.owed l = 1)
      (hfull : sp.ptr ≠ .null)

/-- What holds of a location by itself. -/
inductive Located (s : Coordination D) (l : LocId) : Option (Space D) → Prop where
  | putter {sp : PutterSpace D} {b : MsgDropbox} (hstatus : PortStatus s l b)
      (hptr : sp.ptr = .null ∨ sp.ptr = .stack l)
      (hoffer : s.calls l = .entering ∨ s.proto.w.active.ready.test l = true →
        sp.ptr = .stack l ∧ ∃ v, s.proto.heap.read (.stack l) = some v) :
      Located s l (some (.poPu sp b))
  | getter {b : MsgDropbox} (hstatus : PortStatus s l b) (howed : s.owed l = 0) :
      Located s l (some (.poGe b))
  | cell {sp : PutterSpace D} (hcall : s.calls l = .idle) (hstatus : CellStatus s l sp) :
      Located s l (some (.memo sp))
  | nothing {o : Option (Space D)} (hcall : s.calls l = .idle) (ho : o = none ∨ o = some .unused) :
      Located s l o

structure Sound (s : Coordination D) : Prop where
  coherent : Coherent s.proto
  located : ∀ l, Located s l (s.proto.getSpace l)
  lock : s.locked = true → s.proto.w.active.ready.data ≠ []

section

variable {s t : Coordination D} {l : LocId}

theorem Sound.putter (h : Sound s) {sp : PutterSpace D} {b : MsgDropbox}
    (hl : s.proto.getSpace l = some (.poPu sp b)) :
    PortStatus s l b ∧ (sp.ptr = .null ∨ sp.ptr = .stack l) ∧
      (s.calls l = .entering ∨ s.proto.w.active.ready.test l = true →
        sp.ptr = .stack l ∧ ∃ v, s.proto.heap.read (.stack l) = some v) := by
  have := h.located l
  rw [hl] at this
  cases this with
  | putter hstatus hptr hoffer => exact ⟨hstatus, hptr, hoffer⟩
  | nothing _ ho => rcases ho with ho | ho <;> cases ho

/-- No cell points into a caller's frame. -/
theorem Sound.ne_stack_of_held (h : Sound s) {p : LocId} {r : Ptr}
    (hr : s.proto.held l = some r) : r ≠ .stack p := by
  obtain ⟨n, rfl⟩ := h.coherent.isStore hr
  simp

theorem Sound.getter (h : Sound s) {b : MsgDropbox}
    (hl : s.proto.getSpace l = some (.poGe b)) : PortStatus s l b ∧ s.owed l = 0 := by
  have := h.located l
  rw [hl] at this
  cases this with
  | getter hstatus howed => exact ⟨hstatus, howed⟩
  | nothing _ ho => rcases ho with ho | ho <;> cases ho

theorem Sound.cell (h : Sound s) {sp : PutterSpace D}
    (hl : s.proto.getSpace l = some (.memo sp)) : s.calls l = .idle ∧ CellStatus s l sp := by
  have := h.located l
  rw [hl] at this
  cases this with
  | cell hcall hstatus => exact ⟨hcall, hstatus⟩
  | nothing _ ho => rcases ho with ho | ho <;> cases ho

/-- A location in a call is a port. -/
theorem Sound.port (h : Sound s) (hcall : s.calls l ≠ .idle) :
    ∃ b, s.proto.getDropbox l = some b ∧ PortStatus s l b := by
  have hl := h.located l
  rw [getDropbox]
  cases hsp : s.proto.getSpace l with
  | none =>
      rw [hsp] at hl
      cases hl with
      | nothing hidle _ => exact absurd hidle hcall
  | some sp =>
      rw [hsp] at hl
      cases hl with
      | putter hstatus _ _ => exact ⟨_, rfl, hstatus⟩
      | getter hstatus _ => exact ⟨_, rfl, hstatus⟩
      | cell hidle _ => exact absurd hidle hcall
      | nothing hidle _ => exact absurd hidle hcall

theorem Sound.ofDropbox (h : Sound s) {b : MsgDropbox} (hb : s.proto.getDropbox l = some b) :
    PortStatus s l b := by
  rw [getDropbox] at hb
  cases hsp : s.proto.getSpace l with
  | none =>
      rw [hsp] at hb
      cases hb
  | some sp =>
      rw [hsp] at hb
      cases sp with
      | poPu p b' =>
          cases hb
          exact (h.putter hsp).1
      | poGe b' =>
          cases hb
          exact (h.getter hsp).1
      | memo p | temp p | unused => cases hb

/-- A location nothing happened to. -/
theorem Located.congr {o : Option (Space D)} (h : Located s l o) (hcalls : t.calls l = s.calls l)
    (howed : t.owed l = s.owed l)
    (hready : t.proto.w.active.ready.test l = s.proto.w.active.ready.test l)
    (hread : t.proto.heap.read (.stack l) = s.proto.heap.read (.stack l)) : Located t l o := by
  have hport : ∀ {b}, PortStatus s l b → PortStatus t l b := by
    intro b hb
    cases hb with
    | outside h₁ h₂ h₃ h₄ =>
        exact .outside (hcalls ▸ h₁) (hready.trans h₂) h₃ (howed.trans h₄)
    | pending h₁ h₂ h₃ h₄ =>
        exact .pending (hcalls.trans h₁) (hready.trans h₂) h₃ (howed.trans h₄)
    | served h₁ h₂ h₃ h₄ =>
        exact .served (hcalls.trans h₁) (hready.trans h₂) h₃ (howed.trans h₄)
    | told h₁ h₂ h₃ h₄ => exact .told (hcalls.trans h₁) (hready.trans h₂) h₃ (howed.trans h₄)
  cases h with
  | putter hstatus hptr hoffer =>
      refine .putter (hport hstatus) hptr ?_
      rw [hcalls, hready, hread]
      exact hoffer
  | getter hstatus ho => exact .getter (hport hstatus) (howed.trans ho)
  | cell hcall hstatus =>
      refine .cell (hcalls.trans hcall) ?_
      cases hstatus with
      | resting h₁ h₂ => exact .resting (hready.trans h₁) (howed.trans h₂)
      | served h₁ h₂ h₃ => exact .served (hready.trans h₁) (howed.trans h₂) h₃
  | nothing hcall ho => exact .nothing (hcalls.trans hcall) ho

end

/-! ## A rule's actions are ready -/

section Fire

variable {P : Proto D} {infos : HashMap TypeId (TypeInfo D)} {s : Coordination D} {r : RuleDef}
  {run : RunRule D}

theorem ready_prepare (henc : Encodes P.typelessProtoDef.locKinds r run) (q : ProtoAll D)
    (l : LocId) : (q.prepare run).w.active.ready.test l = true ↔
      q.w.active.ready.test l = true ∧ ¬ involved r.actions l := by
  show (subtractReadiness q.w.active.ready run).test l = true ↔ _
  rw [test_subtractReadiness, Bool.and_eq_true, Bool.not_eq_true', Bool.eq_false_iff]
  refine and_congr_right fun _ => not_congr (henc.sets.ready l)

/-- A ready port has an empty dropbox. -/
theorem Sound.dropbox (h : Sound s) {l : LocId} {b : MsgDropbox}
    (hb : s.proto.getDropbox l = some b) (hready : s.proto.w.active.ready.test l = true) :
    b = ⟨none⟩ ∧ s.calls l = .waiting ∧ s.owed l = 0 := by
  cases h.ofDropbox hb with
  | outside _ h₂ _ _ => cases h₂.symm.trans hready
  | pending h₁ _ h₃ h₄ =>
      obtain ⟨slot⟩ := b
      cases h₃
      exact ⟨rfl, h₁, h₄⟩
  | served _ h₂ _ _ => cases h₂.symm.trans hready
  | told _ h₂ _ _ => cases h₂.symm.trans hready

/-- Where the bits of the ready cells are true, a rule whose locations meet what
it asks finds them as it needs them. -/
theorem genuine_of_mayFire {q : ProtoAll D} (hs : Shaped P infos q)
    (hself : ∀ a ∈ r.actions, a.putter ∉ a.getters)
    (hbits : ∀ l sp, q.getSpace l = some (.memo sp) → q.w.active.ready.test l = true →
      (q.w.memoryBits.test l = true ↔ sp.ptr ≠ .null))
    (hmay : MayFire P.typelessProtoDef.locKinds r.actions q.w.memoryBits q.w.active.ready) :
    Genuine P.typelessProtoDef.locKinds q r.actions := by
  refine ⟨fun l hl => (hmay l hl).ready, ?_, ?_⟩
  · intro a ha hmem hnone
    have hmet := hmay a.putter ⟨a, ha, .inl rfl⟩
    obtain ⟨sp, hsp, -⟩ := hs.isCell hmem
    have hfull := (hbits a.putter sp hsp hmet.ready).1 (hmet.full hmem ⟨a, ha, rfl⟩)
    rw [held_of_memo hsp hfull] at hnone
    cases hnone
  · intro a ha g hg hmem
    have hmet := hmay g ⟨a, ha, .inr hg⟩
    have hne : g ≠ a.putter := fun heq => hself a ha (heq ▸ hg)
    have hempty := hmet.empty hmem ⟨a, ha, hg, hne⟩
    cases hheld : q.held g with
    | none => rfl
    | some p =>
        obtain ⟨hnull, sp, hsp, rfl⟩ := held_memo_iff.1 hheld
        rw [(hbits g sp hsp hmet.ready).2 hnull] at hempty
        cases hempty

/-- A ready port is as its caller left it: nothing has been sent to it yet, and
if it is a putter it points at the caller's datum. -/
structure PortsReady (q : ProtoAll D) : Prop where
  dropbox : ∀ l b, q.getDropbox l = some b → q.w.active.ready.test l = true → b = ⟨none⟩
  offer : ∀ l sp b, q.getSpace l = some (.poPu sp b) → q.w.active.ready.test l = true →
    sp.ptr = .stack l ∧ ∃ v, q.heap.read (.stack l) = some v

theorem Sound.portsReady (h : Sound s) : PortsReady s.proto :=
  ⟨fun _ _ hb hready => (h.dropbox hb hready).1,
    fun _ _ _ hsp hready => (h.putter hsp).2.2 (.inr hready)⟩

/-- What a rule finds at its putter. -/
theorem PortsReady.putterReady {q : ProtoAll D} (hs : Shaped P infos q) (hq : Coherent q)
    (h : PortsReady q) (hwf : WellFormedRule P.typelessProtoDef.locKinds P.typeAt r.actions)
    (henc : Encodes P.typelessProtoDef.locKinds r run)
    (hgen : Genuine P.typelessProtoDef.locKinds q r.actions) {a : ActionDef}
    (ha : a ∈ r.actions) : ∃ kind sp v, InfoAt P infos a.putter sp.typeInfo ∧
      q.heap.read sp.ptr = some v ∧ PutterReady (q.prepare run) a.putter sp kind := by
  have hinv : involved r.actions a.putter := ⟨a, ha, .inl rfl⟩
  have hready := hgen.ready a.putter hinv
  obtain ⟨k, hk, hput⟩ := hwf.putters a ha
  cases hmem : k.isMem with
  | false =>
      have hkp : k = .portPutter := by
        cases k with
        | portPutter => rfl
        | portGetter => cases hput
        | memInitialized | memUninitialized => cases hmem
      subst hkp
      obtain ⟨sp, b, hsp, hinfo⟩ := hs.isPutter hk
      have hbox : q.getDropbox a.putter = some b := getDropbox_eq hsp
      obtain rfl := h.dropbox _ _ hbox hready
      obtain ⟨hptr, v, hv⟩ := h.offer _ _ _ hsp hready
      exact ⟨.port, sp, v, hinfo, hptr ▸ hv, hsp, hptr⟩
  | true =>
      have hloc : isMemLoc P.typelessProtoDef.locKinds a.putter = true := by
        rw [isMemLoc_of_lookup hk, hmem]
      obtain ⟨sp, hsp, hinfo⟩ := hs.isCell hloc
      obtain ⟨p, hp⟩ := Option.ne_none_iff_exists'.1 (hgen.full a ha hloc)
      obtain ⟨hnull, sp', hsp', rfl⟩ := held_memo_iff.1 hp
      cases hsp.symm.trans hsp'
      obtain ⟨v, hv⟩ := hq.full a.putter _ hp
      refine ⟨.memory, sp, v, hinfo, hv, hsp, hnull, ?_⟩
      rw [Bool.eq_false_iff]
      intro hcon
      exact ((ready_prepare henc _ _).1 hcon).2 hinv

/-- A rule that may fire finds its actions ready. -/
theorem PortsReady.actionReady {q : ProtoAll D} (hs : Shaped P infos q) (hq : Coherent q)
    (h : PortsReady q) (hwf : WellFormedRule P.typelessProtoDef.locKinds P.typeAt r.actions)
    (henc : Encodes P.typelessProtoDef.locKinds r run)
    (hself : ∀ a ∈ r.actions, a.putter ∉ a.getters)
    (hclone : ∀ a ∈ r.actions, 2 ≤ a.getters.eraseDups.length → ∀ l info,
      P.locType l = some info → P.typeAt a.putter = some info.typeId →
        ∃ f, info.funcs.clone = .defined f)
    (hgen : Genuine P.typelessProtoDef.locKinds q r.actions) {a : ActionDef}
    (ha : a ∈ r.actions) : ∃ kind sp v,
      ActionReady (q.prepare run) (a.encode P.typelessProtoDef.locKinds) kind sp v := by
  obtain ⟨kind, sp, v, hinfo, hv, hput⟩ := h.putterReady hs hq hwf henc hgen ha
  have hnd := nodup_eraseDups a.getters
  refine ⟨kind, sp, v, hput, hv, hnd.filter _, ?_, ?_, hnd.filter _, ?_, ?_⟩
  · exact fun hmem => hself a ha (ActionDef.mem_mg.1 hmem).1
  · intro g hg
    obtain ⟨hga, hgm⟩ := ActionDef.mem_mg.1 hg
    obtain ⟨p, hp, hpinfo⟩ := hs.isCell hgm
    refine ⟨p, hp, ?_, ?_⟩
    · by_contra hnull
      have := hgen.empty a ha g hga hgm
      rw [held_of_memo hp hnull] at this
      cases this
    · obtain ⟨-, -, -, hty⟩ := hwf.getters a ha g hga
      exact hpinfo.eq hinfo hty
  · intro g hg
    obtain ⟨hga, hgm⟩ := ActionDef.mem_pg.1 hg
    obtain ⟨k, hk, hget, -⟩ := hwf.getters a ha g hga
    rw [isMemLoc_of_lookup hk] at hgm
    have hkg : k = .portGetter := by
      cases k with
      | portGetter => rfl
      | portPutter => cases hget
      | memInitialized | memUninitialized => cases hgm
    subst hkg
    obtain ⟨b, hb⟩ := hs.isGetter hk
    have hbox : q.getDropbox g = some b := getDropbox_eq hb
    obtain rfl := h.dropbox _ _ hbox (hgen.ready g ⟨a, ha, .inr hga⟩)
    exact hb
  · intro hk hmg hpg
    obtain ⟨l, hl⟩ := hinfo.declared
    refine hclone a ha ?_ l _ hl hinfo.typeAt_eq
    obtain ⟨m, hm⟩ := List.exists_mem_of_ne_nil _ hmg
    obtain ⟨g, hg⟩ := List.exists_mem_of_ne_nil _ hpg
    have hne : m ≠ g := by
      rintro rfl
      have := (ActionDef.mem_pg.1 hg).2
      rw [(ActionDef.mem_mg.1 hm).2] at this
      cases this
    have hsub : [m, g] ⊆ a.getters.eraseDups := by
      intro x hx
      simp only [List.mem_cons, List.not_mem_nil, or_false] at hx
      rw [List.mem_eraseDups]
      rcases hx with rfl | rfl
      · exact (ActionDef.mem_mg.1 hm).1
      · exact (ActionDef.mem_pg.1 hg).1
    have hpair : [m, g].Nodup := by simp [hne]
    exact (hpair.subperm hsub).length_le

theorem Sound.actionReady (hs : Standing P infos s.proto) (h : Sound s)
    (hr : r ∈ P.typelessProtoDef.behaviour.rules)
    (henc : Encodes P.typelessProtoDef.locKinds r run) (hself : NoSelfPut P)
    (hclone : FanOutClones P) (hgen : Genuine P.typelessProtoDef.locKinds s.proto r.actions)
    {a : ActionDef} (ha : a ∈ r.actions) : ∃ kind sp v,
      ActionReady (s.proto.prepare run) (a.encode P.typelessProtoDef.locKinds) kind sp v :=
  h.portsReady.actionReady hs.shaped h.coherent (hs.wellFormed r hr) henc (hself r hr)
    (hclone r hr) hgen ha

/-- So firing it cannot fail. -/
theorem Sound.fire_ok (hs : Standing P infos s.proto) (h : Sound s)
    (hr : r ∈ P.typelessProtoDef.behaviour.rules)
    (henc : Encodes P.typelessProtoDef.locKinds r run) (hself : NoSelfPut P)
    (hclone : FanOutClones P) (hgen : Genuine P.typelessProtoDef.locKinds s.proto r.actions) :
    ∃ t, run.fire.run (s.proto.prepare run) = .ok () t ∧
      Fired (s.proto.prepare run) run.actions t := by
  refine ReoRs.fire_ok ?_ ?_ (henc.apart (hs.wellFormed r hr))
  · exact h.coherent.congr rfl (fun _ => rfl) rfl rfl
  · intro x hx
    obtain ⟨a, ha, rfl⟩ := henc.mem_actions.1 hx
    exact h.actionReady hs hr henc hself hclone hgen ha

/-! ## After the firing -/

/-- The coordination state a firing of `run` leads to. -/
def afterFire (s : Coordination D) (run : RunRule D) (proto : ProtoAll D) : Coordination D :=
  { s with proto, owed := fun p => s.owed p + run.obligations p }

variable {proto : ProtoAll D}

/-- Only what the rule involves changes its readiness. -/
theorem ready_of_not_involved (henc : Encodes P.typelessProtoDef.locKinds r run)
    (hf : Fired (s.proto.prepare run) run.actions proto) {l : LocId}
    (hl : ¬ involved r.actions l) :
    proto.w.active.ready.test l = s.proto.w.active.ready.test l := by
  rw [Bool.eq_iff_iff, hf.ready, ready_prepare henc]
  constructor
  · rintro (⟨h, -⟩ | ⟨x, hx, hxl⟩)
    · exact h
    · exact absurd (henc.involved hx (hxl.elim (fun h => .inr (.inl h)) fun h => .inl h.1)) hl
  · exact fun h => .inl ⟨h, hl⟩

/-- An action's locations are ready again if they are cells it filled, or the
cell it emptied for good. -/
theorem ready_of_mentions (henc : Encodes P.typelessProtoDef.locKinds r run)
    (hapart : run.actions.Pairwise RunAction.Apart)
    (hf : Fired (s.proto.prepare run) run.actions proto) {x : RunAction} (hx : x ∈ run.actions)
    {l : LocId} (hl : x.Mentions l) : proto.w.active.ready.test l = true ↔
      l ∈ x.mg ∨ l = x.putter ∧ x.pg = [] ∧ ∃ p, s.proto.getSpace l = some (.memo p) := by
  have hinv := henc.involved hx hl
  rw [hf.ready, ready_prepare henc]
  constructor
  · rintro (⟨-, h⟩ | ⟨y, hy, hyl⟩)
    · exact absurd hinv h
    · have hyl' : y.Mentions l := hyl.elim (fun h => .inr (.inl h)) fun h => .inl h.1
      obtain rfl := RunAction.eq_of_mentions hapart hx hy hl hyl'
      exact hyl
  · exact fun h => .inr ⟨x, hx, h⟩

/-- A location that is no putter is owed nothing. -/
theorem obligations_getter (hapart : run.actions.Pairwise RunAction.Apart) {x : RunAction}
    (hx : x ∈ run.actions) {l : LocId} (hl : l ∈ x.mg ∨ l ∈ x.pg) (hne : l ≠ x.putter) :
    run.obligations l = 0 := by
  refine RunRule.obligations_eq_zero fun y hy hyl => hne ?_
  obtain rfl := RunAction.eq_of_mentions hapart hx hy (.inr hl) (.inl hyl.symm)
  exact hyl.symm

/-- The putter of an action that was performed. -/
theorem Sound.located_putter (h : Sound s)
    (hgen : Genuine P.typelessProtoDef.locKinds s.proto r.actions)
    (henc : Encodes P.typelessProtoDef.locKinds r run)
    (hapart : run.actions.Pairwise RunAction.Apart)
    (hf : Fired (s.proto.prepare run) run.actions proto) {x : RunAction} (hx : x ∈ run.actions)
    (hself : x.putter ∉ x.mg) :
    Located (afterFire s run proto) x.putter (proto.getSpace x.putter) := by
  obtain ⟨kind, sp, v, d, ha, hout, -, -⟩ := hf.each x hx
  have hready := ready_of_mentions henc hapart hf hx (l := x.putter) (.inl rfl)
  have howes := RunRule.obligations_putter hapart hx
  have hinv := henc.involved hx (l := x.putter) (.inl rfl)
  have hwas := hgen.ready _ hinv
  have hsp := ha.putter
  rw [hout.putter]
  cases kind with
  | port =>
      rw [RunAction.putterAfter]
      have hsp₁ : s.proto.getSpace x.putter = some (.poPu sp ⟨none⟩) := hsp.1
      have hbox : s.proto.getDropbox x.putter = some ⟨none⟩ := getDropbox_eq hsp₁
      obtain ⟨-, hcall, howed⟩ := h.dropbox hbox hwas
      have hnot : proto.w.active.ready.test x.putter = false := by
        rw [Bool.eq_false_iff]
        intro hcon
        rcases hready.1 hcon with hmg | ⟨-, -, p, hp⟩
        · exact hself hmg
        · cases hsp₁.symm.trans hp
      have hoffer : ∀ q : PutterSpace D, (afterFire s run proto).calls x.putter = .entering ∨
          proto.w.active.ready.test x.putter = true →
            q.ptr = .stack x.putter ∧ ∃ v, proto.heap.read (.stack x.putter) = some v := by
        rintro q (hent | hcon)
        · cases hcall.symm.trans hent
        · cases hnot.symm.trans hcon
      cases hpg : x.pg.isEmpty with
      | true =>
          refine .putter (.told hcall hnot rfl ?_) (.inr hsp.2) (hoffer _)
          show s.owed x.putter + run.obligations x.putter = 0
          rw [howed, howes, hpg]
          rfl
      | false =>
          refine .putter (.served hcall hnot rfl ?_) (.inr hsp.2) (hoffer _)
          show s.owed x.putter + run.obligations x.putter = 1
          rw [howed, howes, hpg]
          rfl
  | memory =>
      rw [RunAction.putterAfter]
      have hsp₁ : s.proto.getSpace x.putter = some (.memo sp) := hsp.1
      obtain ⟨hcall, hstatus⟩ := h.cell hsp₁
      have howed : s.owed x.putter = 0 := by
        cases hstatus with
        | resting _ h₂ => exact h₂
        | served h₁ _ _ => cases h₁.symm.trans hwas
      cases hpg : x.pg.isEmpty with
      | true =>
          refine .cell hcall (.resting (hready.2 (.inr ⟨rfl, List.isEmpty_iff.1 hpg, sp, hsp₁⟩)) ?_)
          show s.owed x.putter + run.obligations x.putter = 0
          rw [howed, howes, hpg]
          rfl
      | false =>
          refine .cell hcall (.served ?_ ?_ hsp.2.1)
          · show proto.w.active.ready.test x.putter = false
            rw [Bool.eq_false_iff]
            intro hcon
            rcases hready.1 hcon with hmg | ⟨-, hnil, -⟩
            · exact hself hmg
            · rw [hnil] at hpg
              cases hpg
          · show s.owed x.putter + run.obligations x.putter = 1
            rw [howed, howes, hpg]
            rfl

/-- A cell the rule filled. -/
theorem Sound.located_cellGetter (h : Sound s)
    (hgen : Genuine P.typelessProtoDef.locKinds s.proto r.actions)
    (henc : Encodes P.typelessProtoDef.locKinds r run)
    (hapart : run.actions.Pairwise RunAction.Apart)
    (hf : Fired (s.proto.prepare run) run.actions proto) {x : RunAction} (hx : x ∈ run.actions)
    {g : LocId} (hg : g ∈ x.mg) (hne : g ≠ x.putter) :
    Located (afterFire s run proto) g (proto.getSpace g) := by
  obtain ⟨kind, sp, v, d, ha, hout, -, -⟩ := hf.each x hx
  obtain ⟨gp, dest, w, hgp, htg, -, -⟩ := hout.cells g hg
  have hinv := henc.involved hx (.inr (.inl hg))
  obtain ⟨hcall, hstatus⟩ := h.cell (show s.proto.getSpace g = some (.memo gp) from hgp)
  have howed : s.owed g = 0 := by
    cases hstatus with
    | resting _ h₂ => exact h₂
    | served h₁ _ _ => cases h₁.symm.trans (hgen.ready g hinv)
  rw [htg]
  refine .cell hcall (.resting ?_ ?_)
  · exact (ready_of_mentions henc hapart hf hx (.inr (.inl hg))).2 (.inl hg)
  · show s.owed g + run.obligations g = 0
    rw [howed, obligations_getter hapart hx (.inl hg) hne]

/-- A port the rule told. -/
theorem Sound.located_portGetter (h : Sound s)
    (hgen : Genuine P.typelessProtoDef.locKinds s.proto r.actions)
    (henc : Encodes P.typelessProtoDef.locKinds r run)
    (hapart : run.actions.Pairwise RunAction.Apart)
    (hf : Fired (s.proto.prepare run) run.actions proto) {x : RunAction} (hx : x ∈ run.actions)
    {g : LocId} (hg : g ∈ x.pg) (hne : g ≠ x.putter) (hnot : g ∉ x.mg) :
    Located (afterFire s run proto) g (proto.getSpace g) := by
  obtain ⟨kind, sp, v, d, ha, hout, -, -⟩ := hf.each x hx
  have hinv := henc.involved hx (.inr (.inr hg))
  have hgp : s.proto.getSpace g = some (.poGe ⟨none⟩) := ha.getters g hg
  have hbox : s.proto.getDropbox g = some ⟨none⟩ := getDropbox_eq hgp
  obtain ⟨-, hcall, howed⟩ := h.dropbox hbox (hgen.ready g hinv)
  have howed' : s.owed g + run.obligations g = 0 := by
    rw [howed, obligations_getter hapart hx (.inr hg) hne]
  rw [hout.getters g hg]
  refine .getter (.told hcall ?_ rfl howed') howed'
  show proto.w.active.ready.test g = false
  rw [Bool.eq_false_iff]
  intro hcon
  rcases (ready_of_mentions henc hapart hf hx (.inr (.inr hg))).1 hcon with hmg | ⟨heq, -⟩
  · exact hnot hmg
  · exact hne heq

/-- A firing keeps the invariant. -/
theorem Sound.fired (hs : Standing P infos s.proto) (h : Sound s)
    (hr : r ∈ P.typelessProtoDef.behaviour.rules)
    (henc : Encodes P.typelessProtoDef.locKinds r run) (hself : NoSelfPut P)
    (hgen : Genuine P.typelessProtoDef.locKinds s.proto r.actions)
    (hf : Fired (s.proto.prepare run) run.actions proto) : Sound (afterFire s run proto) := by
  have hapart := henc.apart (hs.wellFormed r hr)
  refine ⟨hf.coherent, fun l => ?_, ?_⟩
  · by_cases hl : involved r.actions l
    · obtain ⟨a, ha, hal⟩ := hl
      have hx := henc.mem_actions.2 ⟨a, ha, rfl⟩
      have hnot : a.putter ∉ (a.encode P.typelessProtoDef.locKinds).mg :=
        fun hmem => hself r hr a ha (ActionDef.mem_mg.1 hmem).1
      rcases hal with rfl | hal
      · exact h.located_putter hgen henc hapart hf hx hnot
      · have hne : l ≠ a.putter := fun heq => hself r hr a ha (heq ▸ hal)
        cases hmem : isMemLoc P.typelessProtoDef.locKinds l with
        | true =>
            exact h.located_cellGetter hgen henc hapart hf hx (ActionDef.mem_mg.2 ⟨hal, hmem⟩) hne
        | false =>
            refine h.located_portGetter hgen henc hapart hf hx (ActionDef.mem_pg.2 ⟨hal, hmem⟩)
              hne fun hmg => ?_
            have := (ActionDef.mem_mg.1 hmg).2
            rw [hmem] at this
            cases this
    · have hsame := hf.others l fun x hx hxl => hl (henc.involved hx hxl)
      show Located (afterFire s run proto) l (proto.getSpace l)
      rw [hsame]
      refine (h.located l).congr rfl ?_ (ready_of_not_involved henc hf hl) ?_
      · show s.owed l + run.obligations l = s.owed l
        rw [RunRule.obligations_eq_zero, Nat.add_zero]
        rintro x hx rfl
        exact hl (henc.involved hx (.inl rfl))
      · exact hf.read _ (.inl (by simp))
  · intro hlock hnil
    refine h.lock hlock (List.eq_nil_of_length_eq_zero ?_)
    have hlen := hf.frame.readyLength
    rw [show proto.w.active.ready.data = [] from hnil] at hlen
    have hsub : (s.proto.prepare run).w.active.ready.data.length =
        s.proto.w.active.ready.data.length := length_subtractReadiness _ run
    exact Nat.le_zero.1 (hsub ▸ hlen)

end Fire

end Coordination

end ReoRs
