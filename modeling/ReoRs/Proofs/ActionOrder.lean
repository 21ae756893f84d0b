import ReoRs.Proofs.Coherence
import ReoRs.Proofs.Synchronous

/-!
# The order of the actions

The step a rule takes is said in `Synchronous` without an order, except for the
addresses of what the ports give: these come from the free lists as they are
when an action is performed. So two orders lead to states that are alike once
the slots of the one are given the names they have in the other. What remains
is the permission to move, which a cell that lends to ports grants if at that
moment no other cell has its slot.
-/

namespace ReoRs

variable {D : Type}

open ProtoAll Coordination

/-! ## States that are alike -/

/-- A cell's slot under another name. -/
def Space.renamed (π : Ptr → Ptr) : Space D → Space D
  | .memo p => .memo { p with ptr := π p.ptr }
  | .poPu p b => .poPu p b
  | .poGe b => .poGe b
  | .temp p => .temp p
  | .unused => .unused

/-- The one state is the other with its slots renamed: everything that is
counted, owned, stored or sent is the same. Only a cell that is the putter of
an action may have other move flags. -/
structure Alike (π : Ptr → Ptr) (acts : List RunAction) (t t' : ProtoAll D) : Prop where
  coherent : Coherent t
  coherent' : Coherent t'
  ready : ∀ l, t'.w.active.ready.test l = t.w.active.ready.test l
  spaces : ∀ l, t'.getSpace l = (t.getSpace l).map (Space.renamed π) ∨
    ∃ a ∈ acts, ∃ p flags, a.putter = l ∧ t.getSpace l = some (.memo p) ∧
      t'.getSpace l = some (.memo { p with ptr := π p.ptr, moveFlags := flags })
  null : π .null = .null
  slots : Set.BijOn π {q | q ∈ t.w.active.storage.owned} {q | q ∈ t'.w.active.storage.owned}
  types : ∀ q ∈ t.w.active.storage.owned,
    t'.w.active.storage.owned.lookup (π q) = t.w.active.storage.owned.lookup q
  values : ∀ q ∈ t.w.active.storage.owned, t'.heap.read (π q) = t.heap.read q
  refs : ∀ q ∈ t.w.active.storage.owned,
    t'.w.active.memRefs.lookup (π q) = t.w.active.memRefs.lookup q
  offers : ∀ q, (∀ n, q ≠ .store n) → t'.heap.read q = t.heap.read q
  dropped : t'.heap.dropped.Perm t.heap.dropped

/-- The state decides what an action does. -/
theorem ActionReady.unique {s : ProtoAll D} {a : RunAction} {kind kind' : SourceKind}
    {sp sp' : PutterSpace D} {v v' : Datum D} (h : ActionReady s a kind sp v)
    (h' : ActionReady s a kind' sp' v') : kind = kind' ∧ sp = sp' := by
  have hp := h.putter
  have hp' := h'.putter
  cases kind with
  | port =>
      cases kind' with
      | port =>
          cases hp.1.symm.trans hp'.1
          exact ⟨rfl, rfl⟩
      | memory => cases hp.1.symm.trans hp'.1
  | memory =>
      cases kind' with
      | port => cases hp.1.symm.trans hp'.1
      | memory =>
          cases hp.1.symm.trans hp'.1
          exact ⟨rfl, rfl⟩

/-! ## Two orders -/

section Orders

variable {infos : HashMap TypeId (TypeInfo D)} {s t t' : ProtoAll D} {acts acts' : List RunAction}
  {dest dest' : LocId → Ptr} {π : Ptr → Ptr} {l : LocId}

theorem Settled.names_eq (h : Settled infos s acts dest t) (ht : Coherent t) :
    Slot.name dest '' Renaming.used (slotAfter s acts) =
      {q | q ∈ t.w.active.storage.owned} := by
  rw [Renaming.image_used, ← funext h.held]
  ext q
  exact (ht.owned q).symm

/-- The slots of the one order have their names in the other. -/
structure Renames (π : Ptr → Ptr) (s : ProtoAll D) (acts : List RunAction)
    (dest dest' : LocId → Ptr) : Prop where
  null : π .null = .null
  name : ∀ x ∈ Renaming.used (slotAfter s acts), π (x.name dest) = x.name dest'

/-- The two states after a rule, its actions in one order and in another. -/
structure Reordered (infos : HashMap TypeId (TypeInfo D)) (s : ProtoAll D)
    (acts acts' : List RunAction) (dest dest' : LocId → Ptr) (t t' : ProtoAll D) : Prop where
  perm : acts'.Perm acts
  apart : acts.Pairwise RunAction.Apart
  fired : Fired s acts t
  fired' : Fired s acts' t'
  settled : Settled infos s acts dest t
  settled' : Settled infos s acts' dest' t'

namespace Reordered

variable (h : Reordered infos s acts acts' dest dest' t t')
include h

theorem slotAfter_eq : slotAfter s acts' = slotAfter s acts :=
  funext fun l => slotAfter_perm h.perm h.apart l

theorem exists_renames : ∃ π, Renames π s acts dest dest' ∧
    Set.BijOn π {q | q ∈ t.w.active.storage.owned} {q | q ∈ t'.w.active.storage.owned} := by
  have hinj := h.settled'.apart
  have hnames := h.settled'.names_eq h.fired'.coherent
  rw [h.slotAfter_eq] at hinj hnames
  obtain ⟨π, hbij, hname, hrest⟩ := Renaming.exists_renaming h.settled.apart hinj
  rw [h.settled.names_eq h.fired.coherent] at hbij hrest
  rw [hnames] at hbij
  refine ⟨π, ⟨hrest _ fun hcon => ?_, hname⟩, hbij⟩
  obtain ⟨l, hl⟩ := (h.fired.coherent.owned _).1 hcon
  exact (held_eq_some.1 hl).1 rfl

variable (hπ : Renames π s acts dest dest')
include hπ

theorem held_map (l : LocId) : t'.held l = (t.held l).map π := by
  rw [h.settled.held, h.settled'.held, h.slotAfter_eq]
  cases hx : slotAfter s acts l with
  | none => rfl
  | some x => rw [Option.map_some, Option.map_some, Option.map_some, hπ.name x ⟨l, hx⟩]

theorem ptr_map {p p' : PutterSpace D} (hp : t.getSpace l = some (.memo p))
    (hp' : t'.getSpace l = some (.memo p')) : p'.ptr = π p.ptr := by
  have hheld := h.held_map hπ l
  by_cases hnull : p.ptr = .null
  · rw [hnull, hπ.null]
    by_contra hne
    rw [held_of_memo hp' hne] at hheld
    obtain ⟨q, hq, -⟩ := Option.map_eq_some_iff.1 hheld.symm
    obtain ⟨hqne, sp, hsp, rfl⟩ := held_memo_iff.1 hq
    cases hp.symm.trans hsp
    exact hqne hnull
  · rw [held_of_memo hp hnull, Option.map_some] at hheld
    obtain ⟨-, sp, hsp, hptr⟩ := held_memo_iff.1 hheld
    cases hp'.symm.trans hsp
    exact hptr

/-- A location no action concerns. -/
theorem space_other (hl : ∀ a ∈ acts, ¬ a.Mentions l) :
    t'.getSpace l = (t.getSpace l).map (Space.renamed π) := by
  have ht := h.fired.others l hl
  have ht' := h.fired'.others l fun a ha => hl a (h.perm.mem_iff.1 ha)
  cases hsp : s.getSpace l with
  | none => rw [ht, ht', hsp, Option.map_none]
  | some sp =>
      rw [hsp] at ht ht'
      rw [ht, ht', Option.map_some]
      cases sp with
      | memo p => rw [Space.renamed, ← h.ptr_map hπ ht ht']
      | poPu p b | poGe b | temp p | unused => rfl

/-- The locations of an action. -/
theorem space_of_mentions {a : RunAction} (ha : a ∈ acts) (hl : a.Mentions l) :
    t'.getSpace l = (t.getSpace l).map (Space.renamed π) ∨
      ∃ p flags, a.putter = l ∧ t.getSpace l = some (.memo p) ∧
        t'.getSpace l = some (.memo { p with ptr := π p.ptr, moveFlags := flags }) := by
  obtain ⟨kind, sp, v, d, hready, hout, hport, -⟩ := h.fired.each a ha
  obtain ⟨kind', sp', v', d', hready', hout', hport', -⟩ := h.fired'.each a (h.perm.mem_iff.2 ha)
  obtain ⟨rfl, rfl⟩ := hready.unique hready'
  rcases hl with rfl | hmg | hpg
  · have hput := hout.putter
    have hput' := hout'.putter
    cases kind with
    | port =>
        left
        rw [hput, hput', hport rfl, hport' rfl, RunAction.putterAfter]
        cases a.pg.isEmpty <;> rfl
    | memory =>
        rw [RunAction.putterAfter] at hput hput'
        cases hpg : a.pg.isEmpty with
        | true =>
            left
            rw [hpg] at hput hput'
            rw [hput, hput']
            exact congrArg (fun q => some (Space.memo { sp with ptr := q })) hπ.null.symm
        | false =>
            right
            rw [hpg] at hput hput'
            refine ⟨_, (sp.beginHandOff a.pg.length d').moveFlags, rfl, hput, ?_⟩
            rw [← h.ptr_map hπ hput hput']
            exact hput'
  · left
    obtain ⟨gp, dst, w, hgp, htg, -⟩ := hout.cells l hmg
    obtain ⟨gp', dst', w', hgp', htg', -⟩ := hout'.cells l hmg
    cases hgp.symm.trans hgp'
    have hptr := h.ptr_map hπ htg htg'
    rw [htg, htg', Option.map_some, Space.renamed, ← hptr]
  · left
    rw [hout.getters l hpg, hout'.getters l hpg]
    rfl

theorem spaces (l : LocId) : t'.getSpace l = (t.getSpace l).map (Space.renamed π) ∨
    ∃ a ∈ acts, ∃ p flags, a.putter = l ∧ t.getSpace l = some (.memo p) ∧
      t'.getSpace l = some (.memo { p with ptr := π p.ptr, moveFlags := flags }) := by
  by_cases hl : ∃ a ∈ acts, a.Mentions l
  · obtain ⟨a, ha, hal⟩ := hl
    exact (h.space_of_mentions hπ ha hal).imp id fun hp => ⟨a, ha, hp⟩
  · exact .inl (h.space_other hπ fun a ha hal => hl ⟨a, ha, hal⟩)

/-- The cell that had a slot has it under its new name, and the same type. -/
theorem cell_map {q : Ptr} {info : TypeInfo D} (hc : t.cell l = some (q, info)) :
    t'.cell l = some (π q, info) := by
  obtain ⟨p, hp, rfl, rfl⟩ := cell_eq_some.1 hc
  rcases h.spaces hπ l with hsame | ⟨a, ha, p', flags, -, hp₁, hp'⟩
  · rw [hp, Option.map_some, Space.renamed] at hsame
    exact cell_eq_some.2 ⟨_, hsame, rfl, rfl⟩
  · cases hp.symm.trans hp₁
    exact cell_eq_some.2 ⟨_, hp', rfl, rfl⟩

theorem types {q : Ptr} (hq : q ∈ t.w.active.storage.owned) :
    t'.w.active.storage.owned.lookup (π q) = t.w.active.storage.owned.lookup q := by
  obtain ⟨l, hl⟩ := (h.fired.coherent.owned q).1 hq
  have hl' := h.held_map hπ l
  rw [hl, Option.map_some] at hl'
  obtain ⟨hne, info, hc⟩ := held_eq_some.1 hl
  rw [h.settled.typed.owned l q info hc hne,
    h.settled'.typed.owned l (π q) info (h.cell_map hπ hc) (held_eq_some.1 hl').1]

theorem values {q : Ptr} (hq : q ∈ t.w.active.storage.owned) :
    t'.heap.read (π q) = t.heap.read q := by
  obtain ⟨x, ⟨l, hx⟩, rfl⟩ := (h.settled.names_eq h.fired.coherent).symm.subset hq
  rw [hπ.name x ⟨l, hx⟩]
  cases x with
  | old q =>
      have hx' : slotAfter s acts' l = some (.old q) := by rw [h.slotAfter_eq, hx]
      exact (h.settled'.old l q hx').trans (h.settled.old l q hx).symm
  | new p =>
      obtain ⟨a, ha, rfl, hmg, hnone⟩ := putter_of_new hx
      obtain ⟨kind, sp, v, d, hready, -⟩ := h.fired.each a ha
      cases kind with
      | memory => cases hnone.symm.trans hready.held
      | port =>
          have hne : a.mg ≠ [] := fun hnil => by
            rw [hnil] at hmg
            cases hmg
          obtain ⟨w, hw⟩ := hready.exists_storedValue hne
          have hstores := hready.stores_port hne hw
          exact (h.settled'.new a (h.perm.mem_iff.2 ha) _ w hstores).trans
            (h.settled.new a ha _ w hstores).symm

theorem refs {q : Ptr} (hq : q ∈ t.w.active.storage.owned)
    (hinj : Set.InjOn π {q | q ∈ t.w.active.storage.owned}) :
    t'.w.active.memRefs.lookup (π q) = t.w.active.memRefs.lookup q := by
  have hused : Renaming.used t.held = {q | q ∈ t.w.active.storage.owned} :=
    Set.ext fun q => (h.fired.coherent.owned q).symm
  have hlen : t'.r.spaces.length = t.r.spaces.length :=
    (length_spaces_of_shapes h.fired'.frame.shapes).trans
      (length_spaces_of_shapes h.fired.frame.shapes).symm
  have hcounted := h.fired'.coherent.counted
  rw [hlen] at hcounted
  exact Renaming.refs_map h.fired.coherent.counted hcounted (hused ▸ hinj) (h.held_map hπ)
    (hused ▸ hq)

theorem stock_eq
    (hbij : Set.BijOn π {q | q ∈ t.w.active.storage.owned} {q | q ∈ t'.w.active.storage.owned}) :
    stock infos t'.mem = stock infos t.mem := by
  refine (Finset.sum_nbij π ?_ ?_ ?_ ?_).symm
  · exact fun q hq => mem_ownedKeys.2 (hbij.mapsTo (mem_ownedKeys.1 hq))
  · exact fun q hq q' hq' heq => hbij.injOn (mem_ownedKeys.1 hq) (mem_ownedKeys.1 hq') heq
  · intro q' hq'
    obtain ⟨q, hq, rfl⟩ := hbij.surjOn (mem_ownedKeys.1 hq')
    exact ⟨q, mem_ownedKeys.2 hq, rfl⟩
  · intro q hq
    have hq' := mem_ownedKeys.1 hq
    have htypes : t'.mem.storage.owned.lookup (π q) = t.mem.storage.owned.lookup q :=
      h.types hπ hq'
    have hvalues : t'.mem.heap.read (π q) = t.mem.heap.read q := h.values hπ hq'
    rw [worth, worth, htypes, hvalues]

/-- What is missing is the same, so what has been dropped is. -/
theorem dropped
    (hbij : Set.BijOn π {q | q ∈ t.w.active.storage.owned} {q | q ∈ t'.w.active.storage.owned}) :
    t'.heap.dropped.Perm t.heap.dropped := by
  have hsum : (acts'.map (RunAction.income s)).sum = (acts.map (RunAction.income s)).sum :=
    (h.perm.map _).sum_eq
  have hbalance := h.settled'.balance
  rw [hsum, ← h.settled.balance, h.stock_eq hπ hbij] at hbalance
  exact Multiset.coe_eq_coe.1 (add_right_cancel hbalance)

end Reordered

/-- Two orders of a rule's actions lead to states that are alike. -/
theorem Reordered.alike (h : Reordered infos s acts acts' dest dest' t t') :
    ∃ π, Alike π acts t t' := by
  obtain ⟨π, hπ, hbij⟩ := h.exists_renames
  refine ⟨π, h.fired.coherent, h.fired'.coherent, fun l => ?_, h.spaces hπ, hπ.null, hbij,
    fun q => h.types hπ, fun q => h.values hπ, fun q hq => h.refs hπ hq hbij.injOn, fun q hq => ?_,
    h.dropped hπ hbij⟩
  · rw [Bool.eq_iff_iff, h.fired.ready, h.fired'.ready]
    exact or_congr_right (exists_congr fun a => and_congr_left fun _ => h.perm.mem_iff)
  · rw [h.fired.read q (.inl hq), h.fired'.read q (.inl hq)]

end Orders

/-! ## A rule of an accepted protocol -/

/-- The memory is coherent: counts and storage agree with the pointers in the
cells, the storage knows the types of what it owns, and the bit of a ready cell
says whether it points anywhere. Ready ports are as their callers left them. -/
structure Steady (s : ProtoAll D) : Prop where
  coherent : Coherent s
  typed : ∀ l q info, s.cell l = some (q, info) → q ≠ .null →
    s.w.active.storage.owned.lookup q = some info.typeId
  bits : ∀ l sp, s.getSpace l = some (.memo sp) → s.w.active.ready.test l = true →
    (s.w.memoryBits.test l = true ↔ sp.ptr ≠ .null)
  ports : PortsReady s

section Instance

variable {P : Proto D} {infos : HashMap TypeId (TypeInfo D)} {s : ProtoAll D} {r : RuleDef}
  {run : RunRule D}

theorem Steady.typedBy (h : Steady s) (hs : Shaped P infos s) : Typed infos s := by
  refine ⟨fun l q info hc => ?_, h.typed⟩
  obtain ⟨p, hp, rfl, rfl⟩ := cell_eq_some.1 hc
  obtain ⟨p', hp', hinfo⟩ := hs.isCell (hs.isMemLoc_of_memo hp)
  cases hp.symm.trans hp'
  exact hinfo.unique

theorem Steady.actionReady (h : Steady s) (hs : Shaped P infos s)
    (hwf : WellFormedRule P.typelessProtoDef.locKinds P.typeAt r.actions)
    (henc : Encodes P.typelessProtoDef.locKinds r run)
    (hself : ∀ a ∈ r.actions, a.putter ∉ a.getters)
    (hclone : ∀ l info, P.locType l = some info → ∃ f, info.funcs.clone = .defined f)
    (hmay : MayFire P.typelessProtoDef.locKinds r.actions s.w.memoryBits s.w.active.ready)
    {a : RunAction} (ha : a ∈ run.actions) :
    ∃ kind sp v, ActionReady (s.prepare run) a kind sp v := by
  obtain ⟨d, hd, rfl⟩ := henc.mem_actions.1 ha
  have hgen := genuine_of_mayFire hs hself h.bits hmay
  exact h.ports.actionReady hs h.coherent hwf henc hself
    (fun _ _ _ l info hinfo _ => hclone l info hinfo) hgen hd

/-- In an instance of a protocol whose types are all `Clone`, a rule that may be
fired and in which nothing puts to itself can have its actions performed in any
order, with results that are alike. -/
theorem fire_perm (P : Proto D) {b b' : Build D} {s₀ : ProtoAll D}
    (hfin : (finish P).run b = .ok s₀ b')
    (hclone : ∀ l info, P.locType l = some info → ∃ f, info.funcs.clone = .defined f)
    {s : ProtoAll D} (hrules : s.r.rules = s₀.r.rules) (hshapes : s.shapes = s₀.shapes)
    (hs : Steady s) {i : RuleId} {r : RuleDef} {run : RunRule D}
    (hr : P.typelessProtoDef.behaviour.rules[i]? = some r)
    (hrule : s.r.rules[i]? = some run) (hself : ∀ a ∈ r.actions, a.putter ∉ a.getters)
    (hmay : MayFire P.typelessProtoDef.locKinds r.actions s.w.memoryBits s.w.active.ready)
    {acts : List RunAction} (hperm : acts.Perm run.actions) :
    ∃ t t' π, run.fire.run (s.prepare run) = .ok () t ∧
      ({ run with actions := acts }.fire).run (s.prepare run) = .ok () t' ∧
      Alike π run.actions t t' := by
  obtain ⟨infos, hs₀⟩ := (built_of_finish hfin).standing
  have hshaped := hs₀.shaped.congr hshapes
  rw [hrules] at hrule
  have henc := hs₀.encodes_at hr hrule
  have hwf := hs₀.wellFormed r (List.mem_of_getElem? hr)
  have hapart := henc.apart hwf
  have hready : ∀ a ∈ run.actions, ∃ kind sp v, ActionReady (s.prepare run) a kind sp v :=
    fun a ha => hs.actionReady hshaped hwf henc hself hclone hmay ha
  have hcoh : Coherent (s.prepare run) := hs.coherent.congr rfl (fun _ => rfl) rfl rfl
  have htyped : Typed infos (s.prepare run) :=
    ⟨(hs.typedBy hshaped).info, (hs.typedBy hshaped).owned⟩
  have hapart' : acts.Pairwise RunAction.Apart :=
    hperm.symm.pairwise hapart fun hxy l hl => hxy l ⟨hl.2, hl.1⟩
  obtain ⟨t, dest, hrun, hf, hsettled⟩ := fire_settled hcoh htyped hready hapart
  obtain ⟨t', dest', hrun', hf', hsettled'⟩ :=
    @fire_settled D infos (s.prepare run) { run with actions := acts } hcoh htyped
      (fun a ha => hready a (hperm.mem_iff.1 ha)) hapart'
  obtain ⟨π, halike⟩ := Reordered.alike ⟨hperm, hapart, hf, hf', hsettled, hsettled'⟩
  exact ⟨t, t', π, hrun, hrun', halike⟩

end Instance

/-! ## Two puts at once -/

/-- Port 0 puts to cell 1 and port 2 to cell 3, in one rule. -/
def twins : Proto Nat where
  typelessProtoDef := ⟨⟨[⟨.true, [⟨0, [1]⟩, ⟨2, [3]⟩]⟩]⟩,
    collectMap [(0, .portPutter), (1, .memUninitialized), (2, .portPutter),
      (3, .memUninitialized)]⟩
  fillMemory := fun _ => none
  defFunc := fun _ => none
  locType := fun _ => some cellInfo

/-- The one putter arrives and finds nothing to do, then the other arrives. -/
theorem twins_puts : ∃ s b s₁ s₂ s₃ run, (finish twins).run (.new .empty) = .ok s b ∧
    (∃ sp, s.getSpace 0 = some (.poPu sp .new)) ∧
    (readySet 0).run (s.offer 0 (.data 7)) = .ok true s₁ ∧ exhaustPass.run s₁ = .ok .quiet s₂ ∧
    (∃ sp, s₂.getSpace 2 = some (.poPu sp .new)) ∧
    (readySet 2).run (s₂.offer 2 (.data 8)) = .ok true s₃ ∧
    s₃.r.rules[0]? = some run ∧ run.actions = [⟨0, [1], []⟩, ⟨2, [3], []⟩] ∧
    s₃.w.active.storage.owned = ∅ ∧
    (s₃.w.active.ready.test 0 = true ∧ s₃.w.active.ready.test 1 = true ∧
      s₃.w.active.ready.test 2 = true ∧ s₃.w.active.ready.test 3 = true) ∧
    s₃.w.memoryBits.test 1 = false ∧ s₃.w.memoryBits.test 3 = false :=
  ⟨_, _, _, _, _, _, rfl, ⟨_, rfl⟩, rfl, rfl, ⟨_, rfl⟩, rfl, rfl, rfl, rfl, ⟨rfl, rfl, rfl, rfl⟩,
    rfl, rfl⟩

theorem twins_steady : ∃ s b t run, (finish twins).run (.new .empty) = .ok s b ∧
    SameInstance s t ∧ Steady t ∧ t.r.rules[0]? = some run ∧
    run.actions = [⟨0, [1], []⟩, ⟨2, [3], []⟩] ∧
    MayFire twins.typelessProtoDef.locKinds [⟨0, [1]⟩, ⟨2, [3]⟩] t.w.memoryBits
      t.w.active.ready := by
  obtain ⟨s, b, s₁, s₂, s₃, run, hfin, ⟨sp, hp⟩, hput, hpass, ⟨sp', hp'⟩, hput', hrule, hacts,
    howned, ⟨h₀, h₁, h₂, h₃⟩, hbit₁, hbit₃⟩ := twins_puts
  have hself : NoSelfPut twins := by
    intro r hr a ha
    obtain rfl := List.mem_singleton.1 hr
    simp only [List.mem_cons, List.not_mem_nil, or_false] at ha
    rcases ha with rfl | rfl <;> decide
  have hclone : FanOutClones twins := by
    rintro r - a - - l info hl -
    cases hl
    exact ⟨_, rfl⟩
  have hun : Uninitialized twins := by
    have hall : ∀ e ∈ twins.typelessProtoDef.locKinds.pairs, e.2 ≠ .memInitialized := by decide
    exact fun l hl => hall _ (mem_pairs.2 hl) rfl
  have hreach : Run.Reach Step (start s) _ _ := .tail (.tail (.tail (.tail (.tail .refl
    (.offer rfl hp)) (.arrive rfl rfl hput)) (.leave rfl (fun _ h => by cases h) hpass))
    (.offer rfl hp')) (.arrive rfl rfl hput')
  obtain ⟨infos, -, hsound, hbits, -⟩ := reach_sound hun hself hclone (by decide) (by decide)
    hfin hreach
  obtain ⟨_, hs₀⟩ := (built_of_finish hfin).standing
  have hempty : ∀ l, s₃.held l = none := by
    intro l
    cases hl : s₃.held l with
    | none => rfl
    | some q =>
        have hin : q ∈ s₃.w.active.storage.owned := (hsound.coherent.owned q).2 ⟨l, hl⟩
        rw [howned] at hin
        exact absurd hin (AList.notMem_empty q)
  refine ⟨s, b, s₃, run, hfin, reach_sameInstance hs₀ hreach, ⟨hsound.coherent, ?_, ?_,
    hsound.portsReady⟩, hrule, hacts, ?_⟩
  · intro l q info hc hq
    have hl := hempty l
    rw [held_eq_some.2 ⟨hq, info, hc⟩] at hl
    cases hl
  · intro l sp hsp hready
    rw [hbits l sp hsp]
    exact and_iff_right hready
  · rintro l ⟨a, ha, hal⟩
    have hputter : ∀ p : LocId, isMemLoc twins.typelessProtoDef.locKinds p = false →
        s₃.w.active.ready.test p = true → Met twins.typelessProtoDef.locKinds
          [⟨0, [1]⟩, ⟨2, [3]⟩] s₃.w.memoryBits s₃.w.active.ready p := by
      intro p hp hready
      refine ⟨hready, fun hcon => ?_, fun hcon => ?_⟩
      · cases hp.symm.trans hcon
      · cases hp.symm.trans hcon
    have hgetter : ∀ g : LocId, (∀ a ∈ [(⟨0, [1]⟩ : ActionDef), ⟨2, [3]⟩], g ≠ a.putter) →
        s₃.w.active.ready.test g = true → s₃.w.memoryBits.test g = false →
          Met twins.typelessProtoDef.locKinds [⟨0, [1]⟩, ⟨2, [3]⟩] s₃.w.memoryBits
            s₃.w.active.ready g := by
      rintro g hg hready hbit
      exact ⟨hready, fun _ ⟨a, ha, heq⟩ => absurd heq (hg a ha), fun _ _ => hbit⟩
    simp only [List.mem_cons, List.not_mem_nil, or_false] at ha
    rcases ha with rfl | rfl
    · rcases hal with rfl | hal
      · exact hputter 0 (by decide) h₀
      · obtain rfl := List.mem_singleton.1 hal
        exact hgetter 1 (by decide) h₁ hbit₁
    · rcases hal with rfl | hal
      · exact hputter 2 (by decide) h₂
      · obtain rfl := List.mem_singleton.1 hal
        exact hgetter 3 (by decide) h₃ hbit₃

/-- The second put first. -/
theorem fire_perm_twins : ∃ (s : ProtoAll Nat) (run : RunRule Nat) (t t' : ProtoAll Nat)
    (π : Ptr → Ptr), run.actions = [⟨0, [1], []⟩, ⟨2, [3], []⟩] ∧
    run.fire.run (s.prepare run) = .ok () t ∧
    ({ run with actions := [⟨2, [3], []⟩, ⟨0, [1], []⟩] }.fire).run (s.prepare run) = .ok () t' ∧
    Alike π [⟨0, [1], []⟩, ⟨2, [3], []⟩] t t' := by
  obtain ⟨s₀, b, s, run, hfin, hst, hsteady, hrule, hacts, hmay⟩ := twins_steady
  have hperm : [⟨2, [3], []⟩, ⟨0, [1], []⟩].Perm run.actions := by
    rw [hacts]
    exact List.Perm.swap _ _ _
  have hself : ∀ a ∈ [(⟨0, [1]⟩ : ActionDef), ⟨2, [3]⟩], a.putter ∉ a.getters := by decide
  obtain ⟨t, t', π, hrun, hrun', halike⟩ := fire_perm twins hfin
    (fun l info hl => ⟨id, by cases hl; rfl⟩) hst.rules hst.shapes hsteady (i := 0) rfl hrule hself
    hmay hperm
  exact ⟨s, run, t, t', π, hacts, hrun, hrun', hacts ▸ halike⟩

end ReoRs
