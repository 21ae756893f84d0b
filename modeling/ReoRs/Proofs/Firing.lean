import ReoRs.Proofs.Coherent
import ReoRs.Proofs.Pass
import ReoRs.Proto.Acquire

/-!
# What an action does

`performAction_ok` is the one specification of `perform_action`. From a
coherent state in which the action's locations are as a rule finds them, a
putter with something to give, empty getter cells, and getters with an empty
dropbox, none of its assertions fails; and `Performed` is what it does to
each location, the memory and the readiness. Everything said later about a
firing is said from that.
-/

namespace ReoRs

variable {D : Type}

open ProtoAll

/-! ## Filling cells -/

namespace ProtoAll

/-- Every cell of `gs` has the pointer and is ready. -/
def fillAll (q : Ptr) (gs : List LocId) (s : ProtoAll D) : ProtoAll D :=
  gs.foldl (fun s g => (s.setPtr g q).setReady g true) s

theorem fillAll_cons (q : Ptr) (g : LocId) (gs : List LocId) (s : ProtoAll D) :
    fillAll q (g :: gs) s = fillAll q gs ((s.setPtr g q).setReady g true) := rfl

theorem getSpace_fillAll_of_notMem {q : Ptr} {l : LocId} : ∀ {gs : List LocId} {s : ProtoAll D},
    l ∉ gs → (fillAll q gs s).getSpace l = s.getSpace l
  | [], _, _ => rfl
  | g :: gs, s, h => by
      rw [List.mem_cons, not_or] at h
      rw [fillAll_cons, getSpace_fillAll_of_notMem h.2, getSpace_setReady,
        getSpace_setPtr_ne s q h.1]

theorem getSpace_fillAll_of_mem {q : Ptr} {l : LocId} {p : PutterSpace D} : ∀ {gs : List LocId}
    {s : ProtoAll D}, gs.Nodup → l ∈ gs → s.getSpace l = some (.memo p) →
      (fillAll q gs s).getSpace l = some (.memo { p with ptr := q })
  | g :: gs, s, hnd, h, hp => by
      rw [List.nodup_cons] at hnd
      rw [fillAll_cons]
      rcases List.mem_cons.1 h with rfl | h
      · rw [getSpace_fillAll_of_notMem hnd.1, getSpace_setReady, getSpace_setPtr, if_pos rfl, hp]
        rfl
      · refine getSpace_fillAll_of_mem hnd.2 h ?_
        have hne : l ≠ g := fun heq => hnd.1 (heq ▸ h)
        rw [getSpace_setReady, getSpace_setPtr_ne s q hne, hp]

theorem cell_fillAll (q : Ptr) (l : LocId) : ∀ (gs : List LocId) (s : ProtoAll D),
    (fillAll q gs s).cell l = if l ∈ gs then (s.cell l).map fun c => (q, c.2) else s.cell l
  | [], s => by simp [fillAll]
  | g :: gs, s => by
      rw [fillAll_cons, cell_fillAll q l gs, cell_setReady, cell_setPtr]
      by_cases hg : l = g
      · subst hg
        rw [if_pos rfl, if_pos List.mem_cons_self]
        split
        · cases s.cell l <;> rfl
        · rfl
      · rw [if_neg hg]
        simp only [List.mem_cons, hg, false_or]

theorem ready_fillAll (q : Ptr) (l : LocId) : ∀ (gs : List LocId) (s : ProtoAll D),
    (fillAll q gs s).w.active.ready.test l = (decide (l ∈ gs) || s.w.active.ready.test l)
  | [], s => by simp [fillAll]
  | g :: gs, s => by
      rw [fillAll_cons, ready_fillAll q l gs, ready_setReady]
      by_cases hg : l = g
      · simp [hg]
      · simp [hg]
        rfl

@[simp] theorem mem_fillAll (q : Ptr) : ∀ (gs : List LocId) (s : ProtoAll D),
    (fillAll q gs s).mem = s.mem
  | [], _ => rfl
  | g :: gs, s => by
      rw [fillAll_cons, mem_fillAll q gs]
      rfl

@[simp] theorem memRefs_fillAll (q : Ptr) : ∀ (gs : List LocId) (s : ProtoAll D),
    (fillAll q gs s).w.active.memRefs = s.w.active.memRefs
  | [], _ => rfl
  | g :: gs, s => by
      rw [fillAll_cons, memRefs_fillAll q gs]
      rfl

theorem shapes_fillAll (q : Ptr) : ∀ (gs : List LocId) (s : ProtoAll D),
    (fillAll q gs s).shapes = s.shapes
  | [], _ => rfl
  | g :: gs, s => by
      rw [fillAll_cons, shapes_fillAll q gs, shapes_setReady, shapes_setPtr]

end ProtoAll

theorem run_fillCell {s : ProtoAll D} {g : LocId} {q : Ptr} {p : PutterSpace D}
    (hg : s.getSpace g = some (.memo p)) (hp : p.ptr = .null) :
    (fillCell g q).run s = .ok () ((s.setPtr g q).setReady g true) := by
  have hput : s.getSpacePutter g = some p := getSpacePutter_eq hg
  have hover : (overwriteNullPtr g q).run s = .ok () (s.setPtr g q) := by
    rw [overwriteNullPtr, EStateM.run_bind, EStateM.run_get]
    simp only [hput, EStateM.run_bind, EStateM.run_set, hp]
    rfl
  rw [fillCell, Effect.run_bind_of_ok hover]
  rfl

/-- A cell that can be given the pointer of a datum with the descriptor
`info`. -/
def Fillable (s : ProtoAll D) (info : TypeInfo D) (g : LocId) : Prop :=
  ∃ p, s.getSpace g = some (.memo p) ∧ p.ptr = .null ∧ p.typeInfo = info

theorem Fillable.cell {s : ProtoAll D} {info : TypeInfo D} {g : LocId}
    (h : Fillable s info g) : s.cell g = some (.null, info) := by
  obtain ⟨p, hp, hnull, hinfo⟩ := h
  exact cell_eq_some.2 ⟨p, hp, hnull, hinfo⟩

/-- A loop that fills cells one after the other. -/
theorem run_fillLoop {info : TypeInfo D} {q : Ptr} {f : LocId → Proc D Unit} :
    ∀ {gs : List LocId} {s : ProtoAll D}, gs.Nodup → (∀ g ∈ gs, Fillable s info g) →
      (∀ g ∈ gs, ∀ t : ProtoAll D, Fillable t info g → (f g).run t = (fillCell g q).run t) →
        (Effect.forEach f gs).run s = .ok () (fillAll q gs s)
  | [], _, _, _, _ => rfl
  | g :: gs, s, hnd, hfill, hf => by
      rw [List.nodup_cons] at hnd
      have hg := hfill g List.mem_cons_self
      obtain ⟨p, hp, hnull, -⟩ := id hg
      have hone : (f g).run s = .ok () ((s.setPtr g q).setReady g true) := by
        rw [hf g List.mem_cons_self s hg, run_fillCell hp hnull]
      rw [Effect.run_forEach_cons, Effect.run_bind_of_ok hone, fillAll_cons]
      refine run_fillLoop hnd.2 ?_ fun g' hg' => hf g' (List.mem_cons_of_mem g hg')
      intro g' hg'
      have hne : g' ≠ g := fun heq => hnd.1 (heq ▸ hg')
      obtain ⟨p', hp', h'⟩ := hfill g' (List.mem_cons_of_mem g hg')
      exact ⟨p', by rw [getSpace_setReady, getSpace_setPtr_ne s q hne, hp'], h'⟩

theorem getMePu_of_fillable {s : ProtoAll D} {info : TypeInfo D} {g : LocId}
    (h : Fillable s info g) : ∃ p, s.getMePu g = some p ∧ p.typeInfo = info := by
  obtain ⟨p, hp, -, hinfo⟩ := h
  exact ⟨p, getMePu_eq_some.2 hp, hinfo⟩

theorem run_duplicateRef {s : ProtoAll D} {info : TypeInfo D} {p g : LocId} {src : Ptr}
    (hg : Fillable s info g) (hne : g ≠ p) :
    (duplicateRef p src info.typeId g).run s = (fillCell g src).run s := by
  obtain ⟨sp, hsp, hinfo⟩ := getMePu_of_fillable hg
  rw [duplicateRef, if_neg hne, EStateM.run_bind, EStateM.run_get]
  simp only [hsp, hinfo, ne_eq, not_true_eq_false, if_false]

theorem run_shareSlot {s : ProtoAll D} {info : TypeInfo D} {g : LocId} {dest : Ptr}
    (hg : Fillable s info g) :
    (shareSlot info.typeId dest g).run s = (fillCell g dest).run s := by
  obtain ⟨sp, hsp, hinfo⟩ := getMePu_of_fillable hg
  rw [shareSlot, EStateM.run_bind, EStateM.run_get]
  simp only [hsp, hinfo, ne_eq, not_true_eq_false, if_false]

/-! ## The two ways of feeding memory -/

theorem run_sharePointer {s : ProtoAll D} {info : TypeInfo D} {p : LocId} {src : Ptr}
    {mg : List LocId} {n : Nat} (hnd : mg.Nodup) (hp : p ∉ mg)
    (hmg : ∀ g ∈ mg, Fillable s info g) (hrefs : s.w.active.memRefs.lookup src = some n)
    (hn : 0 < n) :
    (sharePointer p src info.typeId mg).run s = .ok (n + mg.length != 1)
      ((fillAll src mg s).mapMemRefs (·.insert src (n + mg.length))) := by
  have hloop : (Effect.forEach (duplicateRef p src info.typeId) mg).run s =
      .ok () (fillAll src mg s) :=
    run_fillLoop hnd hmg fun g hg t ht => run_duplicateRef ht fun heq => hp (heq ▸ hg)
  have hlook : (fillAll src mg s).w.active.memRefs.lookup src = some n := by
    rw [memRefs_fillAll, hrefs]
  rw [sharePointer, Effect.run_bind_of_ok hloop, EStateM.run_bind, EStateM.run_get]
  simp only [hlook, Nat.not_lt.2 hn, if_false]
  rfl

/-- A copy of a datum in a slot of its own. -/
structure Stored (info : TypeInfo D) (w : Datum D) (m : Mem D) (dest : Ptr) (m' : Mem D) :
    Prop where
  allocated : Storage.Allocated info m dest m'
  value : m'.heap.read dest = some w

/-- The datum a slot gets from a port: the port's own, or its clone. -/
def StoredValue (info : TypeInfo D) (v : Datum D) (getters : Nat) (w : Datum D) : Prop :=
  match getters with
  | 0 => w = v
  | _ => ∃ f, info.funcs.clone = .defined f ∧ w = f v

theorem stored_of_write {info : TypeInfo D} {w : Datum D} {m m₁ : Mem D} {dest : Ptr}
    (h : Storage.Allocated info m dest m₁) :
    Stored info w m dest { m₁ with heap := m₁.heap.write dest (some w) } := by
  obtain ⟨a, rfl⟩ := h.isStore
  refine ⟨⟨⟨a, rfl⟩, h.fresh, h.owned, ?_, h.prepared, ?_, h.dropped⟩, by simp⟩
  · exact ⟨h.valid.owned_live, h.valid.free_live, h.valid.free_not_owned, h.valid.nodup,
      h.valid.apart⟩
  · intro q hq
    rw [Heap.read_write_ne _ _ hq, h.read q hq]

theorem run_store {m : Mem D} (hm : Storage.Valid m) {info : TypeInfo D} {p : LocId}
    {v w : Datum D} (hv : m.heap.read (.stack p) = some v) {n : Nat}
    (hw : StoredValue info v n w) :
    ∃ dest m', (match n with
        | 0 => Storage.moveIn (.stack p) info
        | _ => Storage.cloneIn (.stack p) info).run m = .ok dest m' ∧ Stored info w m dest m' := by
  obtain ⟨dest, m₁, halloc, hspec⟩ := Storage.run_alloc hm info
  have hne : Ptr.stack p ≠ dest := by
    obtain ⟨a, rfl⟩ := hspec.isStore
    simp
  have hv₁ : m₁.heap.read (.stack p) = some v := by rw [hspec.read _ hne, hv]
  refine ⟨dest, _, ?_, stored_of_write hspec⟩
  cases n with
  | zero =>
      cases hw
      have hcopy : info.copyFnExecute (.stack p) dest m₁.heap =
          .ok (m₁.heap.write dest (some v)) := by
        simp [TypeInfo.copyFnExecute, TypeInfo.copied, hv₁, bind, Except.bind, pure, Except.pure]
      show (Storage.moveIn (.stack p) info).run m = _
      rw [Storage.moveIn, Effect.run_bind_of_ok halloc, EStateM.run_bind, liftHeap,
        EStateM.run_bind, EStateM.run_get]
      simp only [hcopy]
      rfl
  | succ n =>
      obtain ⟨f, hf, rfl⟩ := hw
      have hclone : info.funcs.clone.execute (.stack p) dest m₁.heap =
          .ok (m₁.heap.write dest (some (f v))) := by
        simp [hf, CloneFn.execute, CloneFn.cloned, hv₁, bind, Except.bind, pure, Except.pure]
      show (Storage.cloneIn (.stack p) info).run m = _
      rw [Storage.cloneIn, Effect.run_bind_of_ok halloc, EStateM.run_bind, liftHeap,
        EStateM.run_bind, EStateM.run_get]
      simp only [hclone]
      rfl

theorem run_onStorage {α : Type} {x : MemM D α} {s : ProtoAll D} {a : α} {m : Mem D}
    (h : x.run s.mem = .ok a m) : (onStorage x).run s = .ok a (putMem m s) :=
  Effect.run_zoom_of_ok h

theorem run_countRefs {s : ProtoAll D} {dest : Ptr} (n : Nat)
    (h : s.w.active.memRefs.lookup dest = none) :
    (countRefs dest n).run s = .ok () (s.mapMemRefs (·.insert dest n)) := by
  rw [countRefs, EStateM.run_bind, EStateM.run_get]
  simp only [EStateM.run_bind, EStateM.run_set, h]
  rfl

theorem run_populateMemory {s : ProtoAll D} {info : TypeInfo D} {p first : LocId}
    {others pg : List LocId} {v w : Datum D} (hs : Coherent s) (hnd : (first :: others).Nodup)
    (hmg : ∀ g ∈ first :: others, Fillable s info g) (hv : s.heap.read (.stack p) = some v)
    (hw : StoredValue info v pg.length w) :
    ∃ dest m, (populateMemory (.stack p) (first :: others) pg).run s =
        .ok () ((fillAll dest (first :: others) (putMem m s)).mapMemRefs
          (·.insert dest (1 + others.length))) ∧
      Stored info w s.mem dest m := by
  obtain ⟨sp, hsp, hinfo⟩ := getMePu_of_fillable (hmg first List.mem_cons_self)
  obtain ⟨dest, m, hstore, hspec⟩ := run_store (m := s.mem) hs.valid hv hw
  obtain ⟨p₁, hp₁, hnull, -⟩ := hmg first List.mem_cons_self
  have hfirst : (fillCell first dest).run (putMem m s) =
      .ok () (((putMem m s).setPtr first dest).setReady first true) := by
    refine run_fillCell (p := p₁) ?_ hnull
    rw [getSpace_putMem, hp₁]
  have hothers : (Effect.forEach (shareSlot info.typeId dest) others).run
      (((putMem m s).setPtr first dest).setReady first true) =
        .ok () (fillAll dest (first :: others) (putMem m s)) := by
    refine run_fillLoop (List.nodup_cons.1 hnd).2 ?_ fun g _ t ht => run_shareSlot ht
    intro g hg
    have hne : g ≠ first := fun heq => (List.nodup_cons.1 hnd).1 (heq ▸ hg)
    obtain ⟨p', hp', h'⟩ := hmg g (List.mem_cons_of_mem first hg)
    exact ⟨p', by rw [getSpace_setReady, getSpace_setPtr_ne _ _ hne, getSpace_putMem, hp'], h'⟩
  have hnew :
      (fillAll dest (first :: others) (putMem m s)).w.active.memRefs.lookup dest = none := by
    rw [memRefs_fillAll]
    refine hs.refs_eq_none fun l hl => hspec.allocated.fresh ?_
    exact (hs.owned dest).2 ⟨l, hl⟩
  refine ⟨dest, m, ?_, hspec⟩
  rw [populateMemory, EStateM.run_bind, EStateM.run_get]
  simp only [hsp, hinfo]
  refine (Effect.run_bind_of_ok (run_onStorage hstore)).trans ?_
  rw [Effect.run_bind_of_ok hfirst, Effect.run_bind_of_ok hothers, run_countRefs _ hnew]

/-! ## Actions -/

/-- A putter as a rule finds it: a port with an empty dropbox, or a full cell
whose readiness was taken. -/
def PutterReady (s : ProtoAll D) (l : LocId) (sp : PutterSpace D) : SourceKind → Prop
  | .port => s.getSpace l = some (.poPu sp ⟨none⟩) ∧ sp.ptr = .stack l
  | .memory => s.getSpace l = some (.memo sp) ∧ sp.ptr ≠ .null ∧ s.w.active.ready.test l = false

/-- The locations of an action as a rule finds them; `v` is what the putter
offers. -/
structure ActionReady (s : ProtoAll D) (a : RunAction) (kind : SourceKind) (sp : PutterSpace D)
    (v : Datum D) : Prop where
  putter : PutterReady s a.putter sp kind
  value : s.heap.read sp.ptr = some v
  nodupCells : a.mg.Nodup
  putterNotCell : a.putter ∉ a.mg
  cells : ∀ g ∈ a.mg, Fillable s sp.typeInfo g
  nodupGetters : a.pg.Nodup
  getters : ∀ g ∈ a.pg, s.getSpace g = some (.poGe ⟨none⟩)
  clone : kind = .port → a.mg ≠ [] → a.pg ≠ [] → ∃ f, sp.typeInfo.funcs.clone = .defined f

/-- After the memory getters have been fed. -/
structure Fed (s : ProtoAll D) (a : RunAction) (kind : SourceKind) (sp : PutterSpace D)
    (v : Datum D) (disableMove : Bool) (t : ProtoAll D) : Prop where
  coherent : Coherent t
  others : ∀ l, l ∉ a.mg → t.getSpace l = s.getSpace l
  cells : ∃ dest w, dest ≠ .null ∧ t.heap.read dest = some w ∧
    (∀ g ∈ a.mg, ∃ gp, s.getSpace g = some (.memo gp) ∧
      t.getSpace g = some (.memo { gp with ptr := dest })) ∧
    (a.pg = [] → w = v) ∧ (kind = .memory → w = v ∧ dest = sp.ptr) ∧
    (kind = .port → ∀ l, s.held l ≠ some dest)
  refs : kind = .memory → ∃ n, s.w.active.memRefs.lookup sp.ptr = some n ∧ 0 < n ∧
    t.w.active.memRefs.lookup sp.ptr = some (n + a.mg.length) ∧
      disableMove = (n + a.mg.length != 1)
  move : kind = .port → disableMove = false
  ready : ∀ l, t.w.active.ready.test l =
    (decide (l ∈ a.mg) || s.w.active.ready.test l)
  read : ∀ q, (∀ n, q ≠ .store n) ∨ q ∈ s.w.active.storage.owned →
    t.heap.read q = s.heap.read q
  dropped : t.heap.dropped = s.heap.dropped

theorem feedMemory_memory {s : ProtoAll D} {a : RunAction} {sp : PutterSpace D} {v : Datum D}
    (hs : Coherent s) (ha : ActionReady s a .memory sp v) :
    ∃ d t, (feedMemory a.putter a.mg a.pg).run s = .ok d t ∧ Fed s a .memory sp v d t := by
  obtain ⟨hput, hnull, -⟩ := ha.putter
  have hheld : s.held a.putter = some sp.ptr :=
    held_of_memo hput hnull
  obtain ⟨n, hn, hpos⟩ := hs.exists_refs hheld
  have hrun : (feedMemory a.putter a.mg a.pg).run s = .ok (n + a.mg.length != 1)
      ((fillAll sp.ptr a.mg s).mapMemRefs (·.insert sp.ptr (n + a.mg.length))) := by
    rw [feedMemory, EStateM.run_bind, EStateM.run_get]
    simp only [hput]
    exact run_sharePointer ha.nodupCells ha.putterNotCell ha.cells hn hpos
  have hmem : ((fillAll sp.ptr a.mg s).mapMemRefs
      (·.insert sp.ptr (n + a.mg.length))).mem = s.mem := mem_fillAll sp.ptr a.mg s
  have hst : (fillAll sp.ptr a.mg s).w.active.storage = s.w.active.storage :=
    congrArg Mem.storage hmem
  have hheap : (fillAll sp.ptr a.mg s).heap = s.heap := congrArg Mem.heap hmem
  have howned : sp.ptr ∈ s.w.active.storage.owned := (hs.owned _).2 ⟨_, hheld⟩
  refine ⟨_, _, hrun, ?_, ?_, ?_, ?_, by simp, ?_, ?_, ?_⟩
  · refine hs.fill ha.nodupCells hnull (fun g hg => ⟨_, (ha.cells g hg).cell⟩) (.inr ⟨_, hheld⟩)
      (length_spaces_of_shapes (shapes_fillAll _ _ _)) (fun l => cell_fillAll _ l _ _) ?_ ?_
      (hmem ▸ hs.valid) ?_ ⟨v, by show (fillAll sp.ptr a.mg s).heap.read _ = _
                                  rw [hheap, ha.value]⟩ ?_ ?_
    · intro q
      show AList.lookup q ((fillAll sp.ptr a.mg s).w.active.memRefs.insert _ _) = _
      rw [memRefs_fillAll]
      by_cases hq : q = sp.ptr
      · rw [hq, AList.lookup_insert, if_pos rfl, hn]
        rfl
      · rw [AList.lookup_insert_ne hq, if_neg hq]
    · intro q
      show q ∈ (fillAll sp.ptr a.mg s).w.active.storage.owned ↔ _
      rw [hst]
      exact ⟨.inr, fun h => h.elim (fun heq => heq ▸ howned) id⟩
    · intro q _
      show (fillAll sp.ptr a.mg s).heap.read q = _
      rw [hheap]
    · intro layout h
      show (fillAll sp.ptr a.mg s).w.active.storage.Prepared layout
      rwa [hst]
    · intro g hg info hinfo
      show (fillAll sp.ptr a.mg s).w.active.storage.Prepared info.layout
      rw [(ha.cells g hg).cell] at hinfo
      cases hinfo
      rw [hst]
      exact hs.prepared _ _ _ (cell_eq_some.2 ⟨sp, hput, rfl, rfl⟩) hnull
  · exact fun l hl => getSpace_fillAll_of_notMem hl
  · refine ⟨sp.ptr, v, hnull, ?_, ?_, fun _ => rfl, fun _ => ⟨rfl, rfl⟩, by simp⟩
    · show (fillAll sp.ptr a.mg s).heap.read _ = _
      rw [hheap, ha.value]
    · intro g hg
      obtain ⟨gp, hgp, -⟩ := ha.cells g hg
      exact ⟨gp, hgp, getSpace_fillAll_of_mem ha.nodupCells hg hgp⟩
  · intro _
    refine ⟨n, hn, hpos, ?_, rfl⟩
    show AList.lookup _ ((fillAll sp.ptr a.mg s).w.active.memRefs.insert _ _) = _
    rw [AList.lookup_insert]
  · exact fun l => ready_fillAll _ l _ _
  · intro q _
    show (fillAll sp.ptr a.mg s).heap.read q = _
    rw [hheap]
  · show (fillAll sp.ptr a.mg s).heap.dropped = _
    rw [hheap]

theorem feedMemory_port {s : ProtoAll D} {a : RunAction} {sp : PutterSpace D} {v : Datum D}
    (hs : Coherent s) (ha : ActionReady s a .port sp v) :
    ∃ d t, (feedMemory a.putter a.mg a.pg).run s = .ok d t ∧ Fed s a .port sp v d t := by
  obtain ⟨hput, hptr⟩ := ha.putter
  have hv : s.heap.read (.stack a.putter) = some v := hptr ▸ ha.value
  have hrun : ∀ t, (populateMemory (.stack a.putter) a.mg a.pg).run s = .ok () t →
      (feedMemory a.putter a.mg a.pg).run s = .ok false t := by
    intro t ht
    rw [feedMemory, EStateM.run_bind, EStateM.run_get]
    simp only [hput, hptr]
    exact Effect.run_bind_of_ok ht
  cases hmg : a.mg with
  | nil =>
      refine ⟨false, s, hmg ▸ hrun s (by rw [hmg]; rfl), hs, fun _ _ => rfl, ?_, by simp,
        fun _ => rfl, by simp [hmg], fun _ _ => rfl, rfl⟩
      refine ⟨sp.ptr, v, by rw [hptr]; simp, ha.value, by simp [hmg], fun _ => rfl, by simp, ?_⟩
      intro _ l hl
      obtain ⟨n, hn⟩ := hs.isStore hl
      rw [hptr] at hn
      cases hn
  | cons first others =>
      have hne : a.mg ≠ [] := by simp [hmg]
      obtain ⟨w, hw⟩ : ∃ w, StoredValue sp.typeInfo v a.pg.length w := by
        cases hlen : a.pg.length with
        | zero => exact ⟨v, rfl⟩
        | succ n =>
            obtain ⟨f, hf⟩ := ha.clone rfl hne (by
              intro hnil
              rw [hnil] at hlen
              cases hlen)
            exact ⟨f v, f, hf, rfl⟩
      have hcells := hmg ▸ ha.cells
      have hnd := hmg ▸ ha.nodupCells
      obtain ⟨dest, m, hpop, hspec⟩ := run_populateMemory hs hnd hcells hv hw
      have halloc := hspec.allocated
      have hdest : dest ≠ .null := by
        obtain ⟨n, rfl⟩ := halloc.isStore
        simp
      have hfresh : ∀ l, s.held l ≠ some dest :=
        fun l hl => halloc.fresh ((hs.owned dest).2 ⟨l, hl⟩)
      have hmem : (fillAll dest (first :: others) (putMem m s)).mem = m := mem_fillAll _ _ _
      have hst : (fillAll dest (first :: others) (putMem m s)).w.active.storage = m.storage :=
        congrArg Mem.storage hmem
      have hheap : (fillAll dest (first :: others) (putMem m s)).heap = m.heap :=
        congrArg Mem.heap hmem
      have hread : ∀ q, (∀ n, q ≠ .store n) ∨ q ∈ s.w.active.storage.owned →
          m.heap.read q = s.heap.read q := by
        intro q hq
        refine halloc.read q ?_
        rintro rfl
        rcases hq with hq | hq
        · obtain ⟨n, hn⟩ := halloc.isStore
          exact hq n hn
        · exact halloc.fresh hq
      refine ⟨false, _, hmg ▸ hrun _ (hmg ▸ hpop), ?_, ?_, ?_, by simp, fun _ => rfl, ?_, ?_, ?_⟩
      · refine hs.fill hnd hdest (fun g hg => ⟨_, (hcells g hg).cell⟩) (.inl (by simp))
          (length_spaces_of_shapes (shapes_fillAll _ _ _)) (fun l => ?_) ?_ ?_
          (by
            show Storage.Valid (fillAll dest (first :: others) (putMem m s)).mem
            rw [hmem]
            exact halloc.valid) ?_ ⟨w, by
            show (fillAll dest (first :: others) (putMem m s)).heap.read _ = _
            rw [hheap, hspec.value]⟩ ?_ ?_
        · exact cell_fillAll dest l (first :: others) (putMem m s)
        · intro q
          show AList.lookup q ((fillAll dest (first :: others)
            (putMem m s)).w.active.memRefs.insert _ _) = _
          rw [memRefs_fillAll]
          by_cases hq : q = dest
          · have hnone : s.w.active.memRefs.lookup dest = none := hs.refs_eq_none hfresh
            rw [hq, AList.lookup_insert, if_pos rfl, hnone, List.length_cons]
            simp [Nat.add_comm]
          · rw [AList.lookup_insert_ne hq, if_neg hq]
            rfl
        · intro q
          show q ∈ (fillAll dest (first :: others) (putMem m s)).w.active.storage.owned ↔ _
          rw [hst]
          exact halloc.owned q
        · intro q hq
          show (fillAll dest (first :: others) (putMem m s)).heap.read q = _
          rw [hheap]
          exact hread q (.inr hq)
        · intro layout h
          show (fillAll dest (first :: others) (putMem m s)).w.active.storage.Prepared layout
          rw [hst]
          exact halloc.prepared layout (.inr h)
        · intro g hg info hinfo
          show (fillAll dest (first :: others) (putMem m s)).w.active.storage.Prepared info.layout
          rw [(hcells g hg).cell] at hinfo
          cases hinfo
          rw [hst]
          exact halloc.prepared _ (.inl rfl)
      · intro l hl
        rw [hmg] at hl
        exact getSpace_fillAll_of_notMem hl
      · refine ⟨dest, w, hdest, ?_, ?_, ?_, by simp, fun _ l hl => hfresh l hl⟩
        · show (fillAll dest (first :: others) (putMem m s)).heap.read _ = _
          rw [hheap, hspec.value]
        · intro g hg
          obtain ⟨gp, hgp, -⟩ := ha.cells g hg
          exact ⟨gp, hgp, getSpace_fillAll_of_mem hnd (hmg ▸ hg) hgp⟩
        · intro hnil
          rw [hnil] at hw
          exact hw
      · intro l
        rw [hmg]
        exact ready_fillAll dest l (first :: others) (putMem m s)
      · intro q hq
        show (fillAll dest (first :: others) (putMem m s)).heap.read q = _
        rw [hheap]
        exact hread q hq
      · show (fillAll dest (first :: others) (putMem m s)).heap.dropped = _
        rw [hheap]
        exact halloc.dropped

theorem feedMemory_ok {s : ProtoAll D} {a : RunAction} {kind : SourceKind} {sp : PutterSpace D}
    {v : Datum D} (hs : Coherent s) (ha : ActionReady s a kind sp v) :
    ∃ d t, (feedMemory a.putter a.mg a.pg).run s = .ok d t ∧ Fed s a kind sp v d t := by
  cases kind with
  | port => exact feedMemory_port hs ha
  | memory => exact feedMemory_memory hs ha

/-! ## Messages -/

theorem run_send {s : ProtoAll D} {l : LocId} {b : MsgDropbox} (msg : Nat)
    (hbox : s.getDropbox l = some b) (hempty : b.slot = none) :
    (send l msg).run s = .ok () (s.setDropbox l (some msg)) := by
  obtain ⟨slot⟩ := b
  cases hempty
  rw [send, EStateM.run_bind, EStateM.run_get]
  simp only [hbox]
  rfl

namespace ProtoAll

/-- Every getter of `gs` has the message. -/
def tellAll (msg : Nat) (gs : List LocId) (s : ProtoAll D) : ProtoAll D :=
  gs.foldl (fun s g => s.setDropbox g (some msg)) s

theorem tellAll_cons (msg : Nat) (g : LocId) (gs : List LocId) (s : ProtoAll D) :
    tellAll msg (g :: gs) s = tellAll msg gs (s.setDropbox g (some msg)) := rfl

theorem getSpace_tellAll_of_notMem {msg : Nat} {l : LocId} : ∀ {gs : List LocId}
    {s : ProtoAll D}, l ∉ gs → (tellAll msg gs s).getSpace l = s.getSpace l
  | [], _, _ => rfl
  | g :: gs, s, h => by
      rw [List.mem_cons, not_or] at h
      rw [tellAll_cons, getSpace_tellAll_of_notMem h.2, getSpace_setDropbox_ne s _ h.1]

theorem getSpace_tellAll_of_mem {msg : Nat} {l : LocId} {b : MsgDropbox} : ∀ {gs : List LocId}
    {s : ProtoAll D}, gs.Nodup → l ∈ gs → s.getSpace l = some (.poGe b) →
      (tellAll msg gs s).getSpace l = some (.poGe ⟨some msg⟩)
  | g :: gs, s, hnd, h, hb => by
      rw [List.nodup_cons] at hnd
      rw [tellAll_cons]
      rcases List.mem_cons.1 h with rfl | h
      · rw [getSpace_tellAll_of_notMem hnd.1, getSpace_setDropbox, if_pos rfl, hb]
        rfl
      · refine getSpace_tellAll_of_mem (b := b) hnd.2 h ?_
        have hne : l ≠ g := fun heq => hnd.1 (heq ▸ h)
        rw [getSpace_setDropbox_ne s _ hne, hb]

theorem cell_tellAll (msg : Nat) (l : LocId) : ∀ (gs : List LocId) (s : ProtoAll D),
    (tellAll msg gs s).cell l = s.cell l
  | [], _ => rfl
  | g :: gs, s => by rw [tellAll_cons, cell_tellAll msg l gs, cell_setDropbox]

theorem shapes_tellAll (msg : Nat) : ∀ (gs : List LocId) (s : ProtoAll D),
    (tellAll msg gs s).shapes = s.shapes
  | [], _ => rfl
  | g :: gs, s => by rw [tellAll_cons, shapes_tellAll msg gs, shapes_setDropbox]

/-- Messages are all in the spaces. -/
theorem tellAll_rest (msg : Nat) : ∀ (gs : List LocId) (s : ProtoAll D),
    (tellAll msg gs s).w = s.w ∧ (tellAll msg gs s).heap = s.heap
  | [], _ => ⟨rfl, rfl⟩
  | g :: gs, s => by
      rw [tellAll_cons]
      exact tellAll_rest msg gs (s.setDropbox g (some msg))

end ProtoAll

theorem run_tellAll {msg : Nat} : ∀ {gs : List LocId} {s : ProtoAll D}, gs.Nodup →
    (∀ g ∈ gs, s.getSpace g = some (.poGe ⟨none⟩)) →
      (Effect.forEach (fun g => sendToGetter g msg) gs).run s = .ok () (tellAll msg gs s)
  | [], _, _, _ => rfl
  | g :: gs, s, hnd, hgs => by
      rw [List.nodup_cons] at hnd
      have hg := hgs g List.mem_cons_self
      have hbox : s.getDropbox g = some ⟨none⟩ := getDropbox_eq hg
      have hone : (sendToGetter g msg).run s = .ok () (s.setDropbox g (some msg)) := by
        rw [sendToGetter, EStateM.run_bind, EStateM.run_get]
        simp only [hg]
        exact run_send msg hbox rfl
      rw [Effect.run_forEach_cons, Effect.run_bind_of_ok hone, tellAll_cons]
      refine run_tellAll hnd.2 fun g' hg' => ?_
      have hne : g' ≠ g := fun heq => hnd.1 (heq ▸ hg')
      rw [getSpace_setDropbox_ne s _ hne, hgs g' (List.mem_cons_of_mem g hg')]

/-! ## The end of an action -/

theorem run_becomeReady {s : ProtoAll D} {l : LocId} (h : s.w.active.ready.test l = false) :
    (becomeReady l).run s = .ok () (s.setReady l true) := by
  rw [becomeReady, EStateM.run_bind, EStateM.run_get]
  simp only [EStateM.run_bind, EStateM.run_set, BitSet.setTo_snd, h]
  rfl

/-- A cell that was emptied: it let go of its slot and is ready. -/
structure Emptied (s : ProtoAll D) (l : LocId) (sp : PutterSpace D) (t : ProtoAll D) : Prop where
  coherent : Coherent t
  frame : Frame s t
  others : ∀ l', l' ≠ l → t.getSpace l' = s.getSpace l'
  cell : t.getSpace l = some (.memo { sp with ptr := .null })
  ready : ∀ l', t.w.active.ready.test l' = (decide (l' = l) || s.w.active.ready.test l')
  read : ∀ q, t.heap.read q = s.heap.read q

theorem Emptied.held {s t : ProtoAll D} {l : LocId} {sp : PutterSpace D} (h : Emptied s l sp t) :
    t.held l = none := by
  cases hheld : t.held l with
  | none => rfl
  | some q =>
      obtain ⟨hne, p, hp, rfl⟩ := held_memo_iff.1 hheld
      cases h.cell.symm.trans hp
      exact absurd rfl hne

/-- How many times the datum of a slot is dropped when a cell lets go of it. -/
def dropsOf (s : ProtoAll D) (drop : Bool) (sp : PutterSpace D) (v : Datum D) : List (Datum D) :=
  if s.w.active.memRefs.lookup sp.ptr = some 1 ∧ drop = true then
    Storage.drops sp.typeInfo.funcs.drop v
  else []

theorem run_releaseRef_last {s : ProtoAll D} {drop : Bool} {src : Ptr} {info : TypeInfo D}
    {m : Mem D} (hrefs : s.w.active.memRefs.lookup src = some 1)
    (hdispose : (if drop then Storage.dropInside src info
      else Storage.forgetInside src info).run s.mem = .ok () m) :
    (releaseRef drop src info).run s =
      .ok () (putMem m (s.mapMemRefs fun r => (r.insert src 0).erase src)) := by
  rw [releaseRef, EStateM.run_bind, EStateM.run_get]
  simp only [hrefs]
  exact run_onStorage (s := s.mapMemRefs fun r => (r.insert src 0).erase src) hdispose

theorem run_releaseRef_shared {s : ProtoAll D} {drop : Bool} {src : Ptr} {info : TypeInfo D}
    {n : Nat} (hrefs : s.w.active.memRefs.lookup src = some (n + 2)) :
    (releaseRef drop src info).run s = .ok () (s.mapMemRefs (·.insert src (n + 1))) := by
  rw [releaseRef, EStateM.run_bind, EStateM.run_get]
  simp only [hrefs]
  rfl

/-- Emptying a full cell that is not ready cannot go wrong. -/
theorem makeEmpty_ok {s : ProtoAll D} {l : LocId} {sp : PutterSpace D} {v : Datum D}
    (hs : Coherent s) (hl : s.getSpace l = some (.memo sp)) (hnull : sp.ptr ≠ .null)
    (hready : s.w.active.ready.test l = false) (hv : s.heap.read sp.ptr = some v) (drop : Bool) :
    ∃ t, (makeEmpty drop l).run s = .ok () t ∧ Emptied s l sp t ∧
      t.heap.dropped = dropsOf s drop sp v ++ s.heap.dropped := by
  have hcell : s.cell l = some (sp.ptr, sp.typeInfo) := cell_eq_some.2 ⟨sp, hl, rfl, rfl⟩
  have hheld : s.held l = some sp.ptr := held_eq_some.2 ⟨hnull, _, hcell⟩
  obtain ⟨n, hn, hpos⟩ := hs.exists_refs hheld
  have hput : s.getSpacePutter l = some sp := getSpacePutter_eq hl
  have hn' : (s.setPtr l .null).w.active.memRefs.lookup sp.ptr = some n := hn
  -- what the release leaves, with one holder and with more
  obtain ⟨m, refs, hrel, hrefs, hfreed, hdropped⟩ : ∃ m refs,
      (releaseRef drop sp.ptr sp.typeInfo).run (s.setPtr l .null) =
        .ok () (putMem m ((s.setPtr l .null).mapMemRefs fun _ => refs)) ∧
      (∀ q, AList.lookup q refs = if q = sp.ptr then (if n = 1 then none else some (n - 1))
        else s.w.active.memRefs.lookup q) ∧
      (if n = 1 then Storage.Freed sp.ptr s.mem m else m = s.mem) ∧
      m.heap.dropped = dropsOf s drop sp v ++ s.heap.dropped := by
    by_cases h1 : n = 1
    · subst h1
      have howned : sp.ptr ∈ s.mem.storage.owned := (hs.owned _).2 ⟨l, hheld⟩
      obtain ⟨stack, hstack⟩ := hs.prepared l _ _ hcell hnull
      obtain ⟨m, hrun, hfreed, hdrop⟩ := Storage.run_dispose (m := s.mem) hs.valid howned hstack hv
        drop
      refine ⟨m, _, run_releaseRef_last hn' hrun, ?_, ?_, ?_⟩
      · intro q
        by_cases hq : q = sp.ptr
        · rw [if_pos hq, if_pos rfl, hq, AList.lookup_erase]
        · rw [if_neg hq, AList.lookup_erase_ne hq, AList.lookup_insert_ne hq]
          rfl
      · rw [if_pos rfl]
        exact hfreed
      · rw [hdrop, dropsOf, hn]
        cases drop <;> rfl
    · obtain ⟨k, rfl⟩ : ∃ k, n = k + 2 := ⟨n - 2, by omega⟩
      have hnone : dropsOf s drop sp v = [] := by
        rw [dropsOf, if_neg]
        rw [hn]
        rintro ⟨h, -⟩
        exact h1 (Option.some.inj h)
      refine ⟨s.mem, s.w.active.memRefs.insert sp.ptr (k + 1), run_releaseRef_shared hn', ?_, ?_,
        by rw [hnone]; rfl⟩
      · intro q
        by_cases hq : q = sp.ptr
        · rw [if_pos hq, if_neg h1, hq, AList.lookup_insert]
          rfl
        · rw [if_neg hq, AList.lookup_insert_ne hq]
      · rw [if_neg h1]
  have hread : ∀ q, m.heap.read q = s.heap.read q := by
    split at hfreed
    · exact hfreed.read
    · exact fun q => by rw [hfreed]; rfl
  have hrun : (makeEmpty drop l).run s = .ok ()
      ((putMem m ((s.setPtr l .null).mapMemRefs fun _ => refs)).setReady l true) := by
    rw [makeEmpty, EStateM.run_bind, EStateM.run_get]
    simp only [hput, EStateM.run_bind, EStateM.run_set, hrel]
    exact run_becomeReady hready
  have hframe := (keeps_makeEmpty drop l).of_ok (Frame.refl s) hrun
  refine ⟨_, hrun, ⟨?_, hframe, ?_, ?_, ?_, hread⟩, hdropped⟩
  · refine hs.release hheld hn (length_spaces_of_shapes hframe.shapes) (fun l' => ?_) hrefs hfreed
    exact cell_setPtr s l .null l'
  · exact fun l' hl' => getSpace_setPtr_ne s .null hl'
  · show (s.setPtr l .null).getSpace l = _
    rw [getSpace_setPtr, if_pos rfl, hl]
    rfl
  · intro l'
    rw [ready_setReady]
    by_cases hl' : l' = l
    · simp [hl']
    · rw [if_neg hl']
      simp [hl']
      rfl

/-- The putter's space after an action. -/
def RunAction.putterAfter (a : RunAction) (kind : SourceKind) (sp : PutterSpace D)
    (disableMove : Bool) : Space D :=
  match kind with
  | .port =>
      if a.pg.isEmpty then .poPu sp ⟨some (if a.mg.isEmpty then 0 else 1)⟩
      else .poPu (sp.beginHandOff a.pg.length disableMove) ⟨none⟩
  | .memory =>
      if a.pg.isEmpty then .memo { sp with ptr := .null }
      else .memo (sp.beginHandOff a.pg.length disableMove)

/-- What `perform_action` did. -/
structure Performed (s : ProtoAll D) (a : RunAction) (kind : SourceKind) (sp : PutterSpace D)
    (v : Datum D) (t : ProtoAll D) : Prop where
  coherent : Coherent t
  frame : Frame s t
  others : ∀ l, l ≠ a.putter → l ∉ a.mg → l ∉ a.pg → t.getSpace l = s.getSpace l
  cells : ∃ dest w, dest ≠ .null ∧ t.heap.read dest = some w ∧
    (∀ g ∈ a.mg, ∃ gp, s.getSpace g = some (.memo gp) ∧
      t.getSpace g = some (.memo { gp with ptr := dest })) ∧
    (a.pg = [] → w = v) ∧ (kind = .memory → w = v ∧ dest = sp.ptr) ∧
    (kind = .port → ∀ l, s.held l ≠ some dest)
  getters : ∀ g ∈ a.pg, t.getSpace g = some (.poGe ⟨some a.putter⟩)
  putter : ∃ disableMove, t.getSpace a.putter = some (a.putterAfter kind sp disableMove) ∧
    (kind = .port → disableMove = false) ∧
    (kind = .memory → ∃ n, s.w.active.memRefs.lookup sp.ptr = some n ∧ 0 < n ∧
      disableMove = (n + a.mg.length != 1))
  ready : ∀ l, t.w.active.ready.test l =
    (decide (l ∈ a.mg) || decide (l = a.putter ∧ kind = .memory ∧ a.pg = []) ||
      s.w.active.ready.test l)
  read : ∀ q, (∀ n, q ≠ .store n) ∨ q ∈ s.w.active.storage.owned →
    t.heap.read q = s.heap.read q
  dropped : kind = .port ∨ a.mg ≠ [] ∨ a.pg ≠ [] → t.heap.dropped = s.heap.dropped

section Ends

variable {s t : ProtoAll D} {a : RunAction} {kind : SourceKind} {sp : PutterSpace D}
  {v : Datum D} {d : Bool}

/-- The getters find their dropboxes as they were. -/
theorem ActionReady.getter_notMem (ha : ActionReady s a kind sp v) {g : LocId} (hg : g ∈ a.pg) :
    g ≠ a.putter ∧ g ∉ a.mg := by
  have hsp := ha.getters g hg
  constructor
  · rintro rfl
    have hput := ha.putter
    cases kind with
    | port => cases hsp.symm.trans hput.1
    | memory => cases hsp.symm.trans hput.1
  · intro hmg
    obtain ⟨p, hp, -⟩ := ha.cells g hmg
    cases hsp.symm.trans hp

/-- With port getters: the putter's counters are set and the getters told. -/
theorem callGetters_ok (ha : ActionReady s a kind sp v) (hfed : Fed s a kind sp v d t)
    (hne : a.pg ≠ []) : ∃ u, (callGetters a.putter d a.pg).run t = .ok () u ∧
      (Frame s t → Performed s a kind sp v u) := by
  have hput : t.getSpace a.putter = s.getSpace a.putter := hfed.others _ ha.putterNotCell
  have hgetters : ∀ g ∈ a.pg,
      (t.mapPutter a.putter (·.beginHandOff a.pg.length d)).getSpace g = some (.poGe ⟨none⟩) := by
    intro g hg
    obtain ⟨hgp, hgm⟩ := ha.getter_notMem hg
    exact (getSpace_mapSpace_ne t _ hgp).trans ((hfed.others g hgm).trans (ha.getters g hg))
  have hrun : (callGetters a.putter d a.pg).run t = .ok ()
      (tellAll a.putter a.pg (t.mapPutter a.putter (·.beginHandOff a.pg.length d))) := by
    rw [callGetters, EStateM.run_bind, EStateM.run_modify]
    exact run_tellAll ha.nodupGetters hgetters
  have hframe := (keeps_callGetters a.putter d a.pg).of_ok (Frame.refl t) hrun
  obtain ⟨hw, hheap⟩ := tellAll_rest a.putter a.pg
    (t.mapPutter a.putter (·.beginHandOff a.pg.length d))
  have hcell : ∀ l, (tellAll a.putter a.pg
      (t.mapPutter a.putter (·.beginHandOff a.pg.length d))).cell l = t.cell l := by
    intro l
    rw [cell_tellAll, cell_mapPutter (f := (·.beginHandOff a.pg.length d)) fun _ => ⟨rfl, rfl⟩]
  have hempty : a.pg.isEmpty = false := by
    cases hpg : a.pg with
    | nil => exact absurd hpg hne
    | cons g gs => rfl
  refine ⟨_, hrun, fun hst => ⟨?_, hst.trans hframe, ?_, ?_, ?_, ?_, ?_, ?_, ?_⟩⟩
  · refine hfed.coherent.congr (length_spaces_of_shapes hframe.shapes) hcell ?_ ?_
    · rw [hw]
      rfl
    · rw [ProtoAll.mem, hw, hheap]
      rfl
  · intro l hlp hlm hlg
    rw [getSpace_tellAll_of_notMem hlg]
    exact (getSpace_mapSpace_ne t _ hlp).trans (hfed.others l hlm)
  · obtain ⟨dest, w, hdest, hread, hcells, hpg, hmem, hnew⟩ := hfed.cells
    refine ⟨dest, w, hdest, by rw [hheap]; exact hread, ?_, hpg, hmem, hnew⟩
    intro g hg
    obtain ⟨gp, hgp, htg⟩ := hcells g hg
    refine ⟨gp, hgp, ?_⟩
    have hgpg : g ∉ a.pg := fun hmem => (ha.getter_notMem hmem).2 hg
    have hgp' : g ≠ a.putter := fun heq => ha.putterNotCell (heq ▸ hg)
    rw [getSpace_tellAll_of_notMem hgpg]
    exact (getSpace_mapSpace_ne t _ hgp').trans htg
  · exact fun g hg => getSpace_tellAll_of_mem ha.nodupGetters hg (hgetters g hg)
  · have hpg : a.putter ∉ a.pg := fun hmem => (ha.getter_notMem hmem).1 rfl
    refine ⟨d, ?_, hfed.move, ?_⟩
    · rw [getSpace_tellAll_of_notMem hpg]
      refine (getSpace_mapSpace_self t a.putter _).trans ?_
      rw [hput]
      have hsp := ha.putter
      cases kind with
      | port =>
          rw [hsp.1, RunAction.putterAfter, hempty]
          rfl
      | memory =>
          rw [hsp.1, RunAction.putterAfter, hempty]
          rfl
    · intro hk
      obtain ⟨n, hn, hpos, -, hd⟩ := hfed.refs hk
      exact ⟨n, hn, hpos, hd⟩
  · intro l
    rw [hw]
    have := hfed.ready l
    simp only [hne, and_false, decide_false, Bool.or_false]
    exact this
  · intro q hq
    rw [hheap]
    exact hfed.read q hq
  · intro _
    rw [hheap]
    exact hfed.dropped

/-- Without: the putter is released. -/
theorem releasePutter_ok (ha : ActionReady s a kind sp v) (hfed : Fed s a kind sp v d t)
    (hnil : a.pg = []) : ∃ u, (releasePutter a.putter a.mg).run t = .ok () u ∧
      (Frame s t → Performed s a kind sp v u) := by
  have hput : t.getSpace a.putter = s.getSpace a.putter := hfed.others _ ha.putterNotCell
  have hsp := ha.putter
  have hempty : a.pg.isEmpty = true := by rw [hnil]; rfl
  cases kind with
  | port =>
      have hspace : t.getSpace a.putter = some (.poPu sp ⟨none⟩) := hput.trans hsp.1
      have hbox : t.getDropbox a.putter = some ⟨none⟩ := getDropbox_eq hspace
      have hrun : (releasePutter a.putter a.mg).run t =
          .ok () (t.setDropbox a.putter (some (if a.mg.isEmpty then 0 else 1))) := by
        rw [releasePutter, EStateM.run_bind, EStateM.run_get]
        simp only [hspace]
        exact run_send _ hbox rfl
      have hframe := (keeps_releasePutter a.putter a.mg).of_ok (Frame.refl t) hrun
      refine ⟨_, hrun, fun hst => ⟨?_, hst.trans hframe, ?_, ?_, by simp [hnil], ?_, ?_,
        hfed.read, fun _ => hfed.dropped⟩⟩
      · exact hfed.coherent.congr (length_spaces_of_shapes hframe.shapes)
          (fun l => cell_setDropbox t _ _ l) rfl rfl
      · intro l hlp hlm _
        exact (getSpace_setDropbox_ne t _ hlp).trans (hfed.others l hlm)
      · obtain ⟨dest, w, hdest, hread, hcells, hpg, hmem, hnew⟩ := hfed.cells
        refine ⟨dest, w, hdest, hread, ?_, hpg, hmem, hnew⟩
        intro g hg
        obtain ⟨gp, hgp, htg⟩ := hcells g hg
        have hgp' : g ≠ a.putter := fun heq => ha.putterNotCell (heq ▸ hg)
        exact ⟨gp, hgp, (getSpace_setDropbox_ne t _ hgp').trans htg⟩
      · refine ⟨d, ?_, hfed.move, by simp⟩
        rw [getSpace_setDropbox, if_pos rfl, hspace, RunAction.putterAfter, hempty]
        rfl
      · intro l
        have := hfed.ready l
        simp only [reduceCtorEq, false_and, and_false, decide_false, Bool.or_false]
        exact this
  | memory =>
      obtain ⟨hmemo, hnull, hready⟩ := hsp
      have hspace : t.getSpace a.putter = some (.memo sp) := hput.trans hmemo
      have hready' : t.w.active.ready.test a.putter = false := by
        rw [hfed.ready, hready]
        simp [ha.putterNotCell]
      obtain ⟨dest, w, hdest, hread, hcells, hpg, hmem, hnew⟩ := hfed.cells
      obtain ⟨rfl, rfl⟩ := hmem rfl
      obtain ⟨n, hn, hpos, hrefs, hd⟩ := hfed.refs rfl
      obtain ⟨u, hempty', hemptied, hdropped⟩ :=
        makeEmpty_ok hfed.coherent hspace hnull hready' hread true
      have hrun : (releasePutter a.putter a.mg).run t = .ok () u := by
        rw [releasePutter, EStateM.run_bind, EStateM.run_get]
        simp only [hspace, if_neg ha.putterNotCell]
        exact hempty'
      refine ⟨u, hrun, fun hst => ⟨hemptied.coherent, hst.trans hemptied.frame, ?_, ?_,
        by simp [hnil], ?_, ?_, ?_, ?_⟩⟩
      · intro l hlp hlm _
        exact (hemptied.others l hlp).trans (hfed.others l hlm)
      · refine ⟨sp.ptr, w, hdest, (hemptied.read _).trans hread, ?_, hpg, hmem, hnew⟩
        intro g hg
        obtain ⟨gp, hgp, htg⟩ := hcells g hg
        have hgp' : g ≠ a.putter := fun heq => ha.putterNotCell (heq ▸ hg)
        exact ⟨gp, hgp, (hemptied.others g hgp').trans htg⟩
      · refine ⟨d, ?_, hfed.move, fun _ => ⟨n, hn, hpos, hd⟩⟩
        rw [RunAction.putterAfter, hempty]
        exact hemptied.cell
      · intro l
        rw [hemptied.ready, hfed.ready]
        by_cases hl : l = a.putter <;> simp [hl, hnil]
      · intro q hq
        rw [hemptied.read, hfed.read q hq]
      · intro hne
        have hmg : a.mg ≠ [] := by
          rcases hne with h | h | h
          · cases h
          · exact h
          · exact absurd hnil h
        have hlen : 0 < a.mg.length := List.length_pos_iff.2 hmg
        rw [hdropped, dropsOf, if_neg, hfed.dropped]
        · rfl
        · rw [hrefs]
          rintro ⟨h, -⟩
          have := Option.some.inj h
          omega

end Ends

/-- An action cannot go wrong, and this is what it does. -/
theorem performAction_ok {s : ProtoAll D} {a : RunAction} {kind : SourceKind}
    {sp : PutterSpace D} {v : Datum D} (hs : Coherent s) (ha : ActionReady s a kind sp v) :
    ∃ t, (performAction a.putter a.mg a.pg).run s = .ok () t ∧ Performed s a kind sp v t := by
  obtain ⟨d, t, hfeed, hfed⟩ := feedMemory_ok hs ha
  have hframe := (keeps_feedMemory a.putter a.mg a.pg).of_ok (Frame.refl s) hfeed
  by_cases hnil : a.pg = []
  · obtain ⟨u, hrun, hperf⟩ := releasePutter_ok ha hfed hnil
    refine ⟨u, ?_, hperf hframe⟩
    rw [performAction, Effect.run_bind_of_ok hfeed, if_pos (List.length_eq_zero_iff.2 hnil), hrun]
  · obtain ⟨u, hrun, hperf⟩ := callGetters_ok ha hfed hnil
    refine ⟨u, ?_, hperf hframe⟩
    rw [performAction, Effect.run_bind_of_ok hfeed, if_neg (mt List.length_eq_zero_iff.1 hnil),
      hrun]

end ReoRs
