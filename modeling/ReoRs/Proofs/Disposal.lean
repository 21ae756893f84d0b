import ReoRs.Lib.Holdings
import ReoRs.Proofs.Robust
import ReoRs.Proofs.Slots
import ReoRs.Proofs.Sound

/-!
# Dropping an instance

What is in the cells when a protocol goes out of scope is dropped by `Drop`
for its storage, which goes by the descriptors it has noted. `Disposable` says
that they are there for every owned slot, and that each of them drops what it
describes. When moreover no slot is shared, every cell that is full is emptied
by a drop of its own.
-/

namespace ReoRs

variable {D : Type}

open Effect (Keeps keeps_pure keeps_throw keeps_set keeps_modify keeps_get_bind keeps_forEach)

/-! ## The storage -/

/-- Whatever is owned is dropped by its type's descriptor. -/
structure Storage.Disposable (st : Storage D) : Prop where
  noted : ∀ q t, st.owned.lookup q = some t → ∃ info, st.typeInfo.lookup t = some info
  drops : ∀ t info, st.typeInfo.lookup t = some info → info.funcs.drop = .dropInPlace

namespace Storage.Disposable

variable {m : Mem D} {info : TypeInfo D}

theorem alloc (hdrop : info.funcs.drop = .dropInPlace) :
    Keeps (fun m : Mem D => m.storage.Disposable) (Storage.alloc info) := by
  intro m hm
  obtain ⟨hfree, howned⟩ := noteType_free m.storage info
  have hpop : ∀ {dest m'}, popFree info.layout
      { m with storage := m.storage.noteType info } = (dest, m') →
        m'.storage.owned = m.storage.owned ∧
          m'.storage.typeInfo = (m.storage.noteType info).typeInfo := by
    intro dest m' h
    rw [popFree] at h
    split at h
    · cases h
      exact ⟨howned, rfl⟩
    · cases h
      exact ⟨howned, rfl⟩
  have hafter : ∀ {dest m'}, popFree info.layout
      { m with storage := m.storage.noteType info } = (dest, m') →
        ({ m'.storage with owned := m'.storage.owned.insert dest info.typeId } :
          Storage D).Disposable := by
    intro dest m' h
    obtain ⟨howned', htypes⟩ := hpop h
    refine ⟨fun q t hq => ?_, fun t found hfound => ?_⟩
    · show ∃ found, m'.storage.typeInfo.lookup t = some found
      rw [htypes]
      by_cases hqd : q = dest
      · rw [hqd, AList.lookup_insert] at hq
        cases hq
        exact lookup_noteType_self m.storage info
      · rw [AList.lookup_insert_ne hqd, howned'] at hq
        obtain ⟨found, hfound⟩ := hm.noted q t hq
        exact ⟨found, lookup_noteType_of_lookup hfound info⟩
    · have hfound : m'.storage.typeInfo.lookup t = some found := hfound
      rw [htypes] at hfound
      rcases lookup_noteType m.storage info hfound with hwas | ⟨-, rfl⟩
      · exact hm.drops t found hwas
      · exact hdrop
  rw [Storage.alloc, EStateM.run_bind, EStateM.run_modify]
  simp only [EStateM.run_bind, EStateM.run_get, EStateM.run_set]
  cases hrun : popFree info.layout { m with storage := m.storage.noteType info } with
  | mk dest m' =>
      cases m'.storage.owned.lookup dest with
      | some t => exact hafter hrun
      | none => exact hafter hrun

theorem liftHeap (f : Heap D → Except Fault (Heap D)) :
    Keeps (fun m : Mem D => m.storage.Disposable) (liftHeap f) := by
  refine keeps_get_bind fun m hm => ?_
  split
  · exact keeps_set hm
  · exact keeps_throw _

theorem moveIn (hdrop : info.funcs.drop = .dropInPlace) (src : Ptr) :
    Keeps (fun m : Mem D => m.storage.Disposable) (Storage.moveIn src info) :=
  (alloc hdrop).bind fun _ => (liftHeap _).bind fun _ => keeps_pure _

theorem cloneIn (hdrop : info.funcs.drop = .dropInPlace) (src : Ptr) :
    Keeps (fun m : Mem D => m.storage.Disposable) (Storage.cloneIn src info) :=
  (alloc hdrop).bind fun _ => (liftHeap _).bind fun _ => keeps_pure _

theorem innerFree (ptr : Ptr) (layout : Layout) :
    Keeps (fun m : Mem D => m.storage.Disposable) (Storage.innerFree ptr layout) := by
  refine keeps_get_bind fun m hm => ?_
  have hafter : ∀ free, ({ m.storage with owned := m.storage.owned.erase ptr, free } :
      Storage D).Disposable := by
    intro free
    refine ⟨fun q t hq => hm.noted q t ?_, hm.drops⟩
    by_cases hqp : q = ptr
    · rw [hqp, AList.lookup_erase] at hq
      cases hq
    · rwa [AList.lookup_erase_ne hqp] at hq
  split
  · exact keeps_throw _
  · refine Keeps.bind (keeps_set (hafter _)) fun _ => ?_
    split
    · exact keeps_throw _
    · exact keeps_set (hafter _)

theorem dropInside (ptr : Ptr) (info : TypeInfo D) :
    Keeps (fun m : Mem D => m.storage.Disposable) (Storage.dropInside ptr info) :=
  (liftHeap _).bind fun _ => innerFree ptr info.layout

end Storage.Disposable

/-! ## The instance -/

/-- Every type has a destructor. -/
def Proto.NeedsDrop (P : Proto D) : Prop :=
  ∀ l info, P.locType l = some info → info.funcs.drop = .dropInPlace

/-- What is in the storage will be dropped, and all that can get there. -/
structure ProtoAll.Disposable (s : ProtoAll D) : Prop where
  storage : s.w.active.storage.Disposable
  cells : ∀ info, Space.Shape.memo info ∈ s.shapes → info.funcs.drop = .dropInPlace

namespace ProtoAll.Disposable

variable {s t : ProtoAll D}

theorem congr (h : s.Disposable) (hstorage : t.w.active.storage = s.w.active.storage)
    (hshapes : t.shapes = s.shapes) : t.Disposable :=
  ⟨hstorage ▸ h.storage, hshapes ▸ h.cells⟩

theorem onStorage {α : Type} {x : MemM D α}
    (hx : Keeps (fun m : Mem D => m.storage.Disposable) x) :
    Keeps ProtoAll.Disposable (onStorage x) := by
  intro s hs
  have hmem := hx s.mem hs.storage
  rw [ReoRs.onStorage, EStateM.run, Effect.zoom]
  cases hrun : x.run s.mem with
  | ok a m =>
      rw [hrun] at hmem
      exact ⟨hmem, hs.cells⟩
  | error e m =>
      rw [hrun] at hmem
      exact ⟨hmem, hs.cells⟩

theorem robust : Robust (fun _ => True) (ProtoAll.Disposable (D := D)) where
  setPtr hs _ q := hs.congr rfl (shapes_setPtr _ _ q)
  setReady hs _ v := hs.congr rfl (shapes_setReady _ _ v)
  setDropbox hs l m := hs.congr rfl (shapes_setDropbox _ l m)
  beginHandOff hs l _ _ := hs.congr rfl
    (shapes_mapSpace (fun sp => by cases sp <;> rfl) _ l)
  mapMemRefs hs f := hs.congr rfl (shapes_mapMemRefs _ f)
  store := by
    intro s l p hs hp src n
    have hshape : Space.Shape.memo p.typeInfo ∈ s.shapes :=
      List.mem_map.2 ⟨_, List.mem_of_getElem? (getMePu_eq_some.1 hp), rfl⟩
    refine onStorage ?_
    cases n with
    | zero => exact Storage.Disposable.moveIn (hs.cells _ hshape) src
    | succ n => exact Storage.Disposable.cloneIn (hs.cells _ hshape) src
  dispose := by
    intro drop src info
    refine onStorage ?_
    cases drop with
    | true => exact Storage.Disposable.dropInside src info
    | false => exact Storage.Disposable.innerFree src info.layout

end ProtoAll.Disposable

theorem disposable_start {P : Proto D} {heap : Heap D} {b : Build D} {s₀ : ProtoAll D}
    (hun : Uninitialized P) (hdrop : P.NeedsDrop) (hfin : (finish P).run (.new heap) = .ok s₀ b) :
    s₀.Disposable := by
  obtain ⟨hst, -⟩ := (finish_iff_of_uninitialized hun _).2 _ _ hfin
  obtain ⟨infos, hspaces⟩ := (built_of_finish hfin).spaceAt
  refine ⟨?_, fun info hinfo => ?_⟩
  · rw [hst]
    constructor
    · intro q t ht
      cases ht
    · intro t info ht
      cases ht
  · obtain ⟨l, hl⟩ := List.getElem?_of_mem hinfo
    rw [ProtoAll.shapes, List.getElem?_map, Option.map_eq_some_iff] at hl
    obtain ⟨sp, hsp, hshape⟩ := hl
    have hat := (hspaces l sp hsp).shapeAt
    rw [hshape] at hat
    cases hat with
    | cell _ _ hinfoAt =>
        obtain ⟨l', hl'⟩ := hinfoAt.declared
        exact hdrop l' info hl'

/-! ## `Drop for Storage` -/

theorem dropped_deallocate (h : Heap D) (ptr : Ptr) : (h.deallocate ptr).dropped = h.dropped := by
  cases ptr <;> rfl

theorem read_deallocate_ne (h : Heap D) {ptr q : Ptr} (hq : q ≠ ptr) :
    (h.deallocate ptr).read q = h.read q := by
  cases ptr with
  | store b => exact Heap.read_write_ne h none hq
  | null | stack port | constant b => rfl

section Drop

variable {typeInfo : HashMap TypeId (TypeInfo D)} {s : Audit D}

/-- A round drops what is in its slot. -/
theorem run_dropOwned {e : (_ : Ptr) × TypeId} {info : TypeInfo D} {v : Datum D}
    (hinfo : typeInfo.lookup e.2 = some info) (hdrop : info.funcs.drop = .dropInPlace)
    (hread : s.mem.heap.read e.1 = some v) :
    ∃ t, (Audit.dropOwned typeInfo e).run s = .ok () t ∧
      t.mem.heap.dropped = v :: s.mem.heap.dropped ∧
      ∀ q, q ≠ e.1 → t.mem.heap.read q = s.mem.heap.read q := by
  let dropped : Heap D := { s.mem.heap with dropped := v :: s.mem.heap.dropped }
  have hexecute : (liftHeap (info.funcs.drop.execute e.1)).run s.mem =
      .ok () { s.mem with heap := dropped } := by
    rw [liftHeap, EStateM.run_bind, EStateM.run_get]
    simp only [Storage.run_dropFn hread, hdrop, Storage.drops]
    rfl
  refine ⟨⟨{ s.mem with heap := dropped.deallocate e.1 },
    .dealloc e.1 info.layout :: .drop e.1 info.typeId :: s.calls⟩, ?_, ?_, fun q hq => ?_⟩
  · have hdropped : (Audit.dropExecute info e.1).run s = .ok ()
        ⟨{ s.mem with heap := dropped }, .drop e.1 info.typeId :: s.calls⟩ := by
      rw [Audit.dropExecute, Effect.run_bind_of_ok (run_onMem_of_ok hexecute)]
      rfl
    rw [Audit.dropOwned, hinfo]
    dsimp only
    rw [Effect.run_bind_of_ok hdropped]
    rfl
  · exact dropped_deallocate dropped e.1
  · refine (read_deallocate_ne dropped hq).trans ?_
    cases q <;> rfl

/-- The loop drops what is in the slots; each is deallocated after its own
drop only. -/
theorem run_dropLoop_dropped : ∀ {l : List ((_ : Ptr) × TypeId)}, l.NodupKeys →
    (∀ e ∈ l, ∃ info, typeInfo.lookup e.2 = some info ∧ info.funcs.drop = .dropInPlace) →
      ∀ {s : Audit D}, (∀ e ∈ l, ∃ v, s.mem.heap.read e.1 = some v) →
        ∃ t, (Effect.forEach (Audit.dropOwned typeInfo) l).run s = .ok () t ∧
          (t.mem.heap.dropped : Multiset (Datum D)) =
            (l.keys : Multiset Ptr).filterMap s.mem.heap.read + s.mem.heap.dropped := by
  intro l
  induction l with
  | nil =>
      intro _ _ s _
      exact ⟨s, rfl, (zero_add _).symm⟩
  | cons e l ih =>
      intro hl htyped s hread
      obtain ⟨hnew, hl⟩ := List.nodupKeys_cons.1 hl
      obtain ⟨info, hinfo, hdrop⟩ := htyped e List.mem_cons_self
      obtain ⟨v, hv⟩ := hread e List.mem_cons_self
      obtain ⟨t, hround, hdropped, hothers⟩ := run_dropOwned hinfo hdrop hv
      have hsame : ∀ q ∈ l.keys, t.mem.heap.read q = s.mem.heap.read q := by
        intro q hq
        refine hothers q ?_
        rintro rfl
        exact hnew hq
      obtain ⟨u, hrest, hu⟩ := ih hl (fun x hx => htyped x (List.mem_cons_of_mem e hx))
        (s := t) fun x hx => by
          rw [hsame x.1 (List.mem_keys_of_mem hx)]
          exact hread x (List.mem_cons_of_mem e hx)
      refine ⟨u, by rw [Effect.run_forEach_cons, Effect.run_bind_of_ok hround, hrest], ?_⟩
      have hkeys : (l.keys : Multiset Ptr).filterMap t.mem.heap.read =
          (l.keys : Multiset Ptr).filterMap s.mem.heap.read :=
        congrArg _ (List.filterMap_congr hsame)
      rw [hu, hkeys, hdropped, List.keys_cons, ← Multiset.cons_coe, ← Multiset.cons_coe,
        Multiset.filterMap_cons_some _ _ _ hv, Multiset.add_cons, Multiset.cons_add]

/-- Giving memory back drops nothing. -/
theorem dropped_shrinkToFit {s t : Audit D} (h : Audit.shrinkToFit.run s = .ok () t) :
    t.mem.heap.dropped = s.mem.heap.dropped := by
  have hkeeps : Keeps (fun a : Audit D => a.mem.heap.dropped = s.mem.heap.dropped)
      (Audit.shrinkToFit (D := D)) := by
    refine keeps_get_bind fun a ha => Keeps.bind (keeps_set ha) fun _ => ?_
    refine keeps_forEach (fun entry => keeps_forEach (fun ptr => ?_) _) _
    intro a ha
    exact (dropped_deallocate a.mem.heap ptr).trans ha
  exact hkeeps.of_ok rfl h

/-- Dropping a storage drops what is in its owned slots, and nothing else. -/
theorem run_dropStorage_dropped {m : Mem D} (hm : m.storage.Disposable)
    (hfull : ∀ q ∈ m.storage.owned, ∃ v, m.heap.read q = some v) :
    ∃ u, Audit.dropStorage.run ⟨m, []⟩ = .ok () u ∧ (u.mem.heap.dropped : Multiset (Datum D)) =
      (m.storage.owned.keys : Multiset Ptr).filterMap m.heap.read + m.heap.dropped := by
  have hentry : ∀ e ∈ m.storage.owned.entries, m.storage.owned.lookup e.1 = some e.2 :=
    fun e he => AList.mem_lookup_iff.2 he
  have htyped : ∀ e ∈ m.storage.owned.entries, ∃ info,
      m.storage.typeInfo.lookup e.2 = some info ∧ info.funcs.drop = .dropInPlace := by
    intro e he
    obtain ⟨info, hinfo⟩ := hm.noted e.1 e.2 (hentry e he)
    exact ⟨info, hinfo, hm.drops _ _ hinfo⟩
  obtain ⟨t, hloop, ht⟩ := run_dropLoop_dropped (s := drained ⟨m, []⟩)
    m.storage.owned.nodupKeys htyped
    (fun e he => hfull e.1 (AList.mem_keys.2 (List.mem_keys_of_mem he)))
  obtain ⟨u, hshrink, -⟩ := run_shrinkToFit t
  refine ⟨u, ?_, ?_⟩
  · rw [run_dropStorage, Effect.run_bind_of_ok hloop, hshrink]
  · rw [dropped_shrinkToFit hshrink, ht]
    rfl

end Drop

/-- An instance in which nothing is shared drops what is in its cells, and
nothing else. -/
theorem run_drop_instance {s : ProtoAll D} (hs : Coherent s) (hun : s.Unshared)
    (hd : s.Disposable) : ∃ u, Audit.dropStorage.run ⟨s.mem, []⟩ = .ok () u ∧
      (u.mem.heap.dropped : Multiset (Datum D)) =
        Holdings.total s.r.spaces.length (fun l => (s.held l).bind s.heap.read) +
          s.heap.dropped := by
  obtain ⟨u, hrun, hu⟩ := run_dropStorage_dropped (m := s.mem) hd.storage fun q hq => by
    obtain ⟨l, hl⟩ := (hs.owned q).1 hq
    exact hs.full l q hl
  have hkeys : (s.mem.storage.owned.keys : Multiset Ptr) =
      Holdings.total s.r.spaces.length s.held := by
    refine (Multiset.Nodup.ext (Multiset.coe_nodup.2 (AList.keys_nodup _))
      (Holdings.nodup_total fun p q a hp hq => ?_)).2 fun q => ?_
    · exact hun p q a hp hq
    · rw [Multiset.mem_coe, ← AList.mem_keys, Holdings.mem_total]
      refine (hs.owned q).trans ⟨?_, ?_⟩
      · rintro ⟨l, hl⟩
        exact ⟨l, ProtoAll.lt_length_of_held hl, hl⟩
      · rintro ⟨l, -, hl⟩
        exact ⟨l, hl⟩
  refine ⟨u, hrun, ?_⟩
  rw [hu, hkeys, Holdings.filterMap_total]
  rfl

end ReoRs
