import ReoRs.Proofs.Storage
import ReoRs.Proto.Audit

/-!
# Every slot of the storage is in one place

Slots change hands between three maps: the allocator's, the free lists and
`owned`. `Accounted` says what the three have to do with each other and with
the pointers the client holds: a pointer got from the allocator and not given
back is held, and then owned as the type it was handed out for, or it is once
in the free list of its own layout and in no other.

A step moves one pointer, so each case of the invariant is about that pointer
and the rest is carried over. `Drop` then makes, for each pointer, just the
calls its place calls for.
-/

namespace ReoRs

variable {D : Type}

open Storage

/-! ## What the operations do to the maps -/

/-- The two ways a slot is found: on the free list of its layout, or new. -/
inductive Obtained (info : TypeInfo D) (m : Mem D) (dest : Ptr) (m' : Mem D) : Prop where
  | reused {rest : List Ptr} (hfree : m.storage.free.lookup info.layout = some (dest :: rest))
      (hfree' : m'.storage.free = m.storage.free.insert info.layout rest)
      (hlive : m'.heap.live = m.heap.live) (hallocs : m'.heap.allocs = m.heap.allocs)
  | allocated {a : Nat} (hfree : (m.storage.free.lookup info.layout).getD [] = [])
      (hfree' : m'.storage.free = m.storage.free.insert info.layout [])
      (hdest : dest = .store a) (hfresh : a ∉ m.heap.live)
      (hlive : m'.heap.live = a :: m.heap.live)
      (hallocs : m'.heap.allocs = m.heap.allocs + 1)

/-- What a computation that hands out a slot for a type comes to. -/
structure HandsOut (info : TypeInfo D) (x : MemM D Ptr) : Prop where
  owned : ∀ {m dest m'}, x.run m = .ok dest m' →
    m'.storage.owned = m.storage.owned.insert dest info.typeId
  typeInfo : ∀ {m dest m'}, x.run m = .ok dest m' →
    m'.storage.typeInfo = (m.storage.noteType info).typeInfo
  obtained : ∀ {m dest m'}, x.run m = .ok dest m' → Obtained info m dest m'

theorem noteType_free (s : Storage D) (info : TypeInfo D) :
    (s.noteType info).free = s.free ∧ (s.noteType info).owned = s.owned := by
  rw [noteType]
  split <;> exact ⟨rfl, rfl⟩

theorem lookup_noteType (s : Storage D) (info : TypeInfo D) {t : TypeId} {found : TypeInfo D}
    (h : (s.noteType info).typeInfo.lookup t = some found) :
    s.typeInfo.lookup t = some found ∨ (t = info.typeId ∧ found = info) := by
  rw [noteType] at h
  split at h
  · exact .inl h
  · by_cases ht : t = info.typeId
    · rw [ht, AList.lookup_insert] at h
      exact .inr ⟨ht, (Option.some.inj h).symm⟩
    · rw [AList.lookup_insert_ne ht] at h
      exact .inl h

theorem lookup_noteType_of_lookup {s : Storage D} {t : TypeId} {found : TypeInfo D}
    (h : s.typeInfo.lookup t = some found) (info : TypeInfo D) :
    (s.noteType info).typeInfo.lookup t = some found := by
  rw [noteType]
  split
  · exact h
  · next hnone =>
      have hne : t ≠ info.typeId := by
        rintro rfl
        rw [hnone] at h
        cases h
      rw [AList.lookup_insert_ne hne]
      exact h

theorem lookup_noteType_self (s : Storage D) (info : TypeInfo D) :
    ∃ found, (s.noteType info).typeInfo.lookup info.typeId = some found := by
  rw [noteType]
  split
  · next found hfound => exact ⟨found, hfound⟩
  · exact ⟨info, AList.lookup_insert _⟩

theorem handsOut_alloc (info : TypeInfo D) : HandsOut info (Storage.alloc info) := by
  have hcases : ∀ {m : Mem D} {dest : Ptr} {m' : Mem D}, (Storage.alloc info).run m = .ok dest m' →
      m'.storage.owned = m.storage.owned.insert dest info.typeId ∧
        m'.storage.typeInfo = (m.storage.noteType info).typeInfo ∧ Obtained info m dest m' := by
    intro m dest m' h
    obtain ⟨hfree, howned⟩ := noteType_free m.storage info
    rw [Storage.alloc, EStateM.run_bind, EStateM.run_modify] at h
    simp only [EStateM.run_bind, EStateM.run_get, EStateM.run_set] at h
    cases hstack : (m.storage.free.lookup info.layout).getD [] with
    | cons top rest =>
        have hlookup : m.storage.free.lookup info.layout = some (top :: rest) := by
          cases hl : m.storage.free.lookup info.layout with
          | none =>
              rw [hl] at hstack
              cases hstack
          | some stack =>
              rw [hl] at hstack
              exact congrArg some hstack
        rw [popFree, hfree, hstack] at h
        simp only [howned] at h
        split at h
        · cases h
        · cases h
          exact ⟨rfl, rfl, .reused hlookup rfl rfl rfl⟩
    | nil =>
        rw [popFree, hfree, hstack] at h
        simp only [howned] at h
        split at h
        · cases h
        · cases h
          exact ⟨rfl, rfl, .allocated hstack rfl rfl
            (m.heap.global.fresh m.heap.allocs m.heap.live info.layout) rfl rfl⟩
  exact ⟨fun h => (hcases h).1, fun h => (hcases h).2.1, fun h => (hcases h).2.2⟩

/-- Writing to the slot once it is allocated changes none of the maps. -/
theorem HandsOut.bind {info : TypeInfo D} {x : MemM D Ptr} (hx : HandsOut info x)
    {f : Ptr → MemM D Unit}
    (hf : ∀ {dest m m'}, (f dest).run m = .ok () m' → m'.storage = m.storage ∧
      m'.heap.live = m.heap.live ∧ m'.heap.allocs = m.heap.allocs) :
    HandsOut info (x >>= fun dest => f dest >>= fun _ => pure dest) := by
  have hcases : ∀ {m dest m'}, (x >>= fun dest => f dest >>= fun _ => pure dest).run m =
      .ok dest m' → ∃ m₁, x.run m = .ok dest m₁ ∧ m'.storage = m₁.storage ∧
        m'.heap.live = m₁.heap.live ∧ m'.heap.allocs = m₁.heap.allocs := by
    intro m dest m' h
    obtain ⟨dest₁, m₁, hrun, h⟩ := Effect.ok_of_bind_ok h
    obtain ⟨_, m₂, hwrite, h⟩ := Effect.ok_of_bind_ok h
    cases h
    exact ⟨m₁, hrun, hf hwrite⟩
  refine ⟨fun h => ?_, fun h => ?_, fun h => ?_⟩
  · obtain ⟨m₁, hrun, hs, -⟩ := hcases h
    rw [hs, hx.owned hrun]
  · obtain ⟨m₁, hrun, hs, -⟩ := hcases h
    rw [hs, hx.typeInfo hrun]
  · obtain ⟨m₁, hrun, hs, hl, ha⟩ := hcases h
    cases hx.obtained hrun with
    | reused hfree hfree' hlive hallocs =>
        exact .reused hfree (by rw [hs, hfree']) (by rw [hl, hlive]) (by rw [ha, hallocs])
    | allocated hfree hfree' hdest hfresh hlive hallocs =>
        exact .allocated hfree (by rw [hs, hfree']) hdest hfresh (by rw [hl, hlive])
          (by rw [ha, hallocs])

theorem liftHeap_cases {f : Heap D → Except Fault (Heap D)} {m m' : Mem D}
    (h : (liftHeap f).run m = .ok () m') : ∃ heap, f m.heap = .ok heap ∧ m' = { m with heap } := by
  rw [liftHeap, EStateM.run_bind, EStateM.run_get] at h
  dsimp only at h
  split at h
  · next heap hf =>
      cases h
      exact ⟨heap, hf, rfl⟩
  · cases h

theorem handsOut_moveIn (src : Ptr) (info : TypeInfo D) :
    HandsOut info (Storage.moveIn src info) := by
  refine (handsOut_alloc info).bind ?_
  intro dest m m' h
  obtain ⟨heap, hcopy, rfl⟩ := liftHeap_cases h
  rw [TypeInfo.copyFnExecute] at hcopy
  cases hv : info.copied src m.heap with
  | error e =>
      rw [hv] at hcopy
      cases hcopy
  | ok v =>
      rw [hv] at hcopy
      cases hcopy
      exact ⟨rfl, rfl, rfl⟩

theorem handsOut_cloneIn (src : Ptr) (info : TypeInfo D) :
    HandsOut info (Storage.cloneIn src info) := by
  refine (handsOut_alloc info).bind ?_
  intro dest m m' h
  obtain ⟨heap, hclone, rfl⟩ := liftHeap_cases h
  rw [CloneFn.execute] at hclone
  cases hv : info.funcs.clone.cloned src m.heap with
  | error e =>
      rw [hv] at hclone
      cases hclone
  | ok v =>
      rw [hv] at hclone
      cases hclone
      exact ⟨rfl, rfl, rfl⟩

theorem handsOut_moveValueIn (info : TypeInfo D) (value : Datum D) :
    HandsOut info (Storage.moveValueIn info value) := by
  refine (handsOut_alloc info).bind ?_
  intro dest m m' h
  cases h
  exact ⟨rfl, rfl, rfl⟩

theorem innerFree_cases {ptr : Ptr} {layout : Layout} {m m' : Mem D}
    (h : (innerFree ptr layout).run m = .ok () m') :
    ∃ stack, m.storage.free.lookup layout = some stack ∧
      m' = { m with storage := { m.storage with
        owned := m.storage.owned.erase ptr
        free := m.storage.free.insert layout (ptr :: stack) } } := by
  rw [innerFree, EStateM.run_bind, EStateM.run_get] at h
  dsimp only at h
  split at h
  · cases h
  · rw [EStateM.run_bind, EStateM.run_set] at h
    dsimp only at h
    split at h
    · cases h
    · next stack hstack =>
        cases h
        exact ⟨stack, hstack, rfl⟩

/-! ## The record of calls -/

theorem run_onMem_cases {α : Type} {x : MemM D α} {s t : Audit D} {a : α}
    (h : (Audit.onMem x).run s = .ok a t) :
    ∃ m, x.run s.mem = .ok a m ∧ t = { s with mem := m } := Effect.ok_of_zoom_ok h

theorem run_onMem_of_ok {α : Type} {x : MemM D α} {s : Audit D} {m : Mem D} {a : α}
    (h : x.run s.mem = .ok a m) : (Audit.onMem x).run s = .ok a { s with mem := m } :=
  Effect.run_zoom_of_ok h

/-- A slot handed out goes on record when it is new. -/
theorem handOut_cases {info : TypeInfo D} {x : MemM D Ptr} {s t : Audit D} {dest : Ptr}
    (h : (Audit.handOut info x).run s = .ok dest t) :
    x.run s.mem = .ok dest t.mem ∧
      t.calls = if t.mem.heap.allocs ≠ s.mem.heap.allocs then .alloc dest info.layout :: s.calls
        else s.calls := by
  rw [Audit.handOut, EStateM.run_bind, EStateM.run_get] at h
  obtain ⟨dest', s₁, hx, h⟩ := Effect.ok_of_bind_ok h
  obtain ⟨m, hrun, rfl⟩ := run_onMem_cases hx
  rw [EStateM.run_bind, EStateM.run_get] at h
  dsimp only at h
  by_cases hne : m.heap.allocs ≠ s.mem.heap.allocs
  · rw [if_pos hne] at h
    cases h
    exact ⟨hrun, (if_pos hne).symm⟩
  · rw [if_neg hne] at h
    cases h
    exact ⟨hrun, (if_neg hne).symm⟩

theorem dropExecute_cases {info : TypeInfo D} {ptr : Ptr} {s t : Audit D}
    (h : (Audit.dropExecute info ptr).run s = .ok () t) :
    t.mem.storage = s.mem.storage ∧ t.mem.heap.live = s.mem.heap.live ∧
      t.calls = .drop ptr info.typeId :: s.calls := by
  obtain ⟨_, s₁, hexec, h⟩ := Effect.ok_of_bind_ok h
  obtain ⟨m, hrun, rfl⟩ := run_onMem_cases hexec
  obtain ⟨heap, hdrop, rfl⟩ := liftHeap_cases hrun
  cases h
  refine ⟨rfl, ?_, rfl⟩
  rw [DropFn.execute.eq_def] at hdrop
  split at hdrop
  · cases hdrop
    rfl
  · split at hdrop
    · cases hdrop
      rfl
    · cases hdrop

@[simp] theorem Client.handed_held_self (s : Client D) (audit : Audit D) (ptr : Ptr)
    (info : TypeInfo D) : (s.handed audit ptr info).held ptr = some info := by
  simp only [Client.handed, Function.update_self]

theorem Client.handed_held_ne (s : Client D) (audit : Audit D) {ptr q : Ptr} (info : TypeInfo D)
    (hq : q ≠ ptr) : (s.handed audit ptr info).held q = s.held q := by
  simp only [Client.handed, Function.update_of_ne hq]

@[simp] theorem Client.released_held_self (s : Client D) (audit : Audit D) (ptr : Ptr) :
    (s.released audit ptr).held ptr = none := by
  simp only [Client.released, Function.update_self]

theorem Client.released_held_ne (s : Client D) (audit : Audit D) {ptr q : Ptr} (hq : q ≠ ptr) :
    (s.released audit ptr).held q = s.held q := by
  simp only [Client.released, Function.update_of_ne hq]

/-! ## The invariant -/

/-- A pointer obtained from the allocator is held, or it is in the free list
of its layout. -/
structure Accounted (types : TypeId → TypeInfo D) (s : Client D) : Prop where
  owned : ∀ ptr, s.storage.owned.lookup ptr = (s.held ptr).map TypeInfo.typeId
  known : ∀ t found, s.storage.typeInfo.lookup t = some found → found = types t
  held_known : ∀ ptr info, s.held ptr = some info →
    s.storage.typeInfo.lookup info.typeId = some info
  held_layout : ∀ ptr info, s.held ptr = some info → s.layoutOf ptr = some info.layout
  free_once : ∀ ptr layout, s.held ptr = none → s.layoutOf ptr = some layout →
    (s.freeList layout).count ptr = 1
  free_own : ∀ ptr layout, ptr ∈ s.freeList layout →
    s.held ptr = none ∧ s.layoutOf ptr = some layout
  live : ∀ ptr layout, s.layoutOf ptr = some layout → ∃ a ∈ s.heap.live, ptr = .store a

theorem getD_lookup_insert (free : HashMap Layout (List Ptr)) (layout l : Layout)
    (stack : List Ptr) :
    ((free.insert layout stack).lookup l).getD [] =
      if l = layout then stack else (free.lookup l).getD [] := by
  split
  · next h => rw [h, AList.lookup_insert, Option.getD_some]
  · next h => rw [AList.lookup_insert_ne h]

theorem accounted_start (types : TypeId → TypeInfo D) (heap : Heap D) :
    Accounted types (.start heap) where
  owned := fun ptr => rfl
  known := fun t found h => by cases h
  held_known := fun ptr info h => by cases h
  held_layout := fun ptr info h => by cases h
  free_once := fun ptr layout _ h => by cases h
  free_own := fun ptr layout h => by cases h
  live := fun ptr layout h => by cases h

variable {types : TypeId → TypeInfo D} {s : Client D}

theorem Accounted.held_type (h : Accounted types s) {ptr : Ptr} {info : TypeInfo D}
    (hheld : s.held ptr = some info) : info = types info.typeId :=
  h.known _ _ (h.held_known ptr info hheld)

theorem Accounted.mem_owned (h : Accounted types s) (ptr : Ptr) :
    ptr ∈ s.storage.owned ↔ s.held ptr ≠ none := by
  rw [← AList.lookup_isSome, h.owned, Option.isSome_map, Option.isSome_iff_ne_none]

/-- A slot the client holds, or one on a free list, is not new. -/
theorem Accounted.layoutOf_fresh (h : Accounted types s) {a : Nat} (ha : a ∉ s.heap.live) :
    s.layoutOf (.store a) = none := by
  cases hl : s.layoutOf (.store a) with
  | none => rfl
  | some layout =>
      obtain ⟨b, hb, heq⟩ := h.live _ _ hl
      cases heq
      exact absurd hb ha

theorem Accounted.held_of_layoutOf_none (h : Accounted types s) {ptr : Ptr}
    (hnone : s.layoutOf ptr = none) : s.held ptr = none := by
  cases hheld : s.held ptr with
  | none => rfl
  | some info =>
      rw [h.held_layout ptr info hheld] at hnone
      cases hnone

/-- The slot a request is served with was nobody's, and is of the layout asked
for whichever way it was found. -/
theorem Accounted.handOut (h : Accounted types s) {info : TypeInfo D} {x : MemM D Ptr}
    (hx : HandsOut info x) (htype : info = types info.typeId) {dest : Ptr} {audit : Audit D}
    (hrun : (Audit.handOut info x).run s.audit = .ok dest audit) :
    s.held dest = none ∧ (s.handed audit dest info).layoutOf dest = some info.layout ∧
      Accounted types (s.handed audit dest info) := by
  obtain ⟨hmem, hcalls⟩ := handOut_cases hrun
  have howned := hx.owned hmem
  have htypeInfo := hx.typeInfo hmem
  -- what the two ways of finding the slot have in common
  obtain ⟨hnone, hlayout, hlayouts, hfree, hout, hlive⟩ :
      s.held dest = none ∧ Call.layoutOf audit.calls dest = some info.layout ∧
        (∀ ptr, ptr ≠ dest → Call.layoutOf audit.calls ptr = s.layoutOf ptr) ∧
        (∀ l, ∀ ptr, ptr ≠ dest → ((audit.mem.storage.free.lookup l).getD []).count ptr =
            (s.freeList l).count ptr) ∧
        (∀ l, dest ∉ (audit.mem.storage.free.lookup l).getD []) ∧
        (∀ ptr layout, Call.layoutOf audit.calls ptr = some layout →
          ∃ a ∈ audit.mem.heap.live, ptr = .store a) := by
    cases hx.obtained hmem with
    | @reused rest hfree hfree' hlive hallocs =>
        have hlist : s.freeList info.layout = dest :: rest := by
          show (s.audit.mem.storage.free.lookup info.layout).getD [] = _
          rw [hfree, Option.getD_some]
        obtain ⟨hnone, hlayout⟩ := h.free_own dest info.layout (hlist ▸ List.mem_cons_self)
        have honce := h.free_once dest info.layout hnone hlayout
        rw [hlist, List.count_cons_self] at honce
        have hrest : dest ∉ rest := List.count_eq_zero.1 (by omega)
        rw [hallocs, if_neg (fun hne => hne rfl)] at hcalls
        refine ⟨hnone, by rw [hcalls]; exact hlayout, fun ptr _ => by rw [hcalls]; rfl, ?_, ?_, ?_⟩
        · intro l ptr hne
          rw [hfree', getD_lookup_insert]
          split
          · next hl => rw [hl, hlist, List.count_cons_of_ne hne.symm]
          · rfl
        · intro l hmem'
          rw [hfree', getD_lookup_insert] at hmem'
          split at hmem'
          · exact hrest hmem'
          · next hl =>
              have := (h.free_own dest l hmem').2
              rw [hlayout] at this
              exact hl (Option.some.inj this).symm
        · intro ptr layout hptr
          rw [hcalls] at hptr
          rw [hlive]
          exact h.live ptr layout hptr
    | @allocated a hfree hfree' hdest hfresh hlive hallocs =>
        have hlayout : s.layoutOf dest = none := hdest ▸ h.layoutOf_fresh hfresh
        have hlists : ∀ l, (audit.mem.storage.free.lookup l).getD [] = s.freeList l := by
          intro l
          rw [hfree', getD_lookup_insert]
          split
          · next hl => rw [hl]; exact hfree.symm
          · rfl
        rw [hallocs, if_pos (by omega)] at hcalls
        refine ⟨h.held_of_layoutOf_none hlayout, ?_, ?_, ?_, ?_, ?_⟩
        · rw [hcalls, Call.layoutOf, Function.update_self]
        · intro ptr hne
          rw [hcalls, Call.layoutOf, Function.update_of_ne hne]
          rfl
        · intro l ptr _
          rw [hlists]
        · intro l hmem'
          rw [hlists] at hmem'
          rw [(h.free_own dest l hmem').2] at hlayout
          cases hlayout
        · intro ptr layout hptr
          rw [hlive]
          by_cases hd : ptr = dest
          · exact ⟨a, List.mem_cons_self, hd.trans hdest⟩
          · rw [hcalls, Call.layoutOf, Function.update_of_ne hd] at hptr
            obtain ⟨b, hb, hb'⟩ := h.live ptr layout hptr
            exact ⟨b, List.mem_cons_of_mem a hb, hb'⟩
  refine ⟨hnone, hlayout, ?_⟩
  -- the client's pointers are those of before and the new one
  have hheld : ∀ {ptr found}, (s.handed audit dest info).held ptr = some found →
      (ptr = dest ∧ found = info) ∨ (ptr ≠ dest ∧ s.held ptr = some found) := by
    intro ptr found hp
    by_cases hd : ptr = dest
    · subst hd
      rw [Client.handed_held_self] at hp
      exact .inl ⟨rfl, (Option.some.inj hp).symm⟩
    · rw [Client.handed_held_ne _ _ _ hd] at hp
      exact .inr ⟨hd, hp⟩
  have hfresh : ∀ {ptr}, (s.handed audit dest info).held ptr = none →
      ptr ≠ dest ∧ s.held ptr = none := by
    intro ptr hp
    by_cases hd : ptr = dest
    · rw [hd, Client.handed_held_self] at hp
      cases hp
    · rw [Client.handed_held_ne _ _ _ hd] at hp
      exact ⟨hd, hp⟩
  constructor
  case owned =>
    intro ptr
    show audit.mem.storage.owned.lookup ptr = _
    rw [howned]
    by_cases hd : ptr = dest
    · rw [hd, AList.lookup_insert, Client.handed_held_self]
      rfl
    · rw [AList.lookup_insert_ne hd, Client.handed_held_ne _ _ _ hd]
      exact h.owned ptr
  case known =>
    intro t found hfound
    replace hfound : audit.mem.storage.typeInfo.lookup t = some found := hfound
    rw [htypeInfo] at hfound
    rcases lookup_noteType _ info hfound with hold | ⟨rfl, rfl⟩
    · exact h.known t found hold
    · exact htype
  case held_known =>
    intro ptr found hp
    show audit.mem.storage.typeInfo.lookup found.typeId = some found
    rw [htypeInfo]
    rcases hheld hp with ⟨-, rfl⟩ | ⟨-, hp⟩
    · obtain ⟨other, hother⟩ := lookup_noteType_self s.audit.mem.storage found
      rcases lookup_noteType _ found hother with hold | ⟨-, rfl⟩
      · rw [hother, h.known _ other hold, ← htype]
      · exact hother
    · exact lookup_noteType_of_lookup (h.held_known ptr found hp) info
  case held_layout =>
    intro ptr found hp
    rcases hheld hp with ⟨rfl, rfl⟩ | ⟨hd, hp⟩
    · exact hlayout
    · exact (hlayouts ptr hd).trans (h.held_layout ptr found hp)
  case free_once =>
    intro ptr layout hp hl
    obtain ⟨hd, hp⟩ := hfresh hp
    exact (hfree layout ptr hd).trans
      (h.free_once ptr layout hp ((hlayouts ptr hd).symm.trans hl))
  case free_own =>
    intro ptr layout hp
    have hd : ptr ≠ dest := by
      rintro rfl
      exact hout layout hp
    have hp' : ptr ∈ s.freeList layout := by
      rw [← List.count_pos_iff, ← hfree layout ptr hd]
      exact List.count_pos_iff.2 hp
    obtain ⟨hn, hl⟩ := h.free_own ptr layout hp'
    exact ⟨(s.handed_held_ne audit info hd).trans hn, (hlayouts ptr hd).trans hl⟩
  case live => exact hlive

/-- A slot that is released joins the free list of its layout. -/
theorem Accounted.release (h : Accounted types s) {ptr : Ptr} {info : TypeInfo D}
    (hheld : s.held ptr = some info) {audit : Audit D}
    (hlayouts : Call.layoutOf audit.calls = s.layoutOf)
    (hlive : audit.mem.heap.live = s.heap.live) {stack : List Ptr}
    (hstack : s.storage.free.lookup info.layout = some stack)
    (hstorage : audit.mem.storage = { s.storage with
      owned := s.storage.owned.erase ptr
      free := s.storage.free.insert info.layout (ptr :: stack) }) :
    Accounted types (s.released audit ptr) := by
  have hlist : s.freeList info.layout = stack := by
    show (s.audit.mem.storage.free.lookup info.layout).getD [] = _
    rw [show s.audit.mem.storage.free.lookup info.layout = some stack from hstack]
    rfl
  have hout : ∀ l, ptr ∉ s.freeList l := by
    intro l hmem
    rw [(h.free_own ptr l hmem).1] at hheld
    cases hheld
  have hlists : ∀ l, (s.released audit ptr).freeList l =
      if l = info.layout then ptr :: stack else s.freeList l := by
    intro l
    show (audit.mem.storage.free.lookup l).getD [] = _
    rw [hstorage, getD_lookup_insert]
    rfl
  have hothers : ∀ {q found}, (s.released audit ptr).held q = some found →
      q ≠ ptr ∧ s.held q = some found := by
    intro q found hq
    by_cases hd : q = ptr
    · rw [hd, Client.released_held_self] at hq
      cases hq
    · rw [Client.released_held_ne _ _ hd] at hq
      exact ⟨hd, hq⟩
  constructor
  case owned =>
    intro q
    show audit.mem.storage.owned.lookup q = _
    rw [hstorage]
    by_cases hd : q = ptr
    · rw [hd, AList.lookup_erase, Client.released_held_self]
      rfl
    · rw [AList.lookup_erase_ne hd, Client.released_held_ne _ _ hd]
      exact h.owned q
  case known =>
    intro t found hfound
    replace hfound : audit.mem.storage.typeInfo.lookup t = some found := hfound
    rw [hstorage] at hfound
    exact h.known t found hfound
  case held_known =>
    intro q found hq
    show audit.mem.storage.typeInfo.lookup found.typeId = some found
    rw [hstorage]
    exact h.held_known q found (hothers hq).2
  case held_layout =>
    intro q found hq
    exact (congrFun hlayouts q).trans (h.held_layout q found (hothers hq).2)
  case free_once =>
    intro q layout hq hl
    replace hl : s.layoutOf q = some layout := (congrFun hlayouts q).symm.trans hl
    rw [hlists]
    by_cases hd : q = ptr
    · subst hd
      rw [h.held_layout q info hheld] at hl
      rw [if_pos (Option.some.inj hl).symm, List.count_cons_self,
        List.count_eq_zero.2 (hlist ▸ hout info.layout)]
    · rw [Client.released_held_ne _ _ hd] at hq
      split
      · next hlayout =>
          rw [List.count_cons_of_ne (Ne.symm hd), ← hlist, ← hlayout]
          exact h.free_once q layout hq hl
      · exact h.free_once q layout hq hl
  case free_own =>
    intro q layout hq
    rw [hlists] at hq
    have hcases : (q = ptr ∧ layout = info.layout) ∨ q ∈ s.freeList layout := by
      split at hq
      · next hl =>
          rcases List.mem_cons.1 hq with rfl | hq
          · exact .inl ⟨rfl, hl⟩
          · exact .inr (by rw [hl, hlist]; exact hq)
      · exact .inr hq
    clear hq
    rcases hcases with ⟨rfl, rfl⟩ | hq
    · exact ⟨s.released_held_self audit q,
        (congrFun hlayouts q).trans (h.held_layout q info hheld)⟩
    · have hd : q ≠ ptr := by
        rintro rfl
        exact hout layout hq
      obtain ⟨hn, hl⟩ := h.free_own q layout hq
      exact ⟨(s.released_held_ne audit hd).trans hn, (congrFun hlayouts q).trans hl⟩
  case live =>
    intro q layout hq
    show ∃ a ∈ audit.mem.heap.live, q = .store a
    rw [hlive]
    exact h.live q layout ((congrFun hlayouts q).symm.trans hq)

/-! ## Giving memory back -/

/-- The calls `made`, oldest first, lead from one audit to another; they touch
the memory at their own pointers only. -/
structure Made (made : List Call) (s t : Audit D) : Prop where
  storage : t.mem.storage = s.mem.storage
  calls : t.calls = made.reverse ++ s.calls
  live : ∀ a ∈ s.mem.heap.live, (∀ c ∈ made, c.ptr ≠ .store a) → a ∈ t.mem.heap.live
  read : ∀ q, (∀ c ∈ made, c.ptr ≠ q) → t.mem.heap.read q = s.mem.heap.read q

theorem Made.refl (s : Audit D) : Made [] s s :=
  ⟨rfl, rfl, fun _ ha _ => ha, fun _ _ => rfl⟩

theorem Made.append {c₁ c₂ : List Call} {s t u : Audit D} (h₁ : Made c₁ s t) (h₂ : Made c₂ t u) :
    Made (c₁ ++ c₂) s u where
  storage := h₂.storage.trans h₁.storage
  calls := by rw [h₂.calls, h₁.calls, List.reverse_append, List.append_assoc]
  live := fun a ha hne => h₂.live a
    (h₁.live a ha fun c hc => hne c (List.mem_append_left c₂ hc))
    fun c hc => hne c (List.mem_append_right c₁ hc)
  read := fun q hne => (h₂.read q fun c hc => hne c (List.mem_append_right c₁ hc)).trans
    (h₁.read q fun c hc => hne c (List.mem_append_left c₂ hc))

theorem run_dealloc (ptr : Ptr) (layout : Layout) (s : Audit D) :
    ∃ t, (Audit.dealloc ptr layout).run s = .ok () t ∧ Made [.dealloc ptr layout] s t := by
  refine ⟨_, rfl, rfl, rfl, ?_, ?_⟩
  · intro a ha hne
    have hp : ptr ≠ .store a := hne (.dealloc ptr layout) List.mem_cons_self
    cases ptr with
    | store b =>
        have hab : a ≠ b := by
          rintro rfl
          exact hp rfl
        exact (List.mem_erase_of_ne hab).2 ha
    | null | stack port | constant b => exact ha
  · intro q hne
    have hp : q ≠ ptr := (hne (.dealloc ptr layout) List.mem_cons_self).symm
    cases ptr with
    | store b => exact Heap.read_write_ne s.mem.heap none hp
    | null | stack port | constant b => rfl

/-- A loop whose every round makes known calls makes them all. -/
theorem run_forEach_made {α : Type} {f : α → AuditM D Unit} {calls : α → List Call}
    (hf : ∀ x s, ∃ t, (f x).run s = .ok () t ∧ Made (calls x) s t) (xs : List α) (s : Audit D) :
    ∃ t, (Effect.forEach f xs).run s = .ok () t ∧ Made (xs.flatMap calls) s t := by
  induction xs generalizing s with
  | nil => exact ⟨s, rfl, Made.refl s⟩
  | cons x xs ih =>
      obtain ⟨t, hx, hmade⟩ := hf x s
      obtain ⟨u, hxs, hrest⟩ := ih t
      refine ⟨u, ?_, ?_⟩
      · rw [Effect.run_forEach_cons, Effect.run_bind_of_ok hx, hxs]
      · rw [List.flatMap_cons]
        exact hmade.append hrest

/-- The calls that empty the free lists. -/
def freeCalls (free : HashMap Layout (List Ptr)) : List Call :=
  free.entries.flatMap fun entry => entry.2.reverse.map fun ptr => .dealloc ptr entry.1

theorem run_shrinkToFit (s : Audit D) :
    ∃ t, Audit.shrinkToFit.run s = .ok () t ∧
      Made (freeCalls s.mem.storage.free)
        { s with mem := { s.mem with storage := { s.mem.storage with free := ∅ } } } t := by
  refine run_forEach_made (fun entry s => ?_) s.mem.storage.free.entries _
  obtain ⟨t, hrun, hmade⟩ := run_forEach_made (fun ptr => run_dealloc ptr entry.1)
    entry.2.reverse s
  refine ⟨t, hrun, ?_⟩
  rw [List.map_eq_flatMap]
  exact hmade

/-! ## The calls about one pointer -/

/-- In a list with each key once, an expansion that is empty at every other
key is that of the one key. -/
theorem flatMap_of_nodupKeys {K V C : Type} [DecidableEq K] {f : ((_ : K) × V) → List C} {k : K} :
    ∀ {l : List ((_ : K) × V)}, l.NodupKeys → (∀ e ∈ l, e.1 ≠ k → f e = []) →
      l.flatMap f = ((l.dlookup k).map fun v => f ⟨k, v⟩).getD []
  | [], _, _ => rfl
  | ⟨k', v⟩ :: l, hl, hf => by
      rw [List.nodupKeys_cons] at hl
      rw [List.flatMap_cons]
      have ih := flatMap_of_nodupKeys hl.2 fun e he => hf e (List.mem_cons_of_mem _ he)
      by_cases hk : k' = k
      · subst hk
        have hnone : l.dlookup k' = none := List.dlookup_eq_none.2 hl.1
        rw [ih, hnone, List.dlookup_cons_eq]
        exact List.append_nil _
      · rw [hf ⟨k', v⟩ List.mem_cons_self hk, List.nil_append, ih,
          List.dlookup_cons_ne _ _ (Ne.symm hk)]

theorem filter_map_dealloc (ptr : Ptr) (layout : Layout) (ptrs : List Ptr) :
    (ptrs.map fun p => Call.dealloc p layout).filter (·.ptr = ptr) =
      List.replicate (ptrs.count ptr) (.dealloc ptr layout) := by
  have hcomp : ptrs.filter ((fun c : Call => decide (c.ptr = ptr)) ∘
      fun p => Call.dealloc p layout) = ptrs.filter (· = ptr) := rfl
  rw [List.filter_map, hcomp, List.filter_eq, List.map_replicate]

/-- Emptying the free lists deallocates what the client does not hold, with
its layout. -/
theorem Accounted.filter_freeCalls (h : Accounted types s) (ptr : Ptr) :
    (freeCalls s.storage.free).filter (·.ptr = ptr) =
      if (s.held ptr).isNone then ((s.layoutOf ptr).map (Call.dealloc ptr)).toList else [] := by
  have hentry : ∀ e ∈ s.storage.free.entries, s.freeList e.1 = e.2 := by
    intro e he
    have hlookup : s.storage.free.lookup e.1 = some e.2 := AList.mem_lookup_iff.2 he
    rw [Client.freeList, hlookup, Option.getD_some]
  have hempty : ∀ e ∈ s.storage.free.entries, ptr ∉ e.2 →
      (e.2.reverse.map fun p => Call.dealloc p e.1).filter (·.ptr = ptr) = [] := by
    intro e _ hp
    rw [filter_map_dealloc, List.count_reverse, List.count_eq_zero.2 hp, List.replicate_zero]
  rw [freeCalls, List.filter_flatMap]
  cases hlayout : s.layoutOf ptr with
  | none =>
      rw [Option.map_none, Option.toList_none, ite_self, List.flatMap_eq_nil_iff]
      intro e he
      refine hempty e he fun hp => ?_
      rw [← hentry e he] at hp
      rw [(h.free_own ptr e.1 hp).2] at hlayout
      cases hlayout
  | some layout =>
      rw [flatMap_of_nodupKeys (k := layout) s.storage.free.nodupKeys]
      · show ((s.storage.free.lookup layout).map _).getD [] = _
        cases hstack : s.storage.free.lookup layout with
        | none =>
            cases hheld : s.held ptr with
            | some info => rfl
            | none =>
                have honce := h.free_once ptr layout hheld hlayout
                rw [Client.freeList, hstack] at honce
                cases honce
        | some stack =>
            have hlist : s.freeList layout = stack := by
              rw [Client.freeList, hstack, Option.getD_some]
            rw [Option.map_some, Option.getD_some, filter_map_dealloc, List.count_reverse]
            cases hheld : s.held ptr with
            | none =>
                have honce := h.free_once ptr layout hheld hlayout
                rw [hlist] at honce
                rw [honce]
                rfl
            | some info =>
                have hout : ptr ∉ stack := by
                  intro hp
                  rw [(h.free_own ptr layout (hlist ▸ hp)).1] at hheld
                  cases hheld
                rw [List.count_eq_zero.2 hout]
                rfl
      · intro e he hne
        refine hempty e he fun hp => ?_
        rw [← hentry e he] at hp
        have := (h.free_own ptr e.1 hp).2
        rw [hlayout] at this
        exact hne (Option.some.inj this).symm

/-- The calls `Drop` makes for what is owned. -/
def ownedCalls (types : TypeId → TypeInfo D) (owned : HashMap Ptr TypeId) : List Call :=
  owned.entries.flatMap fun entry =>
    [.drop entry.1 (types entry.2).typeId, .dealloc entry.1 (types entry.2).layout]

theorem Accounted.filter_ownedCalls (h : Accounted types s) (ptr : Ptr) :
    (ownedCalls types s.storage.owned).filter (·.ptr = ptr) =
      ((s.held ptr).map fun info =>
        [Call.drop ptr info.typeId, Call.dealloc ptr info.layout]).getD [] := by
  rw [ownedCalls, List.filter_flatMap, flatMap_of_nodupKeys (k := ptr) s.storage.owned.nodupKeys]
  · show ((s.storage.owned.lookup ptr).map _).getD [] = _
    rw [h.owned]
    cases hheld : s.held ptr with
    | none => rfl
    | some info =>
        rw [Option.map_some, Option.map_some, Option.map_some, Option.getD_some,
          ← h.held_type hheld]
        simp [Call.ptr]
  · intro e he hne
    simp [Call.ptr, hne]

/-! ## What a run of the client keeps -/

theorem layoutOf_filter (ptr : Ptr) (calls : List Call) :
    Call.layoutOf (calls.filter (·.ptr = ptr)) ptr = Call.layoutOf calls ptr := by
  induction calls with
  | nil => rfl
  | cons c calls ih =>
      by_cases hc : c.ptr = ptr
      · rw [List.filter_cons_of_pos (by simpa using hc)]
        subst hc
        cases c with
        | alloc p layout =>
            simp only [Call.layoutOf, Call.ptr, Function.update_self]
        | dealloc p layout =>
            simp only [Call.layoutOf, Call.ptr, Function.update_self]
        | drop p t => exact ih
      · rw [List.filter_cons_of_neg (by simpa using hc), ih]
        cases c with
        | alloc p layout => exact (Function.update_of_ne (Ne.symm hc) _ _).symm
        | dealloc p layout => exact (Function.update_of_ne (Ne.symm hc) _ _).symm
        | drop p t => rfl

theorem layoutOf_append (ptr : Ptr) (made calls : List Call) :
    Call.layoutOf (made.reverse ++ calls) ptr =
      Call.layoutOf ((made.filter (·.ptr = ptr)).reverse ++ calls.filter (·.ptr = ptr)) ptr := by
  rw [← layoutOf_filter, List.filter_append, List.filter_reverse]

theorem mem_of_filter_ptr {made : List Call} {ptr : Ptr} (h : made.filter (·.ptr = ptr) = []) :
    ∀ c ∈ made, c.ptr ≠ ptr := by
  intro c hc hptr
  have hmem : c ∈ made.filter (·.ptr = ptr) := List.mem_filter.2 ⟨hc, decide_eq_true hptr⟩
  rw [h] at hmem
  cases hmem

/-- After the free lists are emptied the storage's pointers are the client's. -/
theorem Accounted.shrinkToFit (h : Accounted types s) {audit : Audit D}
    (hrun : Audit.shrinkToFit.run s.audit = .ok () audit) :
    Accounted types { s with audit } := by
  obtain ⟨t, hrun', hmade⟩ := run_shrinkToFit s.audit
  rw [hrun'] at hrun
  cases hrun
  have hstorage : audit.mem.storage = { s.storage with free := ∅ } := hmade.storage
  have hheldOnly : ∀ ptr, Call.layoutOf audit.calls ptr =
      if (s.held ptr).isNone then none else s.layoutOf ptr := by
    intro ptr
    have hfilter := h.filter_freeCalls ptr
    rw [hmade.calls, layoutOf_append,
      show (freeCalls s.audit.mem.storage.free).filter (·.ptr = ptr) = _ from hfilter]
    split
    · cases hlayout : s.layoutOf ptr with
      | none => exact (layoutOf_filter ptr s.audit.calls).trans hlayout
      | some layout =>
          rw [Option.map_some, Option.toList_some, List.reverse_singleton, List.singleton_append,
            Call.layoutOf, Function.update_self]
    · exact layoutOf_filter ptr s.audit.calls
  constructor
  case owned =>
    intro ptr
    show audit.mem.storage.owned.lookup ptr = _
    rw [hstorage]
    exact h.owned ptr
  case known =>
    intro t found hfound
    replace hfound : audit.mem.storage.typeInfo.lookup t = some found := hfound
    rw [hstorage] at hfound
    exact h.known t found hfound
  case held_known =>
    intro ptr info hheld
    show audit.mem.storage.typeInfo.lookup info.typeId = some info
    rw [hstorage]
    exact h.held_known ptr info hheld
  case held_layout =>
    intro ptr info hheld
    replace hheld : s.held ptr = some info := hheld
    refine (hheldOnly ptr).trans ?_
    rw [hheld]
    exact h.held_layout ptr info hheld
  case free_once =>
    intro ptr layout hheld hlayout
    replace hheld : s.held ptr = none := hheld
    have := (hheldOnly ptr).symm.trans hlayout
    rw [hheld] at this
    cases this
  case free_own =>
    intro ptr layout hmem
    replace hmem : ptr ∈ (audit.mem.storage.free.lookup layout).getD [] := hmem
    rw [hstorage] at hmem
    cases hmem
  case live =>
    intro ptr layout hlayout
    have hsplit := (hheldOnly ptr).symm.trans hlayout
    cases hheld : s.held ptr with
    | none =>
        rw [hheld] at hsplit
        cases hsplit
    | some info =>
        rw [hheld] at hsplit
        obtain ⟨a, ha, rfl⟩ := h.live ptr layout hsplit
        have hfilter := h.filter_freeCalls (.store a)
        rw [hheld] at hfilter
        exact ⟨a, hmade.live a ha (mem_of_filter_ptr hfilter), rfl⟩

/-- The cells of the memory, and what is in them, are nobody's concern here. -/
theorem Accounted.of_heap (h : Accounted types s) {heap : Heap D}
    (hlive : ∀ a layout, s.layoutOf (.store a) = some layout → a ∈ heap.live) :
    Accounted types { s with audit := { s.audit with mem := { s.audit.mem with heap } } } where
  owned := h.owned
  known := h.known
  held_known := h.held_known
  held_layout := h.held_layout
  free_once := h.free_once
  free_own := h.free_own
  live := by
    intro ptr layout hl
    obtain ⟨a, -, rfl⟩ := h.live ptr layout hl
    exact ⟨a, hlive a layout hl, rfl⟩

theorem copyOut_cases {src dest : Ptr} {layout : Layout} {m m' : Mem D}
    (h : (Storage.copyOut src dest layout).run m = .ok () m') :
    m' = { m with heap := m.heap.write dest (m.heap.read src) } := by
  obtain ⟨heap, hcopy, rfl⟩ := liftHeap_cases h
  split at hcopy
  · cases hcopy
  · cases hcopy
    rfl

theorem Accounted.step (h : Accounted types s) {op : StorageOp D} {t : Client D}
    (hstep : StorageStep types s op t) : Accounted types t := by
  cases hstep with
  | moveValueIn htype hrun => exact (h.handOut (handsOut_moveValueIn _ _) htype hrun).2.2
  | alloc htype hrun => exact (h.handOut (handsOut_alloc _) htype hrun).2.2
  | moveIn htype hrun => exact (h.handOut (handsOut_moveIn _ _) htype hrun).2.2
  | cloneIn htype hrun => exact (h.handOut (handsOut_cloneIn _ _) htype hrun).2.2
  | copyOut hrun =>
      obtain ⟨m, hcopy, rfl⟩ := run_onMem_cases hrun
      rw [copyOut_cases hcopy]
      refine h.of_heap fun a layout hl => ?_
      obtain ⟨b, hb, heq⟩ := h.live _ layout hl
      cases heq
      exact hb
  | moveOut hheld hrun =>
      obtain ⟨m, hmove, rfl⟩ := run_onMem_cases hrun
      obtain ⟨_, m₁, hcopy, hfree⟩ := Effect.ok_of_bind_ok hmove
      obtain ⟨stack, hstack, rfl⟩ := innerFree_cases hfree
      rw [copyOut_cases hcopy] at hstack ⊢
      exact h.release hheld rfl rfl hstack rfl
  | forgetInside hheld hrun =>
      obtain ⟨m, hfree, rfl⟩ := run_onMem_cases hrun
      obtain ⟨stack, hstack, rfl⟩ := innerFree_cases hfree
      exact h.release hheld rfl rfl hstack rfl
  | dropInside hheld hrun =>
      obtain ⟨_, audit₁, hexec, hrun⟩ := Effect.ok_of_bind_ok hrun
      obtain ⟨hstorage, hlive, hcalls⟩ := dropExecute_cases hexec
      obtain ⟨m, hfree, rfl⟩ := run_onMem_cases hrun
      obtain ⟨stack, hstack, rfl⟩ := innerFree_cases hfree
      rw [hstorage] at hstack
      refine h.release hheld ?_ hlive hstack ?_
      · show Call.layoutOf audit₁.calls = _
        rw [hcalls]
        rfl
      · show ({ audit₁.mem.storage with owned := _, free := _ } : Storage D) = _
        rw [hstorage]
        rfl
  | shrinkToFit hrun => exact h.shrinkToFit hrun
  | elsewhere hlive => exact h.of_heap hlive

/-- Every state a client can bring about is in order. -/
theorem accounted_of_reach {heap : Heap D} {ops : List (StorageOp D)} {s : Client D}
    (hreach : Run.Reach (StorageStep types) (.start heap) ops s) : Accounted types s :=
  hreach.preserves (accounted_start types heap) fun ht hstep => ht.step hstep

/-! ## Dropping the storage -/

/-- A drop function fails only on a slot that was never filled. -/
theorem run_dropExecute (info : TypeInfo D) (ptr : Ptr) (s : Audit D) :
    (∃ t, (Audit.dropExecute info ptr).run s = .ok () t ∧ Made [.drop ptr info.typeId] s t) ∨
      ∃ t, (Audit.dropExecute info ptr).run s = .error .badRead t ∧
        info.funcs.drop = .dropInPlace ∧ s.mem.heap.read ptr = none := by
  cases hdrop : info.funcs.drop with
  | undefined =>
      have hrun : (liftHeap (info.funcs.drop.execute ptr)).run s.mem = .ok () s.mem := by
        rw [hdrop]
        rfl
      refine .inl ⟨{ s with calls := .drop ptr info.typeId :: s.calls }, ?_,
        rfl, rfl, fun a ha _ => ha, fun q _ => rfl⟩
      rw [Audit.dropExecute, Effect.run_bind_of_ok (run_onMem_of_ok hrun)]
      rfl
  | dropInPlace =>
      cases hread : s.mem.heap.read ptr with
      | some v =>
          let m : Mem D :=
            { s.mem with heap := { s.mem.heap with dropped := v :: s.mem.heap.dropped } }
          have hrun : (liftHeap (info.funcs.drop.execute ptr)).run s.mem = .ok () m := by
            rw [liftHeap, EStateM.run_bind, EStateM.run_get]
            simp only [run_dropFn hread, hdrop, drops]
            rfl
          refine .inl ⟨{ mem := m, calls := .drop ptr info.typeId :: s.calls }, ?_,
            rfl, rfl, fun a ha _ => ha, fun q _ => ?_⟩
          · rw [Audit.dropExecute, Effect.run_bind_of_ok (run_onMem_of_ok hrun)]
            rfl
          · cases q <;> rfl
      | none =>
          have hrun :
              (liftHeap (info.funcs.drop.execute ptr)).run s.mem = .error .badRead s.mem := by
            rw [liftHeap, EStateM.run_bind, EStateM.run_get]
            simp only [hdrop, DropFn.execute, hread]
            rfl
          refine .inr ⟨s, ?_, rfl, rfl⟩
          rw [Audit.dropExecute, Effect.run_bind_of_error (t := s) (e := .badRead)]
          rw [Audit.onMem, EStateM.run, Effect.zoom, hrun]

/-- The loop of `Drop`. A slot is deallocated after its own drop, so what is
in the later ones is still there when their turn comes. -/
theorem run_dropLoop {typeInfo : HashMap TypeId (TypeInfo D)} :
    ∀ {l : List ((_ : Ptr) × TypeId)}, l.NodupKeys →
      (∀ e ∈ l, typeInfo.lookup e.2 = some (types e.2)) → ∀ s : Audit D,
        match (Effect.forEach (Audit.dropOwned typeInfo) l).run s with
        | .ok _ t => Made (l.flatMap fun entry =>
            [.drop entry.1 (types entry.2).typeId, .dealloc entry.1 (types entry.2).layout]) s t
        | .error e _ => e = .badRead ∧ ∃ entry ∈ l,
            (types entry.2).funcs.drop = .dropInPlace ∧ s.mem.heap.read entry.1 = none
  | [], _, _, s => Made.refl s
  | e :: l, hl, hinfo, s => by
      rw [List.nodupKeys_cons] at hl
      have hround : Audit.dropOwned typeInfo e = (do
          Audit.dropExecute (types e.2) e.1
          Audit.dealloc e.1 (types e.2).layout) := by
        rw [Audit.dropOwned, hinfo e List.mem_cons_self]
      rw [Effect.run_forEach_cons, hround]
      rcases run_dropExecute (types e.2) e.1 s with ⟨t, hdrop, hmade⟩ | ⟨t, hdrop, hneeds, hread⟩
      · obtain ⟨u, hdealloc, hmade'⟩ := run_dealloc e.1 (types e.2).layout t
        have hboth := hmade.append hmade'
        rw [Effect.run_bind_of_ok (t := u) (a := ())
          (by rw [Effect.run_bind_of_ok hdrop, hdealloc])]
        have ih := run_dropLoop hl.2 (fun e' he' => hinfo e' (List.mem_cons_of_mem e he')) u
        split at ih
        · next v hrest =>
            rw [List.flatMap_cons]
            exact hboth.append ih
        · next err v hrest =>
            obtain ⟨herr, e', he', hneeds, hread⟩ := ih
            refine ⟨herr, e', List.mem_cons_of_mem e he', hneeds, ?_⟩
            rw [← hread]
            refine (hboth.read e'.1 fun c hc => ?_).symm
            have hkey : e.1 ≠ e'.1 := by
              intro heq
              exact hl.1 (heq ▸ List.mem_keys_of_mem he')
            rcases List.mem_cons.1 hc with rfl | hc
            · exact hkey
            · rw [List.mem_singleton.1 hc]
              exact hkey
      · rw [Effect.run_bind_of_error (t := t) (e := .badRead)
          (Effect.run_bind_of_error hdrop)]
        exact ⟨rfl, e, List.mem_cons_self, hneeds, hread⟩

/-- The type whose slot an operation asks for. -/
def StorageOp.asks : StorageOp D → Option (TypeInfo D)
  | .moveValueIn info _ => some info
  | .alloc info => some info
  | .moveIn _ info => some info
  | .cloneIn _ info => some info
  | _ => none

/-- Every pointer obtained from the allocator and not deallocated is owned, or
once in the free list of its layout. -/
def Client.Placed (s : Client D) : Prop :=
  ∀ ptr layout, s.layoutOf ptr = some layout →
    (ptr ∈ s.storage.owned ∧ ∀ l, ptr ∉ s.freeList l) ∨
      (ptr ∉ s.storage.owned ∧ (s.freeList layout).count ptr = 1 ∧
        ∀ l, l ≠ layout → ptr ∉ s.freeList l)

/-- A pointer handed out next was not owned, and has the layout asked for. -/
def Client.ServedAnew (types : TypeId → TypeInfo D) (s : Client D) : Prop :=
  ∀ op info t, op.asks = some info → StorageStep types s op t →
    ∃ dest, t.held = Function.update s.held dest (some info) ∧ dest ∉ s.storage.owned ∧
      t.layoutOf dest = some info.layout

/-- The calls `Drop` makes about a pointer: the drop function of the type it
was last handed out for if it is held, and one deallocation with its layout. -/
def Client.lastCalls (s : Client D) (ptr : Ptr) : List Call :=
  ((s.held ptr).map fun info => Call.drop ptr info.typeId).toList ++
    ((s.layoutOf ptr).map (Call.dealloc ptr)).toList

/-- Dropping the storage makes those calls and no others. It can go wrong only
where a drop function is run on a slot that was never filled. -/
def Client.DropsEach (s : Client D) : Prop :=
  match Audit.dropStorage.run s.audit with
  | .ok _ audit => ∃ made : List Call, audit.calls = made.reverse ++ s.audit.calls ∧
      ∀ ptr, made.filter (·.ptr = ptr) = s.lastCalls ptr
  | .error e _ => e = .badRead ∧ ∃ ptr info, s.held ptr = some info ∧
      info.funcs.drop = .dropInPlace ∧ s.heap.read ptr = none

theorem Accounted.placed (h : Accounted types s) : s.Placed := by
  intro ptr layout hlayout
  cases hheld : s.held ptr with
  | none =>
      refine .inr ⟨fun hmem => (h.mem_owned ptr).1 hmem hheld,
        h.free_once ptr layout hheld hlayout, fun l hne hmem => hne ?_⟩
      have := (h.free_own ptr l hmem).2
      rw [hlayout] at this
      exact (Option.some.inj this).symm
  | some info =>
      refine .inl ⟨(h.mem_owned ptr).2 (by rw [hheld]; exact Option.some_ne_none info),
        fun l hmem => ?_⟩
      rw [(h.free_own ptr l hmem).1] at hheld
      cases hheld

theorem Accounted.servedAnew (h : Accounted types s) : s.ServedAnew types := by
  have hserve : ∀ {info x dest audit}, HandsOut info x → info = types info.typeId →
      (Audit.handOut info x).run s.audit = .ok dest audit →
        ∃ q, (s.handed audit dest info).held = Function.update s.held q (some info) ∧
          q ∉ s.storage.owned ∧ (s.handed audit dest info).layoutOf q = some info.layout := by
    intro info x dest audit hx htype hrun
    obtain ⟨hnone, hlayout, -⟩ := h.handOut hx htype hrun
    exact ⟨dest, rfl, fun hmem => (h.mem_owned dest).1 hmem hnone, hlayout⟩
  intro op info t hasks hstep
  cases hstep with
  | moveValueIn htype hrun =>
      cases hasks
      exact hserve (handsOut_moveValueIn _ _) htype hrun
  | alloc htype hrun =>
      cases hasks
      exact hserve (handsOut_alloc _) htype hrun
  | moveIn htype hrun =>
      cases hasks
      exact hserve (handsOut_moveIn _ _) htype hrun
  | cloneIn htype hrun =>
      cases hasks
      exact hserve (handsOut_cloneIn _ _) htype hrun
  | copyOut | moveOut | forgetInside | dropInside | shrinkToFit | elsewhere => cases hasks

/-- The audit with `owned` drained. -/
def drained (s : Audit D) : Audit D :=
  { s with mem := { s.mem with storage := { s.mem.storage with owned := ∅ } } }

theorem run_dropStorage (s : Audit D) : Audit.dropStorage.run s =
    (Effect.forEach (Audit.dropOwned s.mem.storage.typeInfo) s.mem.storage.owned.entries >>=
      fun _ => Audit.shrinkToFit).run (drained s) := rfl

theorem Accounted.dropsEach (h : Accounted types s) : s.DropsEach := by
  have hinfo : ∀ e ∈ s.audit.mem.storage.owned.entries, ∃ info, s.held e.1 = some info ∧
      info.typeId = e.2 ∧ s.audit.mem.storage.typeInfo.lookup e.2 = some (types e.2) := by
    intro e he
    have hlookup : s.storage.owned.lookup e.1 = some e.2 := AList.mem_lookup_iff.2 he
    rw [h.owned] at hlookup
    obtain ⟨info, hheld, htid⟩ := Option.map_eq_some_iff.1 hlookup
    refine ⟨info, hheld, htid, ?_⟩
    rw [← htid, ← h.held_type hheld]
    exact h.held_known _ _ hheld
  have hloop := run_dropLoop s.audit.mem.storage.owned.nodupKeys
    (fun e he => (hinfo e he).choose_spec.2.2) (drained s.audit)
  rw [Client.DropsEach, run_dropStorage]
  split at hloop
  · next t hrun =>
      obtain ⟨u, hshrink, hmade⟩ := run_shrinkToFit t
      have hfree : t.mem.storage.free = s.storage.free := by
        rw [hloop.storage]
        rfl
      rw [Effect.run_bind_of_ok hrun, hshrink]
      refine ⟨ownedCalls types s.storage.owned ++ freeCalls s.storage.free, ?_, fun ptr => ?_⟩
      · rw [hmade.calls, hfree, List.reverse_append, List.append_assoc]
        exact congrArg _ hloop.calls
      · rw [List.filter_append, h.filter_ownedCalls, h.filter_freeCalls, Client.lastCalls]
        cases hheld : s.held ptr with
        | none => rfl
        | some info =>
            rw [h.held_layout ptr info hheld]
            rfl
  · next e t hrun =>
      rw [Effect.run_bind_of_error hrun]
      obtain ⟨rfl, entry, hentry, hneeds, hread⟩ := hloop
      obtain ⟨info, hheld, htid, -⟩ := hinfo entry hentry
      refine ⟨rfl, entry.1, info, hheld, ?_, hread⟩
      rw [h.held_type hheld, htid]
      exact hneeds

/-- Over every run of a client, no slot is lost, doubled or mis-sized, and
dropping the storage gives each back once. -/
theorem slots_accounted_for {heap : Heap D} {ops : List (StorageOp D)} {s : Client D}
    (hreach : Run.Reach (StorageStep types) (.start heap) ops s) :
    s.Placed ∧ s.ServedAnew types ∧ s.DropsEach :=
  have h := accounted_of_reach hreach
  ⟨h.placed, h.servedAnew, h.dropsEach⟩

/-- Types that differ in nothing but their names. -/
def wordType (t : TypeId) : TypeInfo Nat :=
  ⟨t, false, ⟨8, 8⟩, ⟨.dropInPlace, .undefined, .undefined⟩⟩

/-- A word is stored and dropped, its slot goes to a word of another type, and
a third gets a slot of its own. -/
theorem slots_accounted_for_reuse :
    ∃ s : Client Nat,
      Run.Reach (StorageStep wordType) (.start .empty)
        [.moveValueIn (wordType 1) (.data 9), .moveValueIn (wordType 2) (.data 8),
          .dropInside (.store 1) (wordType 1), .moveValueIn (wordType 1) (.data 7)] s ∧
      (s.held (.store 1)).map TypeInfo.typeId = some 2 ∧
      (s.held (.store 2)).map TypeInfo.typeId = some 1 ∧
      s.Placed ∧ s.ServedAnew wordType ∧ s.DropsEach := by
  have hrun : ∃ s : Client Nat,
      Run.Reach (StorageStep wordType) (.start .empty)
        [.moveValueIn (wordType 1) (.data 9), .moveValueIn (wordType 2) (.data 8),
          .dropInside (.store 1) (wordType 1), .moveValueIn (wordType 1) (.data 7)] s ∧
      (s.held (.store 1)).map TypeInfo.typeId = some 2 ∧
      (s.held (.store 2)).map TypeInfo.typeId = some 1 :=
    ⟨_, .tail (.tail (.tail (.single (.moveValueIn rfl rfl)) (.dropInside rfl rfl))
      (.moveValueIn rfl rfl)) (.moveValueIn rfl rfl), rfl, rfl⟩
  obtain ⟨s, hreach, hreused, hnew⟩ := hrun
  exact ⟨s, hreach, hreused, hnew, slots_accounted_for hreach⟩

end ReoRs
