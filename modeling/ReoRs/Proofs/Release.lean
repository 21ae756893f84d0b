import ReoRs.Proofs.Slots

/-!
# Releasing a slot

A slot that is given up goes to the free list of its layout, and `inner_free`
expects that list to be there. `alloc` makes it when the slot is handed out,
but `shrink_to_fit` drains the whole map, lists that are still needed
included. So a release goes well if and only if some slot of the layout was
asked for since the last `shrink_to_fit`.
-/

namespace ReoRs

variable {D : Type}

/-- Whether the free lists, once `op` is over, have one for the layout. -/
def StorageOp.prepares (op : StorageOp D) (layout : Layout) (before : Bool) : Bool :=
  match op with
  | .shrinkToFit => false
  | op => op.asks.any (·.layout = layout) || before

/-- Since the last `shrink_to_fit` a slot of the layout was asked for;
operations are listed newest first. -/
def preparedFor (layout : Layout) : List (StorageOp D) → Bool
  | [] => false
  | op :: ops => op.prepares layout (preparedFor layout ops)

/-! ## What an operation leaves, however it ends -/

/-- The free lists that are there, and the slots that stay owned. -/
structure Leaves (op : StorageOp D) (s t : Storage D) : Prop where
  prepared : ∀ l, (t.free.lookup l).isSome = op.prepares l (s.free.lookup l).isSome
  owned : ∀ p, op.gives ≠ some p → (s.owned.lookup p).isSome → (t.owned.lookup p).isSome

theorem isSome_lookup_insert {K V : Type} [DecidableEq K] (m : HashMap K V) (k l : K) (v : V) :
    ((m.insert k v).lookup l).isSome = (decide (k = l) || (m.lookup l).isSome) := by
  by_cases h : l = k
  · subst h
    rw [AList.lookup_insert, decide_eq_true rfl, Option.isSome_some, Bool.true_or]
  · rw [AList.lookup_insert_ne h, decide_eq_false (Ne.symm h), Bool.false_or]

/-- `alloc` makes the free list of the layout and owns what it returns, also
when it was owned before. -/
theorem final_alloc (info : TypeInfo D) (m : Mem D) :
    ∃ dest rest,
      (Effect.final (Storage.alloc info) m).storage.free =
        m.storage.free.insert info.layout rest ∧
      (Effect.final (Storage.alloc info) m).storage.owned =
        m.storage.owned.insert dest info.typeId := by
  obtain ⟨hfree, howned⟩ := noteType_free m.storage info
  have hrun : ∃ dest rest t, t.storage.free = m.storage.free.insert info.layout rest ∧
      t.storage.owned = m.storage.owned.insert dest info.typeId ∧
      ((Storage.alloc info).run m = .ok dest t ∨
        (Storage.alloc info).run m = .error .alreadyOwned t) := by
    rw [Storage.alloc, EStateM.run_bind, EStateM.run_modify]
    simp only [EStateM.run_bind, EStateM.run_get, EStateM.run_set]
    rw [Storage.popFree, hfree]
    simp only [howned]
    cases (m.storage.free.lookup info.layout).getD [] with
    | cons dest rest =>
        dsimp only
        split
        · refine ⟨dest, rest, _, ?_, ?_, .inr rfl⟩ <;> rfl
        · refine ⟨dest, rest, _, ?_, ?_, .inl rfl⟩ <;> rfl
    | nil =>
        dsimp only
        split
        · refine ⟨(m.heap.allocate info.layout).1, [], _, ?_, ?_, .inr rfl⟩ <;> rfl
        · refine ⟨(m.heap.allocate info.layout).1, [], _, ?_, ?_, .inl rfl⟩ <;> rfl
  obtain ⟨dest, rest, t, hfree', howned', hok | herror⟩ := hrun
  · exact ⟨dest, rest, by rw [Effect.final_of_ok hok, hfree'],
      by rw [Effect.final_of_ok hok, howned']⟩
  · exact ⟨dest, rest, by rw [Effect.final_of_error herror, hfree'],
      by rw [Effect.final_of_error herror, howned']⟩

theorem keeps_liftHeap (f : Heap D → Except Fault (Heap D)) (st : Storage D) :
    Effect.Keeps (fun m => m.storage = st) (liftHeap f) := by
  intro m hm
  rw [liftHeap, EStateM.run_bind, EStateM.run_get]
  dsimp only
  cases f m.heap with
  | ok heap => exact hm
  | error e => exact hm

/-- A computation that hands out a slot leaves the storage it leaves unrecorded. -/
theorem final_handOut (info : TypeInfo D) (x : MemM D Ptr) (s : Audit D) :
    (Effect.final (do let _ ← Audit.handOut info x) s).mem = Effect.final x s.mem := by
  cases hrun : x.run s.mem with
  | ok dest m =>
      have hmem : (Audit.onMem x).run s = .ok dest { s with mem := m } := run_onMem_of_ok hrun
      have hnote : ∃ t, (Audit.handOut info x).run s = .ok dest t ∧ t.mem = m := by
        rw [Audit.handOut, EStateM.run_bind, EStateM.run_get]
        dsimp only
        rw [Effect.run_bind_of_ok hmem, EStateM.run_bind, EStateM.run_get]
        dsimp only
        split
        · exact ⟨_, rfl, rfl⟩
        · exact ⟨_, rfl, rfl⟩
      obtain ⟨t, ht, hm⟩ := hnote
      rw [Effect.final_of_ok hrun, Effect.final_of_ok (t := t) (a := ()), hm]
      rw [Effect.run_bind_of_ok ht]
      rfl
  | error e m =>
      have hmem : (Audit.onMem x).run s = .error e { s with mem := m } := by
        rw [Audit.onMem, EStateM.run, Effect.zoom, hrun]
      have hnote : (Audit.handOut info x).run s = .error e { s with mem := m } := by
        rw [Audit.handOut, EStateM.run_bind, EStateM.run_get]
        exact Effect.run_bind_of_error hmem
      rw [Effect.final_of_error hrun, Effect.final_of_error (Effect.run_bind_of_error hnote)]

theorem keeps_onMem {x : MemM D Unit} {st : Storage D}
    (hx : Effect.Keeps (fun m => m.storage = st) x) :
    Effect.Keeps (fun s : Audit D => s.mem.storage = st) (Audit.onMem x) :=
  hx.zoom (fun _ hs => hs) fun _ _ hm _ => hm

/-- What is written to a new slot is no business of the maps. -/
theorem final_alloc_bind (info : TypeInfo D) {f : Ptr → MemM D Ptr} (m : Mem D)
    (hf : ∀ dest st, Effect.Keeps (fun m => m.storage = st) (f dest)) :
    (Effect.final (Storage.alloc info >>= f) m).storage =
      (Effect.final (Storage.alloc info) m).storage :=
  Effect.final_bind (I := fun t : Mem D => t.storage = (Effect.final (Storage.alloc info) m).storage)
    rfl fun dest => hf dest _

theorem leaves_handOut {op : StorageOp D} {info : TypeInfo D} {x : MemM D Ptr}
    (hop : op.body = do let _ ← Audit.handOut info x) (hasks : op.asks = some info)
    (hx : ∀ m, (Effect.final x m).storage = (Effect.final (Storage.alloc info) m).storage)
    (s : Audit D) : Leaves op s.mem.storage (Effect.final op.body s).mem.storage := by
  have hfinal : (Effect.final op.body s).mem.storage =
      (Effect.final (Storage.alloc info) s.mem).storage := by
    rw [hop, final_handOut, hx]
  obtain ⟨dest, rest, hfree, howned⟩ := final_alloc info s.mem
  have hprepares : ∀ l b, op.prepares l b = (decide (info.layout = l) || b) := by
    intro l b
    cases op <;> cases hasks <;> rfl
  constructor
  · intro l
    rw [hfinal, hfree, isSome_lookup_insert, hprepares]
  · intro p _ hp
    rw [hfinal, howned, isSome_lookup_insert, hp, Bool.or_true]

/-- The three ways `inner_free` ends. -/
theorem run_innerFree_eq (ptr : Ptr) (layout : Layout) (m : Mem D) :
    (Storage.innerFree ptr layout).run m =
      match m.storage.owned.lookup ptr with
      | none => .error .notOwned m
      | some _ =>
          match m.storage.free.lookup layout with
          | none => .error .notPrepared { m with storage := { m.storage with
              owned := m.storage.owned.erase ptr } }
          | some stack => .ok () { m with storage := { m.storage with
              owned := m.storage.owned.erase ptr
              free := m.storage.free.insert layout (ptr :: stack) } } := by
  rw [Storage.innerFree, EStateM.run_bind, EStateM.run_get]
  dsimp only
  cases m.storage.owned.lookup ptr with
  | none => rfl
  | some t =>
      rw [EStateM.run_bind, EStateM.run_set]
      dsimp only
      cases m.storage.free.lookup layout <;> rfl

/-- Freeing a slot makes no list and gives up just the one slot. -/
theorem final_innerFree (ptr : Ptr) (layout : Layout) (m : Mem D) :
    (∀ l, ((Effect.final (Storage.innerFree ptr layout) m).storage.free.lookup l).isSome =
        (m.storage.free.lookup l).isSome) ∧
      ∀ p, p ≠ ptr → (Effect.final (Storage.innerFree ptr layout) m).storage.owned.lookup p =
        m.storage.owned.lookup p := by
  rw [Effect.final, run_innerFree_eq]
  cases m.storage.owned.lookup ptr with
  | none => exact ⟨fun _ => rfl, fun _ _ => rfl⟩
  | some t =>
      cases hstack : m.storage.free.lookup layout with
      | none => exact ⟨fun _ => rfl, fun p hp => AList.lookup_erase_ne hp⟩
      | some stack =>
          refine ⟨fun l => ?_, fun p hp => AList.lookup_erase_ne hp⟩
          show ((m.storage.free.insert layout (ptr :: stack)).lookup l).isSome = _
          rw [isSome_lookup_insert]
          by_cases hl : layout = l
          · rw [← hl, hstack, Option.isSome_some, Bool.or_true]
          · rw [decide_eq_false hl, Bool.false_or]

/-- A release is a step that leaves the storage alone, and then `inner_free`. -/
theorem leaves_release {op : StorageOp D} {ptr : Ptr} {layout : Layout} {x : AuditM D Unit}
    (hop : op.body = do x; Audit.onMem (Storage.innerFree ptr layout))
    (hgives : op.gives = some ptr)
    (hx : ∀ st, Effect.Keeps (fun s : Audit D => s.mem.storage = st) x) (s : Audit D) :
    Leaves op s.mem.storage (Effect.final op.body s).mem.storage := by
  have hprepares : ∀ l b, op.prepares l b = b := by
    intro l b
    cases op <;> cases hgives <;> rfl
  -- either the first step fails, or the slot is freed
  have hfinal : (Effect.final op.body s).mem.storage = s.mem.storage ∨
      ∃ m : Mem D, m.storage = s.mem.storage ∧ (Effect.final op.body s).mem.storage =
        (Effect.final (Storage.innerFree ptr layout) m).storage := by
    rw [hop]
    cases hrun : x.run s with
    | error e t =>
        rw [Effect.final_of_error (Effect.run_bind_of_error hrun)]
        exact .inl ((hx _).of_error rfl hrun)
    | ok a t =>
        refine .inr ⟨t.mem, (hx _).of_ok rfl hrun, ?_⟩
        rw [Effect.final, Effect.run_bind_of_ok hrun, ← Effect.final, Audit.onMem,
          Effect.final_zoom]
  rcases hfinal with heq | ⟨m, hm, heq⟩
  · rw [heq]
    exact ⟨fun l => (hprepares l _).symm, fun _ _ hp => hp⟩
  · obtain ⟨hfree, howned⟩ := final_innerFree ptr layout m
    constructor
    · intro l
      rw [heq, hfree, hm, hprepares]
    · intro p hne hp
      rw [hgives, ne_eq, Option.some.injEq] at hne
      rw [heq, howned p (Ne.symm hne), hm, hp]

theorem leaves_body (op : StorageOp D) (s : Audit D) :
    Leaves op s.mem.storage (Effect.final op.body s).mem.storage := by
  cases op with
  | moveValueIn info value =>
      refine leaves_handOut rfl rfl (fun m => final_alloc_bind info m fun dest st => ?_) s
      exact fun m hs => hs
  | alloc info => exact leaves_handOut rfl rfl (fun m => rfl) s
  | moveIn src info =>
      refine leaves_handOut rfl rfl (fun m => final_alloc_bind info m fun dest st => ?_) s
      exact (keeps_liftHeap _ st).bind fun _ => Effect.keeps_pure dest
  | cloneIn src info =>
      refine leaves_handOut rfl rfl (fun m => final_alloc_bind info m fun dest st => ?_) s
      exact (keeps_liftHeap _ st).bind fun _ => Effect.keeps_pure dest
  | copyOut src dest layout =>
      have hsame : (Effect.final (StorageOp.copyOut src dest layout).body s).mem.storage =
          s.mem.storage := by
        rw [StorageOp.body, Audit.onMem, Effect.final_zoom]
        exact (keeps_liftHeap _ s.mem.storage).final rfl
      rw [hsame]
      exact ⟨fun _ => rfl, fun _ _ hp => hp⟩
  | moveOut src dest layout =>
      have hbody : (StorageOp.moveOut (D := D) src dest layout).body =
          (do Audit.onMem (Storage.copyOut src dest layout)
              Audit.onMem (Storage.innerFree src layout)) :=
        Effect.zoom_bind (by intros; rfl) (by intros; rfl) (Storage.copyOut src dest layout)
          fun _ => Storage.innerFree src layout
      exact leaves_release hbody rfl (fun st => keeps_onMem (keeps_liftHeap _ st)) s
  | forgetInside ptr info =>
      exact leaves_release (x := pure ()) rfl rfl (fun st => Effect.keeps_pure ()) s
  | dropInside ptr info =>
      refine leaves_release (x := Audit.dropExecute info ptr) rfl rfl (fun st => ?_) s
      exact (keeps_onMem (keeps_liftHeap _ st)).bind fun _ => Effect.keeps_modify fun _ hs => hs
  | shrinkToFit =>
      obtain ⟨t, hrun, hmade⟩ := run_shrinkToFit s
      rw [StorageOp.body, Effect.final_of_ok hrun, hmade.storage]
      exact ⟨fun _ => rfl, fun _ _ hp => hp⟩
  | elsewhere heap => exact ⟨fun _ => rfl, fun _ _ hp => hp⟩

/-! ## Over a run -/

variable {types : TypeId → TypeInfo D}

theorem final_onMem_of_ok {x : MemM D Ptr} {info : TypeInfo D} {s audit : Audit D} {dest : Ptr}
    (h : (Audit.handOut info x).run s = .ok dest audit) :
    Effect.final (do let _ ← Audit.handOut info x) s = audit := by
  refine Effect.final_of_ok (a := ()) ?_
  rw [Effect.run_bind_of_ok h]
  rfl

/-- A step is its operation's; what the client holds it held before, or was
just handed. -/
theorem StorageStep.final {s t : Client D} {op : StorageOp D} (h : StorageStep types s op t) :
    t.audit = Effect.final op.body s.audit ∧
      ∀ p, t.held p ≠ none → (s.held p ≠ none ∧ op.gives ≠ some p) ∨
        (t.storage.owned.lookup p).isSome := by
  have hhanded : ∀ {info : TypeInfo D} {x dest audit}, HandsOut info x →
      (Audit.handOut info x).run s.audit = .ok dest audit →
        ∀ p, (s.handed audit dest info).held p ≠ none →
          s.held p ≠ none ∨ (audit.mem.storage.owned.lookup p).isSome := by
    intro info x dest audit hx hrun p hp
    by_cases hd : p = dest
    · rw [hx.owned (handOut_cases hrun).1, hd, AList.lookup_insert]
      exact .inr rfl
    · rw [Client.handed_held_ne _ _ _ hd] at hp
      exact .inl hp
  have hreleased : ∀ {ptr : Ptr} {audit : Audit D} p, (s.released audit ptr).held p ≠ none →
      s.held p ≠ none ∧ some ptr ≠ some p := by
    intro ptr audit p hp
    by_cases hd : p = ptr
    · rw [hd, Client.released_held_self] at hp
      exact absurd rfl hp
    · rw [Client.released_held_ne _ _ hd] at hp
      exact ⟨hp, fun heq => hd (Option.some.inj heq).symm⟩
  cases h with
  | moveValueIn _ hrun =>
      exact ⟨(final_onMem_of_ok hrun).symm, fun p hp =>
        (hhanded (handsOut_moveValueIn _ _) hrun p hp).imp_left fun h => ⟨h, nofun⟩⟩
  | alloc _ hrun =>
      exact ⟨(final_onMem_of_ok hrun).symm, fun p hp =>
        (hhanded (handsOut_alloc _) hrun p hp).imp_left fun h => ⟨h, nofun⟩⟩
  | moveIn _ hrun =>
      exact ⟨(final_onMem_of_ok hrun).symm, fun p hp =>
        (hhanded (handsOut_moveIn _ _) hrun p hp).imp_left fun h => ⟨h, nofun⟩⟩
  | cloneIn _ hrun =>
      exact ⟨(final_onMem_of_ok hrun).symm, fun p hp =>
        (hhanded (handsOut_cloneIn _ _) hrun p hp).imp_left fun h => ⟨h, nofun⟩⟩
  | copyOut hrun =>
      exact ⟨(Effect.final_of_ok hrun).symm, fun p hp => .inl ⟨hp, nofun⟩⟩
  | moveOut _ hrun => exact ⟨(Effect.final_of_ok hrun).symm, fun p hp => .inl (hreleased p hp)⟩
  | forgetInside _ hrun => exact ⟨(Effect.final_of_ok hrun).symm, fun p hp => .inl (hreleased p hp)⟩
  | dropInside _ hrun => exact ⟨(Effect.final_of_ok hrun).symm, fun p hp => .inl (hreleased p hp)⟩
  | shrinkToFit hrun =>
      exact ⟨(Effect.final_of_ok hrun).symm, fun p hp => .inl ⟨hp, nofun⟩⟩
  | elsewhere _ => exact ⟨rfl, fun p hp => .inl ⟨hp, nofun⟩⟩

theorem StorageAttempt.final {s t : Client D} {op : StorageOp D}
    (h : StorageAttempt types s op t) :
    t.audit = Effect.final op.body s.audit ∧
      ∀ p, t.held p ≠ none → (s.held p ≠ none ∧ op.gives ≠ some p) ∨
        (t.storage.owned.lookup p).isSome := by
  cases h with
  | returns hstep => exact hstep.final
  | panics hrun =>
      rw [Effect.final_of_error hrun]
      cases hgives : op.gives with
      | none => exact ⟨rfl, fun p hp => .inl ⟨hp, nofun⟩⟩
      | some ptr =>
          refine ⟨rfl, fun p hp => .inl ?_⟩
          by_cases hd : p = ptr
          · rw [Client.gave, hd, Client.released_held_self] at hp
            exact absurd rfl hp
          · rw [Client.gave, Client.released_held_ne _ _ hd] at hp
            exact ⟨hp, fun heq => hd (Option.some.inj heq).symm⟩

/-- What the client holds is owned, and there is a free list for the layouts
asked for since the last `shrink_to_fit`. -/
structure Kept (ops : List (StorageOp D)) (s : Client D) : Prop where
  owned : ∀ p, s.held p ≠ none → (s.storage.owned.lookup p).isSome
  prepared : ∀ l, (s.storage.free.lookup l).isSome = preparedFor l ops

theorem kept_of_reach {heap : Heap D} {ops : List (StorageOp D)} {s : Client D}
    (hreach : Run.Reach (StorageAttempt types) (.start heap) ops s) : Kept ops s := by
  refine hreach.invariant ⟨fun p hp => absurd rfl hp, fun l => rfl⟩ ?_
  intro ops s op t _ hkept hstep
  obtain ⟨haudit, hheld⟩ := hstep.final
  have hleaves : Leaves op s.storage t.storage := by
    rw [Client.storage, Client.storage, haudit]
    exact leaves_body op s.audit
  constructor
  · intro p hp
    rcases hheld p hp with ⟨hbefore, hgives⟩ | howned
    · exact hleaves.owned p hgives (hkept.owned p hbefore)
    · exact howned
  · intro l
    rw [hleaves.prepared, hkept.prepared]
    rfl

/-! ## A release -/

/-- The ways to give up `ptr` as what it was handed out for. -/
inductive Releases (ptr : Ptr) (info : TypeInfo D) : StorageOp D → Prop where
  | moveOut (dest : Ptr) : Releases ptr info (.moveOut ptr dest info.layout)
  | forgetInside : Releases ptr info (.forgetInside ptr info)
  | dropInside : Releases ptr info (.dropInside ptr info)

/-- Whichever way `ptr` is given up, that goes well, and the next slot of its
layout is `ptr`. The one thing that may go wrong is that there is no datum in
the slot to be dropped. -/
def Client.Releasable (s : Client D) (ptr : Ptr) (info : TypeInfo D) : Prop :=
  ∀ op, Releases ptr info op → match op.body.run s.audit with
    | .ok _ audit => ∀ other : TypeInfo D, other.layout = info.layout →
        ∃ m, (Storage.alloc other).run audit.mem = .ok ptr m
    | .error fault _ => fault = .badRead ∧ s.heap.read ptr = none

/-- A slot on top of its free list is the next one, if nobody owns it. -/
theorem run_alloc_of_top {m : Mem D} {info : TypeInfo D} {ptr : Ptr} {rest : List Ptr}
    (hfree : m.storage.free.lookup info.layout = some (ptr :: rest))
    (howned : m.storage.owned.lookup ptr = none) :
    ∃ m', (Storage.alloc info).run m = .ok ptr m' := by
  obtain ⟨hfree', howned'⟩ := noteType_free m.storage info
  rw [Storage.alloc, EStateM.run_bind, EStateM.run_modify]
  simp only [EStateM.run_bind, EStateM.run_get, EStateM.run_set]
  rw [Storage.popFree, hfree', hfree]
  simp only [Option.getD_some, howned', howned]
  exact ⟨_, rfl⟩

/-- An owned slot with a free list to go to is freed, and is then the next. -/
theorem run_innerFree_of_prepared {m : Mem D} {ptr : Ptr} {layout : Layout}
    (howned : (m.storage.owned.lookup ptr).isSome)
    (hfree : (m.storage.free.lookup layout).isSome) :
    ∃ m', (Storage.innerFree ptr layout).run m = .ok () m' ∧
      ∀ other : TypeInfo D, other.layout = layout →
        ∃ m'', (Storage.alloc other).run m' = .ok ptr m'' := by
  obtain ⟨t, ht⟩ := Option.isSome_iff_exists.1 howned
  obtain ⟨stack, hstack⟩ := Option.isSome_iff_exists.1 hfree
  refine ⟨_, by rw [run_innerFree_eq, ht, hstack], ?_⟩
  intro other hlayout
  exact run_alloc_of_top (by rw [hlayout]; exact AList.lookup_insert _) (AList.lookup_erase _ _)

/-- The part of a release before `inner_free` reads the datum at most. -/
theorem releases_cases {ptr : Ptr} {info : TypeInfo D} {op : StorageOp D}
    (h : Releases ptr info op) (s : Audit D) :
    (∃ t : Audit D, t.mem.storage = s.mem.storage ∧
      op.body.run s = (Audit.onMem (Storage.innerFree ptr info.layout)).run t) ∨
      ∃ t, op.body.run s = .error .badRead t ∧ s.mem.heap.read ptr = none := by
  cases h with
  | forgetInside => exact .inl ⟨s, rfl, rfl⟩
  | dropInside =>
      rcases run_dropExecute info ptr s with ⟨t, hdrop, hmade⟩ | ⟨t, hdrop, -, hread⟩
      · exact .inl ⟨t, hmade.storage, Effect.run_bind_of_ok hdrop⟩
      · exact .inr ⟨t, Effect.run_bind_of_error hdrop, hread⟩
  | moveOut dest =>
      by_cases hnull : ptr = .null ∧ info.layout.size ≠ 0
      · have hcopy : (Storage.copyOut ptr dest info.layout).run s.mem = .error .badRead s.mem := by
          rw [Storage.copyOut, liftHeap, EStateM.run_bind, EStateM.run_get]
          simp only [if_pos hnull]
          rfl
        refine .inr ⟨s, ?_, by rw [hnull.1]; rfl⟩
        rw [StorageOp.body, Audit.onMem, EStateM.run, Effect.zoom, Storage.moveOut,
          Effect.run_bind_of_error hcopy]
      · have hcopy : (Storage.copyOut ptr dest info.layout).run s.mem = .ok ()
            { s.mem with heap := s.mem.heap.write dest (s.mem.heap.read ptr) } := by
          rw [Storage.copyOut, liftHeap, EStateM.run_bind, EStateM.run_get]
          simp only [if_neg hnull]
          rfl
        refine .inl ⟨{ s with mem := { s.mem with
          heap := s.mem.heap.write dest (s.mem.heap.read ptr) } }, rfl, ?_⟩
        rw [StorageOp.body, Audit.onMem, EStateM.run, Effect.zoom, Storage.moveOut,
          Effect.run_bind_of_ok hcopy]
        rfl

/-- Over every run, a slot can be released if and only if one of its layout was
asked for since the last `shrink_to_fit`. -/
theorem releasable_iff {heap : Heap D} {ops : List (StorageOp D)} {s : Client D}
    (hreach : Run.Reach (StorageAttempt types) (.start heap) ops s) {ptr : Ptr}
    {info : TypeInfo D} (hheld : s.held ptr = some info) :
    s.Releasable ptr info ↔ preparedFor info.layout ops = true := by
  have hkept := kept_of_reach hreach
  have howned := hkept.owned ptr (by rw [hheld]; exact Option.some_ne_none info)
  rw [← hkept.prepared]
  constructor
  · intro h
    by_contra hnone
    rw [Bool.not_eq_true, Option.isSome_eq_false_iff, Option.isNone_iff_eq_none] at hnone
    have hforget := h _ .forgetInside
    obtain ⟨t, ht⟩ := Option.isSome_iff_exists.1 howned
    have hrun : (Storage.innerFree ptr info.layout).run s.audit.mem =
        .error .notPrepared { s.audit.mem with storage := { s.audit.mem.storage with
          owned := s.audit.mem.storage.owned.erase ptr } } := by
      rw [run_innerFree_eq]
      simp only [show s.audit.mem.storage.owned.lookup ptr = some t from ht,
        show s.audit.mem.storage.free.lookup info.layout = none from hnone]
    rw [StorageOp.body, Storage.forgetInside, Audit.onMem, EStateM.run, Effect.zoom, hrun] at hforget
    cases hforget.1
  · intro hprepared op hop
    rcases releases_cases hop s.audit with ⟨t, hstorage, hrun⟩ | ⟨t, hrun, hread⟩
    · obtain ⟨m, hfree, hnext⟩ := @run_innerFree_of_prepared _ t.mem ptr info.layout
        (by rw [hstorage]; exact howned) (by rw [hstorage]; exact hprepared)
      rw [hrun, run_onMem_of_ok hfree]
      exact hnext
    · rw [hrun]
      exact ⟨rfl, hread⟩

/-- A word is stored, the free lists are drained, and a second word brings the
list back that the first one needs. -/
theorem releasable_of_second :
    ∃ s : Client Nat,
      Run.Reach (StorageAttempt wordType) (.start .empty)
        [.moveValueIn (wordType 2) (.data 8), .shrinkToFit,
          .moveValueIn (wordType 1) (.data 9)] s ∧
      s.held (.store 1) = some (wordType 1) ∧ s.Releasable (.store 1) (wordType 1) := by
  have hrun : ∃ s : Client Nat,
      Run.Reach (StorageAttempt wordType) (.start .empty)
        [.moveValueIn (wordType 2) (.data 8), .shrinkToFit,
          .moveValueIn (wordType 1) (.data 9)] s ∧
      s.held (.store 1) = some (wordType 1) :=
    ⟨_, .tail (.tail (.single (.returns (.moveValueIn rfl rfl))) (.returns (.shrinkToFit rfl)))
      (.returns (.moveValueIn rfl rfl)), rfl⟩
  obtain ⟨s, hreach, hheld⟩ := hrun
  exact ⟨s, hreach, hheld, (releasable_iff hreach hheld).2 (by decide)⟩

/-- Without the second word, the first is not released. -/
theorem not_releasable_of_shrunk :
    ∃ s : Client Nat,
      Run.Reach (StorageAttempt wordType) (.start .empty)
        [.shrinkToFit, .moveValueIn (wordType 1) (.data 9)] s ∧
      s.held (.store 1) = some (wordType 1) ∧ ¬ s.Releasable (.store 1) (wordType 1) := by
  refine ⟨_, .tail (.single (.returns (.moveValueIn rfl rfl))) (.returns (.shrinkToFit rfl)),
    rfl, fun h => ?_⟩
  cases (h _ .forgetInside).1

end ReoRs
