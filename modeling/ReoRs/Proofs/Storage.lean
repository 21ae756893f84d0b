import ReoRs.Proto.Memory

/-!
# The storage hands out slots nobody has

`Storage.Valid` is what the storage relies on and keeps: its slots are live
allocations, and no slot is in two places. From it `alloc` cannot come upon a
slot that is owned already, and a slot that is owned can be freed.
-/

namespace ReoRs

variable {D : Type}

namespace Storage

/-- Owned slots and free ones are live, and all are different. -/
structure Valid (m : Mem D) : Prop where
  owned_live : ∀ q ∈ m.storage.owned, ∃ a ∈ m.heap.live, q = .store a
  free_live : ∀ layout stack, m.storage.free.lookup layout = some stack → ∀ q ∈ stack,
    ∃ a ∈ m.heap.live, q = .store a
  free_not_owned : ∀ layout stack, m.storage.free.lookup layout = some stack → ∀ q ∈ stack,
    q ∉ m.storage.owned
  nodup : ∀ layout stack, m.storage.free.lookup layout = some stack → stack.Nodup
  apart : ∀ layout layout' stack stack', m.storage.free.lookup layout = some stack →
    m.storage.free.lookup layout' = some stack' → ∀ q ∈ stack, q ∈ stack' → layout = layout'

theorem valid_empty (heap : Heap D) : Valid ⟨∅, heap⟩ where
  owned_live := fun q hq => absurd hq (AList.notMem_empty q)
  free_live := fun layout stack h => by cases h
  free_not_owned := fun layout stack h => by cases h
  nodup := fun layout stack h => by cases h
  apart := fun layout layout' stack stack' h => by cases h

/-! ## Allocation -/

/-- What taking a slot off the free stack, or a new one, comes to. -/
structure Popped (layout : Layout) (m : Mem D) (dest : Ptr) (m' : Mem D) : Prop where
  isStore : ∃ a ∈ m'.heap.live, dest = .store a
  fresh : dest ∉ m.storage.owned
  taken : ∀ layout' stack, m'.storage.free.lookup layout' = some stack → dest ∉ stack
  owned : m'.storage.owned = m.storage.owned
  valid : Valid m'
  prepared : ∀ layout', layout' = layout ∨ (∃ stack, m.storage.free.lookup layout' = some stack) →
    ∃ stack, m'.storage.free.lookup layout' = some stack
  read : ∀ q, q ≠ dest → m'.heap.read q = m.heap.read q
  dropped : m'.heap.dropped = m.heap.dropped

theorem popFree_spec {m : Mem D} (hm : Valid m) (layout : Layout) :
    Popped layout m (popFree layout m).1 (popFree layout m).2 := by
  cases hstack : (m.storage.free.lookup layout).getD [] with
  | cons dest rest =>
      have hfree : m.storage.free.lookup layout = some (dest :: rest) := by
        cases h : m.storage.free.lookup layout with
        | none =>
            rw [h] at hstack
            cases hstack
        | some stack =>
            rw [h] at hstack
            exact congrArg some hstack
      have hpop : popFree layout m = (dest, { m with storage := { m.storage with
          free := m.storage.free.insert layout rest } }) := by
        rw [popFree, hstack]
      rw [hpop]
      have hnd := List.nodup_cons.1 (hm.nodup layout _ hfree)
      -- a stack after the pop is a stack before it, or the rest of the one popped
      have hold : ∀ layout' stack, (m.storage.free.insert layout rest).lookup layout' = some stack →
          ∃ stack', m.storage.free.lookup layout' = some stack' ∧ stack.Sublist stack' ∧
            dest ∉ stack := by
        intro layout' stack h
        by_cases hl : layout' = layout
        · subst hl
          rw [AList.lookup_insert] at h
          cases h
          exact ⟨_, hfree, List.sublist_cons_self dest rest, hnd.1⟩
        · rw [AList.lookup_insert_ne hl] at h
          refine ⟨stack, h, List.Sublist.refl stack, fun hmem => hl ?_⟩
          exact hm.apart layout' layout stack _ h hfree dest hmem List.mem_cons_self
      refine ⟨hm.free_live layout _ hfree dest List.mem_cons_self,
        hm.free_not_owned layout _ hfree dest List.mem_cons_self, ?_, rfl, ?_, ?_, fun _ _ => rfl,
        rfl⟩
      · exact fun layout' stack h => (hold layout' stack h).choose_spec.2.2
      · refine ⟨hm.owned_live, ?_, ?_, ?_, ?_⟩
        · intro layout' stack h q hq
          obtain ⟨stack', h', hsub, -⟩ := hold layout' stack h
          exact hm.free_live layout' stack' h' q (hsub.subset hq)
        · intro layout' stack h q hq
          obtain ⟨stack', h', hsub, -⟩ := hold layout' stack h
          exact hm.free_not_owned layout' stack' h' q (hsub.subset hq)
        · intro layout' stack h
          obtain ⟨stack', h', hsub, -⟩ := hold layout' stack h
          exact hsub.nodup (hm.nodup layout' stack' h')
        · intro l₁ l₂ s₁ s₂ h₁ h₂ q hq₁ hq₂
          obtain ⟨t₁, ht₁, hsub₁, -⟩ := hold l₁ s₁ h₁
          obtain ⟨t₂, ht₂, hsub₂, -⟩ := hold l₂ s₂ h₂
          exact hm.apart l₁ l₂ t₁ t₂ ht₁ ht₂ q (hsub₁.subset hq₁) (hsub₂.subset hq₂)
      · intro layout' h
        by_cases hl : layout' = layout
        · exact ⟨rest, by rw [hl, AList.lookup_insert]⟩
        · obtain ⟨stack, hs⟩ := h.resolve_left hl
          exact ⟨stack, by rw [AList.lookup_insert_ne hl, hs]⟩
  | nil =>
      have hpop : popFree layout m =
          ((m.heap.allocate layout).1, { storage := { m.storage with
              free := m.storage.free.insert layout [] }, heap := (m.heap.allocate layout).2 }) := by
        rw [popFree, hstack]
      rw [hpop]
      have hfresh := m.heap.global.fresh m.heap.allocs m.heap.live layout
      have hnew : ∀ q, (∃ a ∈ m.heap.live, q = .store a) → q ≠ (m.heap.allocate layout).1 := by
        rintro q ⟨a, ha, rfl⟩ heq
        injection heq with heq
        exact hfresh (heq ▸ ha)
      have hgrow : ∀ q, (∃ a ∈ m.heap.live, q = Ptr.store a) →
          ∃ a ∈ (m.heap.allocate layout).2.live, q = .store a := by
        rintro q ⟨a, ha, rfl⟩
        exact ⟨a, List.mem_cons_of_mem _ ha, rfl⟩
      have hold : ∀ layout' stack, (m.storage.free.insert layout []).lookup layout' = some stack →
          stack = [] ∨ m.storage.free.lookup layout' = some stack := by
        intro layout' stack h
        by_cases hl : layout' = layout
        · subst hl
          rw [AList.lookup_insert] at h
          cases h
          exact .inl rfl
        · rw [AList.lookup_insert_ne hl] at h
          exact .inr h
      refine ⟨⟨_, List.mem_cons_self, rfl⟩, ?_, ?_, rfl, ?_, ?_, ?_, rfl⟩
      · exact fun hmem => hnew _ (hm.owned_live _ hmem) rfl
      · intro layout' stack h hmem
        rcases hold layout' stack h with rfl | h
        · cases hmem
        · exact hnew _ (hm.free_live layout' stack h _ hmem) rfl
      · refine ⟨fun q hq => hgrow q (hm.owned_live q hq), ?_, ?_, ?_, ?_⟩
        · intro layout' stack h q hq
          rcases hold layout' stack h with rfl | h
          · cases hq
          · exact hgrow q (hm.free_live layout' stack h q hq)
        · intro layout' stack h q hq
          rcases hold layout' stack h with rfl | h
          · cases hq
          · exact hm.free_not_owned layout' stack h q hq
        · intro layout' stack h
          rcases hold layout' stack h with rfl | h
          · exact List.nodup_nil
          · exact hm.nodup layout' stack h
        · intro l₁ l₂ s₁ s₂ h₁ h₂ q hq₁ hq₂
          rcases hold l₁ s₁ h₁ with rfl | h₁
          · cases hq₁
          · rcases hold l₂ s₂ h₂ with rfl | h₂
            · cases hq₂
            · exact hm.apart l₁ l₂ s₁ s₂ h₁ h₂ q hq₁ hq₂
      · intro layout' h
        by_cases hl : layout' = layout
        · exact ⟨[], by rw [hl, AList.lookup_insert]⟩
        · obtain ⟨stack, hs⟩ := h.resolve_left hl
          exact ⟨stack, by rw [AList.lookup_insert_ne hl, hs]⟩
      · exact fun q hq => m.heap.read_write_ne none hq

/-- A slot was allocated: it was nobody's, now it is owned. -/
structure Allocated (info : TypeInfo D) (m : Mem D) (dest : Ptr) (m' : Mem D) : Prop where
  isStore : ∃ a, dest = .store a
  fresh : dest ∉ m.storage.owned
  owned : ∀ q, q ∈ m'.storage.owned ↔ q = dest ∨ q ∈ m.storage.owned
  valid : Valid m'
  prepared : ∀ layout, layout = info.layout ∨
    (∃ stack, m.storage.free.lookup layout = some stack) →
      ∃ stack, m'.storage.free.lookup layout = some stack
  read : ∀ q, q ≠ dest → m'.heap.read q = m.heap.read q
  dropped : m'.heap.dropped = m.heap.dropped

theorem run_alloc {m : Mem D} (hm : Valid m) (info : TypeInfo D) :
    ∃ dest m', (alloc info).run m = .ok dest m' ∧ Allocated info m dest m' := by
  have hnote : Valid { m with storage := m.storage.noteType info } := by
    rw [noteType]
    split
    · exact hm
    · exact ⟨hm.owned_live, hm.free_live, hm.free_not_owned, hm.nodup, hm.apart⟩
  have hsame : (m.storage.noteType info).owned = m.storage.owned ∧
      (m.storage.noteType info).free = m.storage.free := by
    rw [noteType]
    split <;> exact ⟨rfl, rfl⟩
  obtain ⟨dest, m₁, hpop⟩ :
      ∃ dest m₁, popFree info.layout { m with storage := m.storage.noteType info } = (dest, m₁) :=
    ⟨_, _, rfl⟩
  have hspec := popFree_spec hnote info.layout
  rw [hpop] at hspec
  have hfresh : m₁.storage.owned.lookup dest = none := by
    rw [hspec.owned]
    exact AList.lookup_eq_none.2 hspec.fresh
  refine ⟨dest, { m₁ with storage := { m₁.storage with
    owned := m₁.storage.owned.insert dest info.typeId } }, ?_, ?_⟩
  · rw [alloc, EStateM.run_bind, EStateM.run_modify]
    simp only [EStateM.run_bind, EStateM.run_get, EStateM.run_set]
    rw [hpop]
    simp only [hfresh]
    rfl
  · refine ⟨⟨_, hspec.isStore.choose_spec.2⟩, ?_, ?_, ?_, ?_, hspec.read, hspec.dropped⟩
    · have := hspec.fresh
      rwa [hsame.1] at this
    · intro q
      rw [AList.mem_insert, hspec.owned, hsame.1]
    · refine ⟨?_, hspec.valid.free_live, ?_, hspec.valid.nodup, hspec.valid.apart⟩
      · intro q hq
        rcases (AList.mem_insert _).1 hq with rfl | hq
        · exact hspec.isStore
        · exact hspec.valid.owned_live q hq
      · intro layout stack h q hq hmem
        rcases (AList.mem_insert _).1 hmem with rfl | hmem
        · exact hspec.taken layout stack h hq
        · exact hspec.valid.free_not_owned layout stack h q hq hmem
    · intro layout h
      refine hspec.prepared layout ?_
      rwa [hsame.2]

/-! ## Release -/

/-- An owned slot went to the free stack of its layout. -/
structure Freed (ptr : Ptr) (m m' : Mem D) : Prop where
  owned : ∀ q, q ∈ m'.storage.owned ↔ q ≠ ptr ∧ q ∈ m.storage.owned
  valid : Valid m'
  prepared : ∀ layout, (∃ stack, m.storage.free.lookup layout = some stack) →
    ∃ stack, m'.storage.free.lookup layout = some stack
  read : ∀ q, m'.heap.read q = m.heap.read q

theorem run_innerFree {m : Mem D} (hm : Valid m) {ptr : Ptr} {layout : Layout} {stack : List Ptr}
    (howned : ptr ∈ m.storage.owned) (hfree : m.storage.free.lookup layout = some stack) :
    ∃ m', (innerFree ptr layout).run m = .ok () m' ∧ Freed ptr m m' ∧ m'.heap = m.heap := by
  obtain ⟨t, ht⟩ := Option.isSome_iff_exists.1 (AList.lookup_isSome.2 howned)
  refine ⟨{ m with storage := { m.storage with
    owned := m.storage.owned.erase ptr
    free := m.storage.free.insert layout (ptr :: stack) } }, ?_, ?_, rfl⟩
  · rw [innerFree, EStateM.run_bind, EStateM.run_get]
    simp only [ht, EStateM.run_bind, EStateM.run_set, hfree]
  · -- a stack after the push is a stack before it, or the one pushed on
    have hold : ∀ layout' stack',
        (m.storage.free.insert layout (ptr :: stack)).lookup layout' = some stack' →
          (layout' = layout ∧ stack' = ptr :: stack) ∨
            (layout' ≠ layout ∧ m.storage.free.lookup layout' = some stack') := by
      intro layout' stack' h
      by_cases hl : layout' = layout
      · subst hl
        rw [AList.lookup_insert] at h
        cases h
        exact .inl ⟨rfl, rfl⟩
      · rw [AList.lookup_insert_ne hl] at h
        exact .inr ⟨hl, h⟩
    have hout : ∀ layout' stack', m.storage.free.lookup layout' = some stack' → ptr ∉ stack' :=
      fun layout' stack' h hmem => hm.free_not_owned layout' stack' h ptr hmem howned
    refine ⟨fun q => AList.mem_erase, ?_, ?_, fun _ => rfl⟩
    · refine ⟨?_, ?_, ?_, ?_, ?_⟩
      · exact fun q hq => hm.owned_live q (AList.mem_erase.1 hq).2
      · intro layout' stack' h q hq
        rcases hold layout' stack' h with ⟨rfl, rfl⟩ | ⟨-, h⟩
        · rcases List.mem_cons.1 hq with rfl | hq
          · exact hm.owned_live q howned
          · exact hm.free_live layout' stack hfree q hq
        · exact hm.free_live layout' stack' h q hq
      · intro layout' stack' h q hq hmem
        obtain ⟨hne, hin⟩ := AList.mem_erase.1 hmem
        rcases hold layout' stack' h with ⟨rfl, rfl⟩ | ⟨-, hs⟩
        · rcases List.mem_cons.1 hq with rfl | hq
          · exact hne rfl
          · exact hm.free_not_owned layout' stack hfree q hq hin
        · exact hm.free_not_owned layout' stack' hs q hq hin
      · intro layout' stack' h
        rcases hold layout' stack' h with ⟨rfl, rfl⟩ | ⟨-, h⟩
        · exact List.nodup_cons.2 ⟨hout layout' stack hfree, hm.nodup layout' stack hfree⟩
        · exact hm.nodup layout' stack' h
      · intro l₁ l₂ s₁ s₂ h₁ h₂ q hq₁ hq₂
        rcases hold l₁ s₁ h₁ with ⟨rfl, rfl⟩ | ⟨-, k₁⟩
        · rcases hold l₂ s₂ h₂ with ⟨rfl, rfl⟩ | ⟨-, k₂⟩
          · rfl
          · rcases List.mem_cons.1 hq₁ with rfl | hq₁
            · exact absurd hq₂ (hout l₂ s₂ k₂)
            · exact hm.apart l₁ l₂ stack s₂ hfree k₂ q hq₁ hq₂
        · rcases hold l₂ s₂ h₂ with ⟨rfl, rfl⟩ | ⟨-, k₂⟩
          · rcases List.mem_cons.1 hq₂ with rfl | hq₂
            · exact absurd hq₁ (hout l₁ s₁ k₁)
            · exact hm.apart l₁ l₂ s₁ stack k₁ hfree q hq₁ hq₂
          · exact hm.apart l₁ l₂ s₁ s₂ k₁ k₂ q hq₁ hq₂
    · intro layout' h
      by_cases hl : layout' = layout
      · exact ⟨ptr :: stack, by rw [hl, AList.lookup_insert]⟩
      · obtain ⟨stack', hs⟩ := h
        exact ⟨stack', by rw [AList.lookup_insert_ne hl, hs]⟩

/-- What running a drop function on a datum adds to the record of drops. -/
def drops (f : DropFn) (v : Datum D) : List (Datum D) :=
  match f with
  | .undefined => []
  | .dropInPlace => [v]

theorem run_dropFn {f : DropFn} {q : Ptr} {h : Heap D} {v : Datum D} (hv : h.read q = some v) :
    f.execute q h = .ok { h with dropped := drops f v ++ h.dropped } := by
  cases f with
  | undefined => rfl
  | dropInPlace => simp [DropFn.execute, hv, drops]

/-- The last reference to an owned slot: the datum is dropped or forgotten,
and the slot is free. -/
theorem run_dispose {m : Mem D} (hm : Valid m) {ptr : Ptr} {info : TypeInfo D}
    {stack : List Ptr} {v : Datum D} (howned : ptr ∈ m.storage.owned)
    (hfree : m.storage.free.lookup info.layout = some stack) (hv : m.heap.read ptr = some v)
    (drop : Bool) :
    ∃ m', (if drop then dropInside ptr info else forgetInside ptr info).run m = .ok () m' ∧
      Freed ptr m m' ∧
        m'.heap.dropped = (if drop then drops info.funcs.drop v else []) ++ m.heap.dropped := by
  cases drop with
  | false =>
      obtain ⟨m', hrun, hfreed, hheap⟩ := run_innerFree hm howned hfree
      exact ⟨m', hrun, hfreed, by rw [hheap]; rfl⟩
  | true =>
      let h' : Heap D := { m.heap with dropped := drops info.funcs.drop v ++ m.heap.dropped }
      have hdrop :
          (liftHeap (info.funcs.drop.execute ptr)).run m = .ok () { m with heap := h' } := by
        rw [liftHeap, EStateM.run_bind, EStateM.run_get]
        simp only [run_dropFn hv]
        rfl
      have hm' : Valid { m with heap := h' } :=
        ⟨hm.owned_live, hm.free_live, hm.free_not_owned, hm.nodup, hm.apart⟩
      obtain ⟨m', hrun, hfreed, hheap⟩ := run_innerFree hm' howned hfree
      refine ⟨m', ?_, ⟨hfreed.owned, hfreed.valid, hfreed.prepared, ?_⟩, by rw [hheap]; rfl⟩
      · rw [if_pos rfl, dropInside, Effect.run_bind_of_ok hdrop, hrun]
      · intro q
        rw [hfreed.read]
        cases q <;> rfl

end Storage

end ReoRs
