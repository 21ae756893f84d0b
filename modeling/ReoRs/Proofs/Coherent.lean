import ReoRs.Lib.Sharing
import ReoRs.Proofs.Spaces
import ReoRs.Proofs.Storage

/-!
# Cells, counts and slots agree

`Coherent` ties together the pointers in the memory cells, the counts in
`mem_refs` and the slots the storage owns. Three updates keep it: empty cells
are given a slot, a cell lets go of its slot, and whatever concerns none of
the three.
-/

namespace ReoRs

variable {D : Type}

namespace ProtoAll

/-- The slot a cell holds. -/
def held (s : ProtoAll D) (l : LocId) : Option Ptr :=
  (s.cell l).bind fun c => if c.1 = .null then none else some c.1

theorem held_eq_some {s : ProtoAll D} {l : LocId} {q : Ptr} :
    s.held l = some q ↔ q ≠ .null ∧ ∃ info, s.cell l = some (q, info) := by
  rw [held]
  cases hc : s.cell l with
  | none => simp
  | some c =>
      obtain ⟨q', info⟩ := c
      by_cases hq : q' = .null
      · subst hq
        simp only [Option.bind_some, if_true, Option.some.injEq, Prod.mk.injEq]
        constructor
        · intro h
          cases h
        · rintro ⟨hne, _, rfl, -⟩
          exact absurd rfl hne
      · simp only [Option.bind_some, hq, if_false, Option.some.injEq, Prod.mk.injEq]
        constructor
        · rintro rfl
          exact ⟨hq, info, rfl, rfl⟩
        · rintro ⟨-, _, rfl, -⟩
          rfl

theorem held_congr {s t : ProtoAll D} {l : LocId} (h : s.cell l = t.cell l) :
    s.held l = t.held l := by
  rw [held, held, h]

/-- Only a cell's space holds a slot, and it is the one it points at. -/
theorem held_memo_iff {s : ProtoAll D} {l : LocId} {q : Ptr} :
    s.held l = some q ↔ q ≠ .null ∧ ∃ sp, s.getSpace l = some (.memo sp) ∧ sp.ptr = q := by
  rw [held_eq_some]
  refine and_congr_right fun _ => ⟨?_, ?_⟩
  · rintro ⟨info, hc⟩
    obtain ⟨sp, hsp, hptr, -⟩ := cell_eq_some.1 hc
    exact ⟨sp, hsp, hptr⟩
  · rintro ⟨sp, hsp, hptr⟩
    exact ⟨sp.typeInfo, cell_eq_some.2 ⟨sp, hsp, hptr, rfl⟩⟩

theorem held_of_memo {s : ProtoAll D} {l : LocId} {sp : PutterSpace D}
    (hsp : s.getSpace l = some (.memo sp)) (hne : sp.ptr ≠ .null) : s.held l = some sp.ptr :=
  held_memo_iff.2 ⟨hne, sp, hsp, rfl⟩

theorem lt_length_of_held {s : ProtoAll D} {l : LocId} {q : Ptr} (h : s.held l = some q) :
    l < s.r.spaces.length := by
  obtain ⟨-, p, hp, -⟩ := held_memo_iff.1 h
  exact (List.getElem?_eq_some_iff.1 hp).1

end ProtoAll

open ProtoAll

/-- The storage of a memory with the given layout is prepared to take a slot
back. -/
def Storage.Prepared (st : Storage D) (layout : Layout) : Prop :=
  ∃ stack, st.free.lookup layout = some stack

structure Coherent (s : ProtoAll D) : Prop where
  counted : Sharing.Counted (Finset.range s.r.spaces.length) s.held
    fun q => s.w.active.memRefs.lookup q
  owned : ∀ q, q ∈ s.w.active.storage.owned ↔ ∃ l, s.held l = some q
  valid : Storage.Valid s.mem
  full : ∀ l q, s.held l = some q → ∃ v, s.heap.read q = some v
  prepared : ∀ l q info, s.cell l = some (q, info) → q ≠ .null →
    s.w.active.storage.Prepared info.layout

namespace Coherent

variable {s t : ProtoAll D}

/-- Nothing of it changed. -/
theorem congr (h : Coherent s) (hlen : t.r.spaces.length = s.r.spaces.length)
    (hcell : ∀ l, t.cell l = s.cell l)
    (hrefs : t.w.active.memRefs = s.w.active.memRefs) (hmem : t.mem = s.mem) : Coherent t := by
  have hheld : t.held = s.held := funext fun l => held_congr (hcell l)
  have hst : t.w.active.storage = s.w.active.storage := congrArg Mem.storage hmem
  have hheap : t.heap = s.heap := congrArg Mem.heap hmem
  refine ⟨?_, ?_, hmem ▸ h.valid, ?_, ?_⟩
  · rw [hlen, hheld, hrefs]
    exact h.counted
  · rw [hst, hheld]
    exact h.owned
  · rw [hheld, hheap]
    exact h.full
  · intro l q info hc hq
    rw [hst]
    exact h.prepared l q info (hcell l ▸ hc) hq

/-- A held slot is owned and counted. -/
theorem exists_refs (h : Coherent s) {l : LocId} {q : Ptr} (hl : s.held l = some q) :
    ∃ n, s.w.active.memRefs.lookup q = some n ∧ 0 < n :=
  h.counted.exists_refs (Finset.mem_range.2 (lt_length_of_held hl)) hl

/-- Slots are memory of the allocator. -/
theorem isStore (h : Coherent s) {l : LocId} {q : Ptr} (hl : s.held l = some q) :
    ∃ n, q = .store n := by
  obtain ⟨n, -, hn⟩ := h.valid.owned_live q ((h.owned q).2 ⟨l, hl⟩)
  exact ⟨n, hn⟩

/-- A slot nobody holds is not counted. -/
theorem refs_eq_none (h : Coherent s) {q : Ptr} (hq : ∀ l, s.held l ≠ some q) :
    s.w.active.memRefs.lookup q = none := by
  refine h.counted.refs_eq_none.2 (Finset.eq_empty_of_forall_notMem fun l hl => ?_)
  exact hq l (Sharing.mem_holders.1 hl).2

/-- Empty cells were given a slot, a new one or one that others hold. -/
theorem fill (h : Coherent s) {gs : List LocId} {q : Ptr} (hnd : gs.Nodup) (hq : q ≠ .null)
    (hempty : ∀ g ∈ gs, ∃ info, s.cell g = some (.null, info))
    (hpos : gs ≠ [] ∨ ∃ l, s.held l = some q)
    (hlen : t.r.spaces.length = s.r.spaces.length)
    (hcell : ∀ l, t.cell l = if l ∈ gs then (s.cell l).map fun c => (q, c.2) else s.cell l)
    (hrefs : ∀ q', t.w.active.memRefs.lookup q' =
      if q' = q then some ((s.w.active.memRefs.lookup q).getD 0 + gs.length)
      else s.w.active.memRefs.lookup q')
    (howned : ∀ q', q' ∈ t.w.active.storage.owned ↔ q' = q ∨ q' ∈ s.w.active.storage.owned)
    (hvalid : Storage.Valid t.mem)
    (hread : ∀ q' ∈ s.w.active.storage.owned, t.heap.read q' = s.heap.read q')
    (hnew : ∃ v, t.heap.read q = some v)
    (hprep : ∀ layout, s.w.active.storage.Prepared layout → t.w.active.storage.Prepared layout)
    (hprepNew : ∀ g ∈ gs, ∀ info, s.cell g = some (.null, info) →
      t.w.active.storage.Prepared info.layout) : Coherent t := by
  have hheld : t.held = Sharing.fill s.held q gs.toFinset := by
    funext l
    rw [Sharing.fill, ProtoAll.held, hcell]
    by_cases hl : l ∈ gs
    · obtain ⟨info, hinfo⟩ := hempty l hl
      rw [if_pos hl, if_pos (List.mem_toFinset.2 hl), hinfo]
      simp [hq]
    · rw [if_neg hl, if_neg (by simpa using hl)]
      rfl
  have hnone : ∀ g ∈ gs.toFinset, s.held g = none := by
    intro g hg
    obtain ⟨info, hinfo⟩ := hempty g (List.mem_toFinset.1 hg)
    rw [ProtoAll.held, hinfo]
    rfl
  have hsub : gs.toFinset ⊆ Finset.range s.r.spaces.length := by
    intro g hg
    obtain ⟨info, hinfo⟩ := hempty g (List.mem_toFinset.1 hg)
    obtain ⟨p, hp, -⟩ := cell_eq_some.1 hinfo
    exact Finset.mem_range.2 (List.getElem?_eq_some_iff.1 hp).1
  have hcard : gs.toFinset.card = gs.length := List.toFinset_card_of_nodup hnd
  refine ⟨?_, ?_, hvalid, ?_, ?_⟩
  · rw [hlen, hheld]
    have hpos' : 0 < (s.w.active.memRefs.lookup q).getD 0 + gs.toFinset.card := by
      rw [hcard]
      rcases hpos with hne | ⟨l, hl⟩
      · exact Nat.add_pos_right _ (List.length_pos_iff.2 hne)
      · obtain ⟨n, hn, hn0⟩ := h.exists_refs hl
        rw [hn]
        exact Nat.add_pos_left hn0 _
    have hfill := h.counted.fill hsub hnone rfl hpos'
    have heq : (fun q' => t.w.active.memRefs.lookup q') =
        Function.update (fun q' => s.w.active.memRefs.lookup q') q
          (some ((s.w.active.memRefs.lookup q).getD 0 + gs.toFinset.card)) := by
      funext q'
      rw [hrefs, hcard, Function.update_apply]
    rw [heq]
    exact hfill
  · intro q'
    rw [howned, hheld, h.owned]
    constructor
    · rintro (rfl | ⟨l, hl⟩)
      · rcases hpos with hne | ⟨l, hl⟩
        · obtain ⟨g, hg⟩ := List.exists_mem_of_ne_nil gs hne
          exact ⟨g, if_pos (List.mem_toFinset.2 hg)⟩
        · refine ⟨l, ?_⟩
          rw [Sharing.fill]
          split
          · rfl
          · exact hl
      · refine ⟨l, ?_⟩
        rw [Sharing.fill, if_neg, hl]
        intro hg
        rw [hnone l hg] at hl
        cases hl
    · rintro ⟨l, hl⟩
      rw [Sharing.fill] at hl
      split at hl
      · cases hl
        exact .inl rfl
      · exact .inr ⟨l, hl⟩
  · intro l q' hl
    rw [hheld, Sharing.fill] at hl
    split at hl
    · cases hl
      exact hnew
    · rw [hread q' ((h.owned q').2 ⟨l, hl⟩)]
      exact h.full l q' hl
  · intro l q' info hc hq'
    rw [hcell] at hc
    split at hc
    · next hl =>
        obtain ⟨info', hinfo⟩ := hempty l hl
        rw [hinfo] at hc
        cases hc
        exact hprepNew l hl _ hinfo
    · exact hprep _ (h.prepared l q' info hc hq')

/-- A cell let go of its slot, which was freed with its last holder. -/
theorem release (h : Coherent s) {l : LocId} {q : Ptr} (hl : s.held l = some q) {n : Nat}
    (hn : s.w.active.memRefs.lookup q = some n)
    (hlen : t.r.spaces.length = s.r.spaces.length)
    (hcell : ∀ l', t.cell l' = if l' = l then (s.cell l').map fun c => (.null, c.2) else s.cell l')
    (hrefs : ∀ q', t.w.active.memRefs.lookup q' =
      if q' = q then (if n = 1 then none else some (n - 1)) else s.w.active.memRefs.lookup q')
    (hfreed : if n = 1 then Storage.Freed q s.mem t.mem else t.mem = s.mem) : Coherent t := by
  have hheld : t.held = Function.update s.held l none := by
    funext l'
    rw [ProtoAll.held, hcell, Function.update_apply]
    by_cases hl' : l' = l
    · rw [if_pos hl', if_pos hl']
      cases s.cell l' <;> simp
    · rw [if_neg hl', if_neg hl']
      rfl
  have hkeep : ∀ l' q', t.held l' = some q' → s.held l' = some q' := by
    intro l' q' h'
    rw [hheld, Function.update_apply] at h'
    split at h'
    · cases h'
    · exact h'
  have hlt := Finset.mem_range.2 (lt_length_of_held hl)
  -- the count tells whether another cell holds the slot
  have hothers : n = 1 ↔ ∀ l', t.held l' ≠ some q := by
    obtain ⟨-, hcard⟩ := (h.counted q n).1 hn
    rw [← hcard, Finset.card_eq_one]
    constructor
    · rintro ⟨a, ha⟩ l' hl'
      have hal : l = a := by
        have : l ∈ Sharing.holders (Finset.range s.r.spaces.length) s.held q :=
          Sharing.mem_holders.2 ⟨hlt, hl⟩
        rw [ha] at this
        exact Finset.mem_singleton.1 this
      have hl'a : l' = a := by
        have hs := hkeep l' q hl'
        have : l' ∈ Sharing.holders (Finset.range s.r.spaces.length) s.held q :=
          Sharing.mem_holders.2 ⟨Finset.mem_range.2 (lt_length_of_held hs), hs⟩
        rw [ha] at this
        exact Finset.mem_singleton.1 this
      rw [hheld, hl'a, ← hal, Function.update_self] at hl'
      cases hl'
    · intro hnone
      refine ⟨l, Finset.eq_singleton_iff_unique_mem.2 ⟨Sharing.mem_holders.2 ⟨hlt, hl⟩, ?_⟩⟩
      intro l' hl'
      by_contra hne
      refine hnone l' ?_
      rw [hheld, Function.update_of_ne hne]
      exact (Sharing.mem_holders.1 hl').2
  have hread : ∀ q', t.heap.read q' = s.heap.read q' := by
    split at hfreed
    · exact hfreed.read
    · exact fun q' => by rw [show t.heap = s.heap from congrArg Mem.heap hfreed]
  refine ⟨?_, ?_, ?_, ?_, ?_⟩
  · rw [hlen, hheld]
    have heq : (fun q' => t.w.active.memRefs.lookup q') =
        Function.update (fun q' => s.w.active.memRefs.lookup q') q
          (if n = 1 then none else some (n - 1)) := by
      funext q'
      rw [hrefs, Function.update_apply]
    rw [heq]
    exact h.counted.release hlt hl hn
  · intro q'
    have hheld' : (∃ l', t.held l' = some q') ↔
        (∃ l', s.held l' = some q') ∧ (q' = q → n ≠ 1) := by
      constructor
      · rintro ⟨l', h'⟩
        refine ⟨⟨l', hkeep l' q' h'⟩, ?_⟩
        rintro rfl hn1
        exact hothers.1 hn1 l' h'
      · rintro ⟨⟨l', h'⟩, hq'⟩
        by_cases hqq : q' = q
        · subst hqq
          have := mt hothers.2 (hq' rfl)
          simp only [ne_eq, not_forall, not_not] at this
          exact this
        · refine ⟨l', ?_⟩
          rw [hheld, Function.update_of_ne, h']
          rintro rfl
          exact hqq (Option.some.inj (h'.symm.trans hl))
    rw [hheld', ← h.owned]
    split at hfreed
    · next hn1 =>
        rw [show t.w.active.storage.owned = t.mem.storage.owned from rfl, hfreed.owned]
        exact ⟨fun hq' => ⟨hq'.2, fun heq => absurd heq hq'.1⟩, fun hq' =>
          ⟨fun heq => hq'.2 heq hn1, hq'.1⟩⟩
    · next hn1 =>
        rw [show t.w.active.storage = s.w.active.storage from congrArg Mem.storage hfreed]
        exact ⟨fun hq' => ⟨hq', fun _ => hn1⟩, fun hq' => hq'.1⟩
  · split at hfreed
    · exact hfreed.valid
    · exact hfreed ▸ h.valid
  · intro l' q' h'
    rw [hread]
    exact h.full l' q' (hkeep l' q' h')
  · intro l' q' info hc hq'
    have hprep : s.w.active.storage.Prepared info.layout := by
      rw [hcell] at hc
      split at hc
      · cases hs : s.cell l' with
        | none =>
            rw [hs] at hc
            cases hc
        | some c =>
            rw [hs] at hc
            cases hc
            exact absurd rfl hq'
      · exact h.prepared l' q' info hc hq'
    split at hfreed
    · exact hfreed.prepared _ hprep
    · rw [show t.w.active.storage = s.w.active.storage from congrArg Mem.storage hfreed]
      exact hprep

end Coherent

end ReoRs
