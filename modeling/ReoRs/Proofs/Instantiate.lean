import ReoRs.Proofs.Finish

/-!
# `try_instantiate` and initialised memory

`try_instantiate` goes through the initialised cells and has each filled, by a
promise that is not returned from. (`finish`, coming to the cell's space, would
make a second promise for it and have it filled again.) So a definition with an
initialised cell cannot be instantiated at all, and the condition under which
the others can says nothing about memory.
-/

namespace ReoRs

variable {D : Type}

/-! ## Filling a cell -/

/-- `fill_memory` returns only without the token. -/
theorem callFillMemory_ok {P : Proto D} {promise : MemFillPromise} {r : Option PromiseFulfilled}
    {b b' : Build D} (h : (P.callFillMemory promise).run b = .ok r b') : r = none := by
  cases r with
  | none => rfl
  | some fulfilled => cases fulfilled

/-- The author keeps every promise with a value of the cell's type. -/
def FillsKept (P : Proto D) : Prop :=
  ∀ l, P.typelessProtoDef.locKinds.lookup l = some .memInitialized →
    ∃ info v, P.fillMemory l = some (info, v) ∧ P.typeAt l = some info.typeId

/-- No cell is filled, whether the promise is kept or not. -/
theorem run_fillInitMemory (P : Proto D) (l : LocId) (b : Build D) :
    ∃ e b', (fillInitMemory P l).run b = .error e b' := by
  cases hrun : (fillInitMemory P l).run b with
  | error e b' => exact ⟨e, b', rfl⟩
  | ok u b' =>
      exfalso
      rw [fillInitMemory] at hrun
      cases ht : P.locType l with
      | none =>
          rw [ht] at hrun
          cases hrun
      | some i =>
          rw [ht] at hrun
          obtain ⟨r, b₁, hcall, h⟩ := Effect.ok_of_bind_ok hrun
          obtain rfl := callFillMemory_ok hcall
          cases h

/-! ## The condition -/

/-- The initial state an instance with initialised cells should have: each is
ready and full and owns a pointer of its own, which one cell holds, and no
other pointer is counted. -/
structure InitialisedWell (P : Proto D) (s : ProtoAll D) : Prop where
  cells : ∀ l, P.typelessProtoDef.locKinds.lookup l = some .memInitialized →
    s.w.active.ready.test l = true ∧ s.w.memoryBits.test l = true ∧
      ∃ p, s.getMePu l = some p ∧ p.ptr ≠ .null ∧ p.ptr ∈ s.w.active.storage.owned ∧
        s.w.active.memRefs.lookup p.ptr = some 1
  own : ∀ l l' p p', P.typelessProtoDef.locKinds.lookup l = some .memInitialized →
    P.typelessProtoDef.locKinds.lookup l' = some .memInitialized →
    s.getMePu l = some p → s.getMePu l' = some p' → p.ptr = p'.ptr → l = l'
  nothingElse : ∀ q n, s.w.active.memRefs.lookup q = some n →
    ∃ l p, P.typelessProtoDef.locKinds.lookup l = some .memInitialized ∧
      s.getMePu l = some p ∧ p.ptr = q

/-- With an initialised cell there is no instance. -/
theorem uninitialized_of_tryInstantiate {P : Proto D} {b b' : Build D} {s : ProtoAll D}
    (h : (tryInstantiate P).run b = .ok s b') : Uninitialized P := by
  rw [tryInstantiate] at h
  obtain ⟨_, b₁, hfill, -⟩ := Effect.ok_of_bind_ok h
  intro l hl
  have hmem : l ∈ idsOfKind P.typelessProtoDef.locKinds (· == .memInitialized) :=
    mem_idsOfKind.2 ⟨_, hl, rfl⟩
  cases hids : idsOfKind P.typelessProtoDef.locKinds (· == .memInitialized) with
  | nil =>
      rw [hids] at hmem
      cases hmem
  | cons id ids =>
      rw [hids, Effect.run_forEach_cons] at hfill
      obtain ⟨_, b₂, hone, -⟩ := Effect.ok_of_bind_ok hfill
      obtain ⟨e, b₃, herr⟩ := run_fillInitMemory P id b
      rw [herr] at hone
      cases hone

/-- Without one, `try_instantiate` is `finish`. -/
theorem tryInstantiate_of_uninitialized {P : Proto D} (hun : Uninitialized P) :
    tryInstantiate P = finish P := by
  have hnone : idsOfKind P.typelessProtoDef.locKinds (· == .memInitialized) = [] := by
    rw [List.eq_nil_iff_forall_not_mem]
    intro l hl
    obtain ⟨k, hk, heq⟩ := mem_idsOfKind.1 hl
    exact hun l (hk.trans (by rw [eq_of_beq heq]))
  rw [tryInstantiate, hnone]
  rfl

/-- So an instance is one that `finish` makes of a definition without
initialised cells. -/
theorem finish_of_tryInstantiate {P : Proto D} {b b' : Build D} {s : ProtoAll D}
    (h : (tryInstantiate P).run b = .ok s b') :
    Uninitialized P ∧ (finish P).run b = .ok s b' := by
  have hun := uninitialized_of_tryInstantiate h
  exact ⟨hun, tryInstantiate_of_uninitialized hun ▸ h⟩

/-- A definition with declared types and well-formed rules is instantiated as it
should be iff it has no initialised cell, and of no guard the first function is
defined. Whether the promises are kept makes no difference. -/
theorem tryInstantiate_iff (P : Proto D) (heap : Heap D)
    (htypes : ∀ l k, P.typelessProtoDef.locKinds.lookup l = some k → ∃ i, P.locType l = some i)
    (hrules : ∀ r ∈ P.typelessProtoDef.behaviour.rules,
      WellFormedRule P.typelessProtoDef.locKinds P.typeAt r.actions) :
    (∃ s b, (tryInstantiate P).run (.new heap) = .ok s b ∧ InitialisedWell P s) ↔
      Uninitialized P ∧ ∀ r ∈ P.typelessProtoDef.behaviour.rules, ¬ r.guard.StopsBuild P := by
  constructor
  · rintro ⟨s, b, h, -⟩
    have hun := uninitialized_of_tryInstantiate h
    rw [tryInstantiate_of_uninitialized hun] at h
    exact ⟨hun, ((finish_iff_of_uninitialized hun (.new heap)).1.1 ⟨s, b, h⟩).2.2⟩
  · rintro ⟨hun, hgo⟩
    obtain ⟨s, b, hrun⟩ := (finish_iff_of_uninitialized hun (.new heap)).1.2
      ⟨htypes, hrules, hgo⟩
    rw [tryInstantiate_of_uninitialized hun]
    refine ⟨s, b, hrun, ?_, ?_, ?_⟩
    · exact fun l hl => absurd hl (hun l)
    · exact fun l _ _ _ hl => absurd hl (hun l)
    · intro q n hq
      rw [(built_of_finish hrun).memRefs] at hq
      cases hq

/-! ## One initialised cell -/

/-- The descriptor of a boxed type. -/
def cellInfo : TypeInfo Nat where
  typeId := 1
  isCopy := false
  layout := ⟨8, 8⟩
  funcs := ⟨.dropInPlace, .defined id, .undefined⟩

/-- A synchronous channel from the putter 0 to a getter. -/
def channel (g : LocId) : Proto Nat where
  typelessProtoDef := ⟨⟨[⟨.true, [⟨0, [g]⟩]⟩]⟩, collectMap [(0, .portPutter), (g, .portGetter)]⟩
  fillMemory := fun _ => none
  defFunc := fun _ => none
  locType := fun _ => some cellInfo

section Channel

variable {g : LocId}

theorem channel_lookup (g l : LocId) : (channel g).typelessProtoDef.locKinds.lookup l =
    if l = g then some .portGetter else if l = 0 then some .portPutter else none :=
  lookup_collectMap_pair 0 g l _ _

theorem channel_wellFormed (hg : g ≠ 0) : ∀ r ∈ (channel g).typelessProtoDef.behaviour.rules,
    WellFormedRule (channel g).typelessProtoDef.locKinds (channel g).typeAt r.actions := by
  intro r hr
  obtain rfl := List.mem_singleton.1 hr
  refine ⟨?_, ?_, ?_, ?_⟩
  · intro a ha
    obtain rfl := List.mem_singleton.1 ha
    exact ⟨.portPutter, by rw [channel_lookup, if_neg hg.symm, if_pos rfl], rfl⟩
  · intro a ha x hx
    obtain rfl := List.mem_singleton.1 ha
    obtain rfl := List.mem_singleton.1 hx
    exact ⟨.portGetter, by rw [channel_lookup, if_pos rfl], rfl, rfl⟩
  · intro a ha hself
    obtain rfl := List.mem_singleton.1 ha
    exact absurd (List.mem_singleton.1 hself).symm hg
  · exact List.pairwise_singleton _ _

theorem channel_uninitialized (g : LocId) : Uninitialized (channel g) := by
  intro l
  rw [channel_lookup]
  split
  · simp
  · split <;> simp

theorem finish_channel (hg : g ≠ 0) :
    ∃ s b, (finish (channel g)).run (.new .empty) = .ok s b :=
  finish_of_unguarded (channel_uninitialized g) (fun _ _ _ => ⟨cellInfo, rfl⟩)
    (channel_wellFormed hg) (by simp [channel]) (.new .empty)

end Channel

/-- The channel can be instantiated. -/
theorem tryInstantiate_channel : ∃ s b,
    (tryInstantiate (channel 1)).run (.new .empty) = .ok s b ∧ InitialisedWell (channel 1) s :=
  (tryInstantiate_iff (channel 1) .empty (fun _ _ _ => ⟨cellInfo, rfl⟩)
    (channel_wellFormed (by decide))).2
    ⟨channel_uninitialized 1, by simp [channel, Formula.StopsBuild]⟩

/-- A protocol whose only location is a cell that starts with a datum. -/
def filledCell : Proto Nat where
  typelessProtoDef := ⟨⟨[]⟩, collectMap [(0, .memInitialized)]⟩
  fillMemory := fun _ => some (cellInfo, .data 7)
  defFunc := fun _ => none
  locType := fun _ => some cellInfo

/-- It cannot: the promise for the cell is kept, and the process ends. -/
theorem not_instantiated_filledCell : FillsKept filledCell ∧
    (∃ b, (tryInstantiate filledCell).run (.new .empty) = .error .aborted b) ∧
    ¬ ∃ s b, (tryInstantiate filledCell).run (.new .empty) = .ok s b ∧
      InitialisedWell filledCell s := by
  refine ⟨fun _ _ => ⟨cellInfo, .data 7, rfl, rfl⟩, ⟨_, rfl⟩, ?_⟩
  rintro ⟨s, b, h, -⟩
  exact uninitialized_of_tryInstantiate h 0 (by decide)

end ReoRs
