import ReoRs.Proofs.Coherent
import ReoRs.Proofs.Fullness

/-!
# A cell that puts to itself

`build_rules` lets a memory cell be among the getters of its own put, and
`perform_action` knows about it in two places: the loop over the getter cells
passes over the putter, and at the end of an action without port getters the
putter is not emptied. What nobody does is give the cell its readiness back,
which `subtract_readiness` took. With port getters the one who finishes does,
through `make_empty`, and that empties the cell. So after a firing the cell is
ready or holds its value, and never both.
-/

namespace ReoRs

variable {D : Type}

open ProtoAll
open Effect (Keeps keeps_pure keeps_throw keeps_set keeps_modify keeps_get_bind
  keeps_forEach_of_mem keeps_zoom)

/-! ## A cell nobody touches -/

/-- Location `m` is a cell with this pointer and descriptor, and is not
ready. -/
structure Parked (m : LocId) (c : Ptr × TypeInfo D) (s : ProtoAll D) : Prop where
  cell : s.cell m = some c
  notReady : s.w.active.ready.test m = false

section Parked

variable {m : LocId} {c : Ptr × TypeInfo D}

theorem Parked.setPtr {s : ProtoAll D} (h : Parked m c s) {l : LocId} (hl : m ≠ l) (q : Ptr) :
    Parked m c (s.setPtr l q) :=
  ⟨by rw [cell_setPtr, if_neg hl, h.cell], h.notReady⟩

theorem Parked.setReady {s : ProtoAll D} (h : Parked m c s) {l : LocId} (hl : m ≠ l) (v : Bool) :
    Parked m c (s.setReady l v) :=
  ⟨h.cell, by rw [ready_setReady, if_neg hl, h.notReady]⟩

/-- What is done elsewhere leaves the cell parked. -/
theorem robust_parked : Robust (fun l => m ≠ l) (Parked m c) where
  setPtr h hl q := h.setPtr hl q
  setReady h hl v := h.setReady hl v
  setDropbox h l _ := ⟨by rw [cell_setDropbox, h.cell], h.notReady⟩
  beginHandOff h l n d :=
    ⟨(cell_mapPutter (f := (·.beginHandOff n d)) (fun _ => ⟨rfl, rfl⟩) _ l m).trans h.cell,
      h.notReady⟩
  mapMemRefs h _ := ⟨h.cell, h.notReady⟩
  store _ _ _ _ := keeps_zoom (fun _ _ h => ⟨h.cell, h.notReady⟩) _
  dispose _ _ _ := keeps_zoom (fun _ _ h => ⟨h.cell, h.notReady⟩) _

/-- An action leaves a parked cell alone that it does not mention, or that
puts to itself in it. -/
theorem keepsParked_performAction {p : LocId} {meGe poGe : List LocId}
    (h : p = m ∧ m ∈ meGe ∨ p ≠ m ∧ m ∉ meGe) :
    Keeps (Parked m c) (performAction p meGe poGe) := by
  refine robust_parked.performAction ?_ ?_ ?_ poGe
  · rintro g hg hgp rfl
    rcases h with ⟨rfl, -⟩ | ⟨-, hout⟩
    · exact hgp rfl
    · exact hout hg
  · -- a port is not the parked cell
    rintro t sp b ht hsp g hg rfl
    rcases h with ⟨rfl, -⟩ | ⟨-, hout⟩
    · obtain ⟨q, hq, -, -⟩ := cell_eq_some.1 (show t.cell p = some (c.1, c.2) from ht.cell)
      cases hsp.symm.trans hq
    · exact hout hg
  · rintro hnot t - - rfl
    rcases h with ⟨-, hin⟩ | ⟨hne, -⟩
    · exact hnot hin
    · exact hne rfl

end Parked

/-! ## After the firing -/

/-- What may happen to the instance until the getters of a firing have
finished: the finalizing getter empties the cell `m`, and whatever else
happens leaves its pointer and its readiness alone. The
`ready_set_coordinate` call of a finalizing getter counts as the latter, since
`make_empty` has made the cell ready already. -/
inductive Finishing (m : LocId) : ProtoAll D → ProtoAll D → Prop where
  | done (s : ProtoAll D) : Finishing m s s
  | elsewhere {s t u : ProtoAll D} (hcell : t.cell m = s.cell m)
      (hready : t.w.active.ready.test m = s.w.active.ready.test m) (hrest : Finishing m t u) :
      Finishing m s u
  | finalize {s t u : ProtoAll D} {someoneMoved : Bool}
      (hrun : (makeEmpty (!someoneMoved) m).run s = .ok () t) (hrest : Finishing m t u) :
      Finishing m s u

/-- A cell that was emptied points nowhere. -/
theorem cell_of_makeEmpty {s t : ProtoAll D} {m : LocId} {dropIfLastRef : Bool} {q : Ptr}
    {info : TypeInfo D} (hcell : s.cell m = some (q, info))
    (hrun : (makeEmpty dropIfLastRef m).run s = .ok () t) : t.cell m = some (.null, info) := by
  let I : ProtoAll D → Prop := fun u => u.cell m = some (.null, info)
  obtain ⟨p, hp, rfl, rfl⟩ := cell_eq_some.1 hcell
  have hputter : s.getSpacePutter m = some p := getSpacePutter_eq hp
  rw [makeEmpty, EStateM.run_bind, EStateM.run_get] at hrun
  simp only [hputter] at hrun
  obtain ⟨_, u, hset, hrest⟩ := Effect.ok_of_bind_ok hrun
  cases hset
  have hnull : I (s.setPtr m .null) := by
    show (s.setPtr m .null).cell m = _
    rw [cell_setPtr, if_pos rfl, hcell]
    rfl
  have hrelease : Keeps I (releaseRef dropIfLastRef p.ptr p.typeInfo) := by
    refine keeps_get_bind fun t _ => ?_
    split
    · exact keeps_throw _
    · split
      · exact keeps_throw _
      · refine Keeps.bind (keeps_modify fun _ h => h) fun _ => ?_
        split
        · refine Keeps.bind (keeps_modify fun _ h => h) fun _ => keeps_zoom ?_ _
          intro _ _ h
          exact h
        · exact keeps_pure _
  have hready : Keeps I (becomeReady m) := by
    refine keeps_get_bind fun t ht => ?_
    refine Keeps.bind (keeps_set ht) fun _ => ?_
    split
    · exact keeps_throw _
    · exact keeps_pure _
  exact (hrelease.bind fun _ => hready).of_ok hnull hrest

/-- The cell is parked, or it is empty. -/
def Lost (m : LocId) (c : Ptr × TypeInfo D) (s : ProtoAll D) : Prop :=
  Parked m c s ∨ s.cell m = some (.null, c.2)

theorem Lost.finishing {m : LocId} {c : Ptr × TypeInfo D} {s t : ProtoAll D} (h : Lost m c s)
    (hdone : Finishing m s t) : Lost m c t := by
  induction hdone with
  | done s => exact h
  | elsewhere hcell hready _ ih =>
      refine ih (h.imp (fun h => ⟨hcell.trans h.cell, hready.trans h.notReady⟩) fun h => ?_)
      exact hcell.trans h
  | finalize hrun _ ih =>
      refine ih (.inr ?_)
      rcases h with h | h
      · exact cell_of_makeEmpty (show _ = some (c.1, c.2) from h.cell) hrun
      · exact cell_of_makeEmpty h hrun

/-- The cell `m` is ready and full, holds `q`, and `mem_refs` counts the cells
that do. -/
structure StillHeld (m : LocId) (q : Ptr) (s : ProtoAll D) : Prop where
  ready : s.w.active.ready.test m = true
  full : s.w.memoryBits.test m = true
  holds : s.held m = some q
  counted : s.w.active.memRefs.lookup q =
    some (Sharing.holders (Finset.range s.r.spaces.length) s.held q).card

theorem Lost.not_stillHeld {m : LocId} {c : Ptr × TypeInfo D} {s : ProtoAll D} (h : Lost m c s)
    (q : Ptr) : ¬ StillHeld m q s := by
  intro hheld
  rcases h with h | h
  · cases h.notReady.symm.trans hheld.ready
  · obtain ⟨hne, info, hcell⟩ := held_eq_some.1 hheld.holds
    rw [h] at hcell
    cases hcell
    exact hne rfl

/-- However the getters of a firing finish, a cell that put to itself in it
does not come out ready with its value. -/
theorem selfPut_not_stillHeld (P : Proto D) {b b' : Build D} {s₀ : ProtoAll D}
    (hfin : (finish P).run b = .ok s₀ b') {i : RuleId} {r : RuleDef} {run : RunRule D}
    (hr : P.typelessProtoDef.behaviour.rules[i]? = some r) (hrun : s₀.r.rules[i]? = some run)
    {a : ActionDef} (ha : a ∈ r.actions) (hself : a.putter ∈ a.getters) {s t u : ProtoAll D}
    {q : Ptr} (hheld : StillHeld a.putter q s) (hfire : run.fire.run (s.prepare run) = .ok () t)
    (hdone : Finishing a.putter t u) : ¬ StillHeld a.putter q u := by
  obtain ⟨infos, hs⟩ := (built_of_finish hfin).standing
  have hwf := hs.wellFormed r (List.mem_of_getElem? hr)
  have henc := hs.encodes_at hr hrun
  have hmem := hwf.selfPut a ha hself
  obtain ⟨-, info, hcell⟩ := held_eq_some.1 hheld.holds
  have hguard : run.guardReady.test a.putter = true := (henc.sets.ready _).2 ⟨a, ha, .inl rfl⟩
  have hparked : Parked a.putter (q, info) (s.prepare run) := by
    refine ⟨hcell, ?_⟩
    show (subtractReadiness s.w.active.ready run).test a.putter = false
    rw [test_subtractReadiness, hguard, Bool.not_true, Bool.and_false]
  have hkeeps : Keeps (Parked a.putter (q, info)) run.fire := by
    refine keeps_forEach_of_mem fun x hx => ?_
    rw [henc.actions] at hx
    obtain ⟨y, hy, rfl⟩ := List.mem_map.1 hx
    refine keepsParked_performAction ?_
    simp only [encodeAction, List.mem_filter, List.mem_eraseDups, hmem, and_true]
    by_cases hput : y.putter = a.putter
    · obtain rfl := hwf.eq_of_mentions hy ha (.inl hput.symm) (.inl rfl)
      exact .inl ⟨rfl, hself⟩
    · refine .inr ⟨hput, fun hget => hput ?_⟩
      rw [hwf.eq_of_mentions hy ha (.inr hget) (.inl rfl)]
  have hlost : Lost a.putter (q, info) t := .inl (hkeeps.of_ok hparked hfire)
  exact (hlost.finishing hdone).not_stillHeld q

/-! ## A protocol that only keeps -/

/-- Cell 0 puts to itself; 1 is there so that the bit sets have a chunk. -/
def keeper : Proto Nat where
  typelessProtoDef := ⟨⟨[⟨.true, [⟨0, [0]⟩]⟩]⟩,
    collectMap [(0, .memUninitialized), (1, .portPutter)]⟩
  fillMemory := fun _ => none
  defFunc := fun _ => none
  locType := fun _ => some cellInfo

theorem keeper_lookup (l : LocId) : keeper.typelessProtoDef.locKinds.lookup l =
    if l = 1 then some .portPutter else if l = 0 then some .memUninitialized else none :=
  lookup_collectMap_pair 0 1 l _ _

theorem finish_keeper : ∃ s b, (finish keeper).run (.new .empty) = .ok s b := by
  have hun : Uninitialized keeper := by
    intro l
    rw [keeper_lookup]
    split
    · simp
    · split <;> simp
  refine finish_of_unguarded hun (fun _ _ _ => ⟨cellInfo, rfl⟩) ?_ (by simp [keeper]) (.new .empty)
  intro r hr
  obtain rfl := List.mem_singleton.1 hr
  refine ⟨?_, ?_, ?_, ?_⟩
  · intro a ha
    obtain rfl := List.mem_singleton.1 ha
    exact ⟨.memUninitialized, rfl, rfl⟩
  · intro a ha g hg
    obtain rfl := List.mem_singleton.1 ha
    obtain rfl := List.mem_singleton.1 hg
    exact ⟨.memUninitialized, rfl, rfl, rfl⟩
  · intro a ha _
    obtain rfl := List.mem_singleton.1 ha
    rfl
  · exact List.pairwise_singleton _ _

/-- The instance with its cell full. -/
def ProtoAll.keeping (s : ProtoAll Nat) : ProtoAll Nat :=
  { s.setPtr 0 (.store 0) with
    w := { s.w with
      memoryBits := (s.w.memoryBits.setTo 0 true).1
      active := { s.w.active with
        storage := ⟨∅, .singleton (.store 0) cellInfo.typeId, .singleton cellInfo.typeId cellInfo⟩
        memRefs := .singleton (.store 0) 1 } }
    heap := { s.heap.write (.store 0) (some (.data 7)) with allocs := 1, live := [0] } }

theorem run_performAction_self {s : ProtoAll D} {m : LocId} {p : PutterSpace D} {n : Nat}
    (hsp : s.getSpace m = some (.memo p)) (hrefs : s.w.active.memRefs.lookup p.ptr = some n)
    (hn : 1 ≤ n) :
    (performAction m [m] []).run s = .ok () (s.mapMemRefs (·.insert p.ptr (n + 1))) := by
  have hdup : (Effect.forEach (duplicateRef m p.ptr p.typeInfo.typeId) [m]).run s = .ok () s := by
    rw [Effect.run_forEach_cons, duplicateRef, if_pos rfl]
    rfl
  have hshare : (sharePointer m p.ptr p.typeInfo.typeId [m]).run s =
      .ok true (s.mapMemRefs (·.insert p.ptr (n + 1))) := by
    rw [sharePointer, Effect.run_bind_of_ok hdup, EStateM.run_bind, EStateM.run_get]
    simp only [hrefs, Nat.not_lt.2 hn, if_false]
    have hne : (n + [m].length != 1) = true := by
      rw [List.length_singleton, bne_iff_ne]
      omega
    rw [hne]
    rfl
  have hfeed : (feedMemory m [m] []).run s =
      .ok true (s.mapMemRefs (·.insert p.ptr (n + 1))) := by
    rw [feedMemory, EStateM.run_bind, EStateM.run_get]
    simp only [hsp]
    exact hshare
  rw [performAction, Effect.run_bind_of_ok hfeed, List.length_nil, if_pos rfl, releasePutter,
    EStateM.run_bind, EStateM.run_get]
  simp only [getSpace_mapMemRefs, hsp, List.mem_singleton, if_true]
  rfl

theorem keeping_stillHeld {s : ProtoAll Nat} {b : Build Nat}
    (hfin : (finish keeper).run (.new .empty) = .ok s b) : StillHeld 0 (.store 0) s.keeping := by
  have hbuilt := built_of_finish hfin
  obtain ⟨infos, hs⟩ := hbuilt.standing
  have hcell : ∀ l, s.keeping.cell l =
      if l = 0 then (s.cell l).map (fun c => (.store 0, c.2)) else s.cell l := cell_setPtr s 0 _
  obtain ⟨p, hp, -⟩ := hs.shaped.isCell (l := 0) rfl
  have hone : s.keeping.held 0 = some (.store 0) := by
    refine held_eq_some.2 ⟨by simp, p.typeInfo, ?_⟩
    rw [hcell, if_pos rfl, cell_eq_some.2 ⟨p, hp, rfl, rfl⟩]
    rfl
  have hothers : ∀ l, s.keeping.held l = some (.store 0) → l = 0 := by
    intro l hl
    by_contra hne
    obtain ⟨-, info, hc⟩ := held_eq_some.1 hl
    rw [hcell, if_neg hne] at hc
    obtain ⟨sp, hsp, -⟩ := cell_eq_some.1 hc
    have hmem := hs.shaped.isMemLoc_of_memo hsp
    rw [isMemLoc, keeper_lookup, if_neg hne] at hmem
    split at hmem <;> cases hmem
  constructor
  · show s.w.active.ready.test 0 = true
    rw [hbuilt.ready_test]
    rfl
  · exact BitSet.test_setTo_self _ 0 true
  · exact hone
  · have hholders : Sharing.holders (Finset.range s.keeping.r.spaces.length) s.keeping.held
        (.store 0) = {0} := by
      ext l
      rw [Sharing.mem_holders, Finset.mem_singleton]
      constructor
      · exact fun h => hothers l h.2
      · rintro rfl
        exact ⟨Finset.mem_range.2 (lt_length_of_held hone), hone⟩
    rw [hholders, Finset.card_singleton]
    rfl

/-- Its rule fires once, which leaves the cell not ready and its slot counted
twice. -/
theorem keeper_fires : ∃ s b run t, (finish keeper).run (.new .empty) = .ok s b ∧
    s.r.rules[0]? = some run ∧ Enabled s.keeping run ∧
    run.fire.run (s.keeping.prepare run) = .ok () t ∧ StillHeld 0 (.store 0) s.keeping ∧
    t.w.active.ready.test 0 = false ∧ t.w.active.memRefs.lookup (.store 0) = some 2 := by
  obtain ⟨s, b, hfin⟩ := finish_keeper
  obtain ⟨infos, hs⟩ := (built_of_finish hfin).standing
  obtain ⟨run, hrun⟩ : ∃ run, s.r.rules[0]? = some run :=
    ⟨_, List.getElem?_eq_getElem (hs.rules.length_eq ▸ Nat.zero_lt_one)⟩
  have henc := hs.encodes_at (i := 0) rfl hrun
  have hheld := keeping_stillHeld hfin
  obtain ⟨p, hp, -⟩ := hs.shaped.isCell (l := 0) rfl
  have hsp : (s.keeping.prepare run).getSpace 0 = some (.memo { p with ptr := .store 0 }) := by
    show (s.setPtr 0 (.store 0)).getSpace 0 = _
    rw [getSpace_setPtr, if_pos rfl, hp]
    rfl
  have hactions : run.actions = [⟨0, [0], []⟩] := by
    rw [henc.actions]
    rfl
  have hfire : run.fire.run (s.keeping.prepare run) =
      .ok () ((s.keeping.prepare run).mapMemRefs (·.insert (.store 0) 2)) := by
    rw [RunRule.fire, hactions, Effect.run_forEach_cons,
      Effect.run_bind_of_ok (run_performAction_self hsp (n := 1) rfl (Nat.le_refl 1))]
    rfl
  refine ⟨s, b, run, _, hfin, hrun, ⟨?_, ?_⟩, hfire, hheld, ?_, ?_⟩
  · refine (isReady_iff_met (hs.wellFormed _ (List.mem_singleton_self _)) henc ?_).2 ?_
    · intro l hl
      rw [show s.keeping.w.memoryBits = (s.w.memoryBits.setTo 0 true).1 from rfl,
        BitSet.test_setTo] at hl
      split at hl
      · next h0 =>
          subst h0
          rfl
      · exact hs.bits l hl
    · rintro l ⟨a, ha, hl⟩ -
      obtain rfl := List.mem_singleton.1 ha
      obtain rfl : l = 0 := hl.elim id List.mem_singleton.1
      refine ⟨hheld.ready, fun _ _ => hheld.full, ?_⟩
      rintro - ⟨a, ha, -, hne⟩
      obtain rfl := List.mem_singleton.1 ha
      exact absurd rfl hne
  · rw [henc.guardPred]
    show evalFormula _ Formula.true = _
    rw [evalFormula]
    rfl
  · show (subtractReadiness s.keeping.w.active.ready run).test 0 = false
    have hguard : run.guardReady.test 0 = true :=
      (henc.sets.ready 0).2 ⟨_, List.mem_singleton_self _, .inl rfl⟩
    rw [test_subtractReadiness, hguard, Bool.not_true, Bool.and_false]
  · show (AList.insert (Ptr.store 0) 2 _).lookup (Ptr.store 0) = some 2
    rw [AList.lookup_insert]

/-- The cell of the keeper is not ready again. -/
theorem not_stillHeld_after_fire : ∃ s b run t, (finish keeper).run (.new .empty) = .ok s b ∧
    s.r.rules[0]? = some run ∧ StillHeld 0 (.store 0) s.keeping ∧
    run.fire.run (s.keeping.prepare run) = .ok () t ∧ ¬ StillHeld 0 (.store 0) t := by
  obtain ⟨s, b, run, t, hfin, hrun, -, hfire, hheld, -, -⟩ := keeper_fires
  exact ⟨s, b, run, t, hfin, hrun, hheld, hfire,
    selfPut_not_stillHeld keeper hfin (i := 0) rfl hrun (List.mem_singleton_self _)
      (List.mem_singleton_self 0) hheld hfire (.done t)⟩

/-- So the keeper does not keep: it is ready, full and counted before its rule
fires, not ready and counted once too often after. -/
theorem keeper_not_kept : ∃ s b run t, (finish keeper).run (.new .empty) = .ok s b ∧
    s.r.rules[0]? = some run ∧ StillHeld 0 (.store 0) s.keeping ∧ Enabled s.keeping run ∧
    run.fire.run (s.keeping.prepare run) = .ok () t ∧ ¬ StillHeld 0 (.store 0) t ∧
    t.w.active.memRefs.lookup (.store 0) = some 2 := by
  obtain ⟨s, b, run, t, hfin, hrun, henabled, hfire, hheld, hready, hrefs⟩ := keeper_fires
  refine ⟨s, b, run, t, hfin, hrun, hheld, henabled, hfire, fun h => ?_, hrefs⟩
  cases hready.symm.trans h.ready

end ReoRs
