import ReoRs.Proofs.RbpaRuns

/-!
# The loop of `exhaust_rules` among memory cells

A rule without a port costs no ready port, and nothing in the loop keeps two
such rules from handing a datum back and forth for ever. What ends the loop is
then the memory: where every rule without a port lowers some rank of it, the
loop fires such rules for as long as the rank lasts, and between any two rules
with a port the rank may be what it will.
-/

namespace ReoRs

variable {D : Type}

/-- The rules that involve no port lower a rank of the memory. -/
structure Ranked (P : Proto D) (rank : MemState → Nat) (bound : Nat) : Prop where
  bounded : ∀ m, rank m ≤ bound
  lowers : ∀ r ∈ P.typelessProtoDef.behaviour.rules,
    (∀ l, involved r.actions l → isMemLoc P.typelessProtoDef.locKinds l = true) →
      ∀ m m', MemStep (isMemLoc P.typelessProtoDef.locKinds · = true) r.actions m m' →
        rank m' < rank m

/-- What the loop has left to fire. -/
def Proto.toFire (P : Proto D) (rank : MemState → Nat) (bound : Nat) (s : ProtoAll D) : Nat :=
  P.readyPorts s * (bound + 1) + rank s.w.memoryBits.test

section Loop

variable {P : Proto D} {b b' : Build D} {s : ProtoAll D} {rank : MemState → Nat} {bound : Nat}
  {t : Coordination D}

/-- The rounds of the loop are steps of the thread that has the lock. -/
theorem reach_of_firedPasses (hs : ∃ infos, Standing P infos s) {h : List (Coordination.Act D)}
    (hrun : Run.Reach Coordination.Step (.start s) h t) (hlock : t.locked = true)
    {is : List RuleId} {u : ProtoAll D} (hpasses : Run.Reach FiredPass t.proto is u) :
    ∃ k owed, Run.Reach Coordination.Step (.start s) k ⟨u, true, t.calls, owed⟩ := by
  obtain ⟨infos, hs⟩ := hs
  induction hpasses with
  | refl => exact ⟨h, t.owed, hlock ▸ hrun⟩
  | @tail is u v i _ hpass ih =>
      obtain ⟨k, owed, hk⟩ := ih
      have hu := Coordination.reach_standing hs hk
      obtain ⟨-, rule, -, hrule, -⟩ := hpass.cases hu.tempMems
      exact ⟨_, _, hk.tail (.fire rfl hrule hpass)⟩

/-- A round costs a ready port or lowers the rank. -/
theorem toFire_lt (hfin : (finish P).run b = .ok s b') (hpos : 1 ≤ maxLocId P.typelessProtoDef)
    (hle : maxLocId P.typelessProtoDef ≤ 63) (hranked : Ranked P rank bound)
    {h : List (Coordination.Act D)} (hrun : Run.Reach Coordination.Step (.start s) h t)
    (hlock : t.locked = true) {i : RuleId} {u : ProtoAll D} (hpass : FiredPass t.proto i u) :
    P.toFire rank bound u < P.toFire rank bound t.proto := by
  obtain ⟨infos, hs⟩ := (built_of_finish hfin).standing
  have ht := Coordination.reach_standing hs hrun
  have hready := Coordination.ready_ne_nil_of_locked hs hrun hlock
  obtain ⟨r, rule, hspent⟩ := ht.spent_of_firedPass (.refl _) hready hpass
  have hbound := hranked.bounded u.w.memoryBits.test
  rw [Proto.toFire, Proto.toFire]
  by_cases hmem : ∀ l, involved r.actions l → isMemLoc P.typelessProtoDef.locKinds l = true
  · have hstep := memStep_of_isReady hfin hpos hle hrun hready hspent.source hspent.found
      hspent.enabled.1
    rw [← hspent.bits] at hstep
    exact Nat.add_lt_add_of_le_of_lt (Nat.mul_le_mul_right _ hspent.readyPorts_le)
      (hranked.lowers r hspent.mem hmem _ _ hstep)
  · simp only [not_forall, Bool.not_eq_true] at hmem
    obtain ⟨p, hp, hport⟩ := hmem
    have hlt := hspent.readyPorts_lt ht (.refl _) hpos hle hready hp hport
    have hmul := Nat.mul_le_mul_right (bound + 1) hlt
    rw [Nat.succ_mul] at hmul
    omega

/-- A rule that is ready has a port to spend or a rank to lower. -/
theorem toFire_pos (hfin : (finish P).run b = .ok s b') (hpos : 1 ≤ maxLocId P.typelessProtoDef)
    (hle : maxLocId P.typelessProtoDef ≤ 63) (hranked : Ranked P rank bound)
    {h : List (Coordination.Act D)} (hrun : Run.Reach Coordination.Step (.start s) h t)
    (hlock : t.locked = true) {rule : RunRule D} (hrule : rule ∈ t.proto.r.rules)
    (hmet : isReady t.proto.w.memoryBits t.proto.w.active.ready rule = true) :
    0 < P.toFire rank bound t.proto := by
  obtain ⟨infos, hs⟩ := (built_of_finish hfin).standing
  have ht := Coordination.reach_standing hs hrun
  have hready := Coordination.ready_ne_nil_of_locked hs hrun hlock
  obtain ⟨i, hi⟩ := List.getElem?_of_mem hrule
  obtain ⟨hlt, -⟩ := List.getElem?_eq_some_iff.1 hi
  obtain ⟨r, hr⟩ : ∃ r, P.typelessProtoDef.behaviour.rules[i]? = some r :=
    ⟨_, List.getElem?_eq_getElem (ht.rules.length_eq ▸ hlt)⟩
  have hwf := ht.wellFormed r (List.mem_of_getElem? hr)
  by_cases hmem : ∀ l, involved r.actions l → isMemLoc P.typelessProtoDef.locKinds l = true
  · have hstep := memStep_of_isReady hfin hpos hle hrun hready hr hi hmet
    have hlower := hranked.lowers r (List.mem_of_getElem? hr) hmem _ _ hstep
    exact Nat.add_pos_right _ (Nat.zero_lt_of_lt hlower)
  · simp only [not_forall, Bool.not_eq_true] at hmem
    obtain ⟨p, hp, hport⟩ := hmem
    have hset := ht.ready_of_enabled (.refl _) hpos hle hready hi hmet
      (((ht.encodes_at hr hi).sets.ready p).2 hp)
    have hports : 0 < P.readyPorts t.proto :=
      Count.upTo_pos (Nat.lt_succ_of_le (hwf.le_maxLocId hp)) (by
        rw [hwf.isPortLoc hp hport, hset]
        rfl)
    exact Nat.add_pos_left (Nat.mul_pos hports (Nat.succ_pos bound)) _

/-- In every state of every run in which a thread is about to look for rules,
the loop ends: it fires at most as many rules as the ready ports and the rank
allow. -/
theorem exhaustsWithin_ranked (P : Proto D) (hfin : (finish P).run b = .ok s b')
    (hpos : 1 ≤ maxLocId P.typelessProtoDef) (hle : maxLocId P.typelessProtoDef ≤ 63)
    (hranked : Ranked P rank bound) {h : List (Coordination.Act D)}
    (hrun : Run.Reach Coordination.Step (.start s) h t) (hlock : t.locked = true) :
    ExhaustsWithin (P.readyPorts t.proto * (bound + 1) + rank t.proto.w.memoryBits.test)
      t.proto := by
  have hstanding := (built_of_finish hfin).standing
  have hreach : ∀ {is u}, Run.Reach FiredPass t.proto is u → ∃ k owed,
      Run.Reach Coordination.Step (.start s) k ⟨u, true, t.calls, owed⟩ :=
    reach_of_firedPasses hstanding hrun hlock
  have hcost : ∀ {is u}, Run.Reach FiredPass t.proto is u →
      is.length + P.toFire rank bound u ≤ P.toFire rank bound t.proto := by
    intro is u hpasses
    induction hpasses with
    | refl => exact Nat.le_of_eq (Nat.zero_add _)
    | tail hpasses hpass ih =>
        obtain ⟨k, owed, hk⟩ := hreach hpasses
        have hlt := toFire_lt hfin hpos hle hranked hk rfl hpass
        rw [List.length_cons]
        exact Nat.le_trans (by rw [Nat.add_assoc, Nat.add_comm 1]; exact Nat.add_le_add_left hlt _)
          ih
  have hbounded : ∀ is u, Run.Reach FiredPass t.proto is u →
      is.length ≤ P.toFire rank bound t.proto :=
    fun is u hpasses => Nat.le_trans (Nat.le_add_right _ _) (hcost hpasses)
  obtain ⟨infos, hs⟩ := hstanding
  refine ⟨hbounded, ?_, ?_, ?_⟩
  · intro is u hpasses hlen
    obtain ⟨k, owed, hk⟩ := hreach hpasses
    have hu := Coordination.reach_standing hs hk
    have hzero := hcost hpasses
    rw [hlen] at hzero
    rw [exhaustPass, EStateM.run_bind, EStateM.run_get]
    refine tryRules_quiet 0 hu.tempMems fun rule hrule => ?_
    cases hmet : isReady u.w.memoryBits u.w.active.ready rule with
    | false => rfl
    | true =>
        have hleft := toFire_pos hfin hpos hle hranked hk rfl hrule hmet
        have hnone : P.toFire rank bound u ≤ 0 := Nat.le_of_add_le_add_left (b := _) hzero
        exact absurd (Nat.lt_of_lt_of_le hleft hnone) (Nat.lt_irrefl 0)
  · intro is u hpasses i v hpass
    obtain ⟨k, owed, hk⟩ := hreach hpasses
    exact (hpass.cases (Coordination.reach_standing hs hk).tempMems).1
  · intro fuel hlt u hexhaust
    obtain ⟨is, hpasses, hlen⟩ := reach_of_exhaustRules_false hexhaust
    exact absurd (hlen ▸ hbounded is u hpasses) (Nat.not_le_of_lt hlt)

end Loop

/-! ## Two cells in a row

A put fills the first cell, a rule without a port moves the datum on to the
second, and a get takes it from there. -/

def twoCellsDef : TypelessProtoDef where
  behaviour := ⟨[⟨.true, [⟨0, [1]⟩]⟩, ⟨.true, [⟨1, [2]⟩]⟩, ⟨.true, [⟨2, [3]⟩]⟩]⟩
  locKinds := collectMap [(0, .portPutter), (1, .memUninitialized), (2, .memUninitialized),
    (3, .portGetter)]

def twoCells : Proto Nat where
  typelessProtoDef := twoCellsDef
  fillMemory := fun _ => none
  defFunc := fun _ => none
  locType := fun l => if l ≤ 3 then some cellInfo else none

theorem twoCells_rules {r : RuleDef} (hr : r ∈ twoCellsDef.behaviour.rules) :
    r = ⟨.true, [⟨0, [1]⟩]⟩ ∨ r = ⟨.true, [⟨1, [2]⟩]⟩ ∨ r = ⟨.true, [⟨2, [3]⟩]⟩ := by
  simpa [twoCellsDef] using hr

theorem finish_twoCells (heap : Heap Nat) : ∃ s b, (finish twoCells).run (.new heap) = .ok s b := by
  refine finish_of_unguarded (.of_pairs ?_) (fun l k hl => ?_) (fun r hr => ?_) (fun r hr => ?_)
    (.new heap)
  · show ∀ e ∈ twoCellsDef.locKinds.pairs, _
    decide
  · have hall : ∀ e ∈ twoCellsDef.locKinds.pairs, e.1 ≤ 3 := by decide
    exact ⟨cellInfo, if_pos (hall _ (mem_pairs.2 hl))⟩
  · rcases twoCells_rules hr with rfl | rfl | rfl <;>
      refine ⟨fun a ha => ?_, fun a ha g hg => ?_, by simp, List.pairwise_singleton _ _⟩ <;>
      obtain rfl := List.mem_singleton.1 ha
    · exact ⟨.portPutter, (by decide : twoCellsDef.locKinds.lookup 0 = _), rfl⟩
    · obtain rfl := List.mem_singleton.1 hg
      exact ⟨.memUninitialized, (by decide : twoCellsDef.locKinds.lookup 1 = _), rfl, rfl⟩
    · exact ⟨.memUninitialized, (by decide : twoCellsDef.locKinds.lookup 1 = _), rfl⟩
    · obtain rfl := List.mem_singleton.1 hg
      exact ⟨.memUninitialized, (by decide : twoCellsDef.locKinds.lookup 2 = _), rfl, rfl⟩
    · exact ⟨.memUninitialized, (by decide : twoCellsDef.locKinds.lookup 2 = _), rfl⟩
    · obtain rfl := List.mem_singleton.1 hg
      exact ⟨.portGetter, (by decide : twoCellsDef.locKinds.lookup 3 = _), rfl, rfl⟩
  · rcases twoCells_rules hr with rfl | rfl | rfl <;> rfl

theorem ranked_twoCells : Ranked twoCells (fun m => (m 1).toNat) 1 where
  bounded m := Bool.toNat_le _
  lowers := by
    intro r hr hmem m m' hstep
    have hport₀ : isMemLoc twoCellsDef.locKinds 0 = false := by decide
    have hport₃ : isMemLoc twoCellsDef.locKinds 3 = false := by decide
    have hcell : isMemLoc twoCellsDef.locKinds 1 = true := by decide
    rcases twoCells_rules hr with rfl | rfl | rfl
    · have hport := hmem 0 ⟨_, List.mem_singleton_self _, .inl rfl⟩
      exact absurd (hport₀.symm.trans hport) Bool.false_ne_true
    · have hbefore := hstep.full 1 hcell ⟨_, List.mem_singleton_self _, rfl⟩
      have hafter := hstep.emptied 1 hcell ⟨_, List.mem_singleton_self _, rfl⟩ (by simp)
      rw [hbefore, hafter]
      decide
    · have hport := hmem 3 ⟨_, List.mem_singleton_self _, .inr (List.mem_singleton_self _)⟩
      exact absurd (hport₃.symm.trans hport) Bool.false_ne_true

/-- As a put enters, with the cells empty, the loop fires two rules at most. -/
theorem exhaustsWithin_twoCells : ∃ s b h t, (finish twoCells).run (.new .empty) = .ok s b ∧
    Run.Reach Coordination.Step (.start s) h t ∧ t.locked = true ∧ ExhaustsWithin 2 t.proto := by
  obtain ⟨s, b, hfin⟩ := finish_twoCells .empty
  have hbuilt := built_of_finish hfin
  obtain ⟨infos, hs⟩ := hbuilt.standing
  obtain ⟨t, hrun, hlock, hproto⟩ := hs.reach_put (p := 0) (.data 7)
    (by decide : twoCellsDef.locKinds.lookup 0 = some .portPutter)
  refine ⟨s, b, _, t, hfin, hrun, hlock, ?_⟩
  have hports : twoCells.readyPorts t.proto = 1 := by
    rw [hproto, Proto.readyPorts]
    show Count.upTo _ (fun l => _ && (s.w.active.ready.setTo 0 true).1.test l) = 1
    rw [hbuilt.ready]
    decide
  have hempty : t.proto.w.memoryBits.test 1 = false := by
    rw [hproto]
    show s.w.memoryBits.test 1 = false
    rw [hbuilt.memoryBits]
    decide
  have hwithin := exhaustsWithin_ranked twoCells hfin (by decide) (by decide) ranked_twoCells hrun
    hlock
  rwa [hports, hempty] at hwithin

end ReoRs
