import ReoRs.Proofs.IsReady

/-!
# No lost wake-up

Nobody looks at the rules again once the lock is free, so nothing done while it
is free may enable one. `exhaust_rules` returns only after a scan that found
nothing. Afterwards a port may offer a pointer, take a message or take its
readiness back, and a getter may work on a putter's space; none of these sets
a memory bit or a ready bit. What does, a port that arrives or a cell that is
emptied, holds the lock and scans again.
-/

namespace ReoRs

variable {D : Type}

/-! ## Guards that read memory bits only -/

mutual

/-- Built from `True`, `And`, `Or`, `None` and `MemIsNull`. -/
def Formula.bitsOnly : Formula → Bool
  | .true | .memIsNull _ => true
  | .and fs | .or fs | .none fs => allBitsOnly fs
  | .valueEq _ _ | .termVal _ | .funcDeclaration _ _ => false

def allBitsOnly : List Formula → Bool
  | [] => true
  | f :: fs => f.bitsOnly && allBitsOnly fs

end

section

variable {s t : ProtoAll D}

mutual

/-- Such a guard is evaluated alike in states with the same memory bits. -/
theorem evalFormula_congr (hbits : t.w.memoryBits = s.w.memoryBits) : ∀ f : Formula,
    f.bitsOnly = true → evalFormula t f = evalFormula s f
  | .true, _ => rfl
  | .memIsNull loc, _ => by rw [evalFormula, evalFormula, hbits]
  | .and fs, h => by rw [evalFormula, evalFormula, evalAll_congr hbits fs h]
  | .or fs, h => by rw [evalFormula, evalFormula, evalAny_congr hbits fs h]
  | .none fs, h => by rw [evalFormula, evalFormula, evalAny_congr hbits fs h]
  | .valueEq _ _, h => by cases h
  | .termVal _, h => by cases h
  | .funcDeclaration _ _, h => by cases h

theorem evalAny_congr (hbits : t.w.memoryBits = s.w.memoryBits) : ∀ fs : List Formula,
    allBitsOnly fs = true → evalAny t fs = evalAny s fs
  | [], _ => rfl
  | f :: fs, h => by
      rw [allBitsOnly, Bool.and_eq_true] at h
      rw [evalAny, evalAny, evalFormula_congr hbits f h.1, evalAny_congr hbits fs h.2]

theorem evalAll_congr (hbits : t.w.memoryBits = s.w.memoryBits) : ∀ fs : List Formula,
    allBitsOnly fs = true → evalAll t fs = evalAll s fs
  | [], _ => rfl
  | f :: fs, h => by
      rw [allBitsOnly, Bool.and_eq_true] at h
      rw [evalAll, evalAll, evalFormula_congr hbits f h.1, evalAll_congr hbits fs h.2]

end

end

section

variable {s : ProtoAll D}

mutual

/-- And its evaluation cannot fail. -/
theorem exists_evalFormula : ∀ f : Formula, f.bitsOnly = true → ∃ b, evalFormula s f = .ok b
  | .true, _ => ⟨true, rfl⟩
  | .memIsNull loc, _ => ⟨_, rfl⟩
  | .and fs, h => by
      obtain ⟨b, hb⟩ := exists_evalAll fs h
      exact ⟨!b, by rw [evalFormula, hb]; rfl⟩
  | .or fs, h => by
      rw [evalFormula]
      exact exists_evalAny fs h
  | .none fs, h => by
      obtain ⟨b, hb⟩ := exists_evalAny fs h
      exact ⟨!b, by rw [evalFormula, hb]; rfl⟩
  | .valueEq _ _, h => by cases h
  | .termVal _, h => by cases h
  | .funcDeclaration _ _, h => by cases h

theorem exists_evalAny : ∀ fs : List Formula, allBitsOnly fs = true →
    ∃ b, evalAny s fs = .ok b
  | [], _ => ⟨false, rfl⟩
  | f :: fs, h => by
      rw [allBitsOnly, Bool.and_eq_true] at h
      obtain ⟨b, hb⟩ := exists_evalFormula f h.1
      rw [evalAny, hb]
      cases b with
      | true => exact ⟨true, rfl⟩
      | false => exact exists_evalAny fs h.2

theorem exists_evalAll : ∀ fs : List Formula, allBitsOnly fs = true →
    ∃ b, evalAll s fs = .ok b
  | [], _ => ⟨true, rfl⟩
  | f :: fs, h => by
      rw [allBitsOnly, Bool.and_eq_true] at h
      obtain ⟨b, hb⟩ := exists_evalFormula f h.1
      rw [evalAll, hb]
      cases b with
      | true => exact exists_evalAll fs h.2
      | false => exact ⟨false, rfl⟩

end

end

/-! ## Less readiness enables nothing -/

/-- No ready bit was gained, and no chunk lost. -/
structure LessReady (ready ready' : BitSet) : Prop where
  test : ∀ l, ready'.test l = true → ready.test l = true
  length : ready'.data.length = ready.data.length

theorem LessReady.refl (ready : BitSet) : LessReady ready ready := ⟨fun _ h => h, rfl⟩

theorem lessReady_withdraw (ready : BitSet) (l : LocId) :
    LessReady ready (ready.setTo l false).1 where
  test := by
    intro l' h
    rw [BitSet.test_setTo] at h
    split at h
    · cases h
    · exact h
  length := BitSet.length_setTo_false ready l

/-- Setting a bit that was set gains nothing. -/
theorem lessReady_setTo_of_test {ready : BitSet} {l : LocId} (h : ready.test l = true) :
    LessReady ready (ready.setTo l true).1 where
  test := by
    intro l' h'
    rw [BitSet.test_setTo] at h'
    split at h'
    · next heq => rw [heq, h]
    · exact h'
  length := by
    rw [BitSet.length_setTo_true]
    exact Nat.max_eq_left (BitSet.lt_length_of_test h)

theorem isReady_of_lessReady {memory ready ready' : BitSet} {rule : RunRule D}
    (hless : LessReady ready ready') (h : isReady memory ready' rule = true) :
    isReady memory ready rule = true := by
  have hseen : seenChunks memory ready' rule = seenChunks memory ready rule := by
    rw [seenChunks, seenChunks, hless.length]
  rw [isReady_iff] at h ⊢
  intro l hl hg
  obtain ⟨hready, hmem⟩ := h l (hseen ▸ hl) hg
  exact ⟨hless.test l hready, hmem⟩

/-- Nothing a scan would find. -/
def Quiet (s : ProtoAll D) : Prop := ∀ rule ∈ s.r.rules, ¬ Enabled s rule

/-- With the same memory bits and no more readiness it stays quiet. -/
theorem Quiet.mono {s t : ProtoAll D} (h : Quiet s) (hrules : t.r.rules = s.r.rules)
    (hguards : ∀ rule ∈ s.r.rules, rule.guardPred.bitsOnly = true)
    (hbits : t.w.memoryBits = s.w.memoryBits)
    (hready : LessReady s.w.active.ready t.w.active.ready) : Quiet t := by
  intro rule hrule henabled
  rw [hrules] at hrule
  refine h rule hrule ⟨isReady_of_lessReady hready ?_, ?_⟩
  · exact hbits ▸ henabled.1
  · rw [← evalFormula_congr hbits _ (hguards rule hrule)]
    exact henabled.2

/-! ## The steps that leave the lock free -/

theorem ok_of_send {s t : ProtoAll D} {id : LocId} {msg : Nat}
    (h : (send id msg).run s = .ok () t) : t = s.setDropbox id (some msg) := by
  rw [send, EStateM.run_bind, EStateM.run_get] at h
  cases hbox : s.getDropbox id with
  | none =>
      simp only [hbox] at h
      cases h
  | some box =>
      obtain ⟨slot⟩ := box
      cases slot with
      | some m =>
          simp only [hbox] at h
          cases h
      | none =>
          simp only [hbox] at h
          cases h
          rfl

/-- Up to its last step `make_empty` leaves the ready bits alone, so if it
panics no readiness was gained. -/
theorem keeps_ready_releaseRef {ready : BitSet} (drop : Bool) (src : Ptr) (info : TypeInfo D) :
    Effect.Keeps (fun t : ProtoAll D => t.w.active.ready = ready) (releaseRef drop src info) := by
  refine Effect.keeps_get_bind fun t ht => ?_
  split
  · exact Effect.keeps_throw _
  · split
    · exact Effect.keeps_throw _
    · refine Effect.Keeps.bind (Effect.keeps_modify fun _ h => h) fun _ => ?_
      split
      · refine Effect.Keeps.bind (Effect.keeps_modify fun _ h => h) fun _ => ?_
        show Effect.Keeps _ (Effect.zoom ProtoAll.mem ProtoAll.putMem _)
        refine Effect.keeps_zoom ?_ _
        exact fun _ _ h => h
      · exact Effect.keeps_pure _

theorem lessReady_of_makeEmpty_error {s t : ProtoAll D} {drop : Bool} {id : LocId} {e : Fault}
    (h : (makeEmpty drop id).run s = .error e t) :
    LessReady s.w.active.ready t.w.active.ready := by
  rw [makeEmpty, EStateM.run_bind, EStateM.run_get] at h
  cases hp : s.getSpacePutter id with
  | none =>
      simp only [hp] at h
      cases h
      exact .refl _
  | some p =>
      simp only [hp, EStateM.run_bind, EStateM.run_set] at h
      cases hrel : (releaseRef drop p.ptr p.typeInfo).run (s.setPtr id .null) with
      | error e' u =>
          rw [hrel] at h
          cases h
          have hu := (keeps_ready_releaseRef drop p.ptr p.typeInfo).of_error
            (s := s.setPtr id .null) rfl hrel
          exact hu ▸ .refl _
      | ok a u =>
          rw [hrel] at h
          have hu := (keeps_ready_releaseRef drop p.ptr p.typeInfo).of_ok
            (s := s.setPtr id .null) rfl hrel
          simp only [becomeReady, EStateM.run_bind, EStateM.run_get, EStateM.run_set] at h
          by_cases hwas : u.w.active.ready.test id = true
          · simp only [BitSet.setTo_snd, hwas, if_true] at h
            cases h
            exact hu ▸ lessReady_setTo_of_test hwas
          · simp only [BitSet.setTo_snd, hwas] at h
            cases h

namespace Coordination

variable {P : Proto D} {infos : HashMap TypeId (TypeInfo D)}

/-- Once a port has left, the lock is free only when nothing is enabled. -/
theorem Step.quiet {s t : Coordination D} {a : Act D} (hs : Standing P infos s.proto)
    (hguards : ∀ rule ∈ s.proto.r.rules, rule.guardPred.bitsOnly = true)
    (h : Step s a t) (hquiet : s.locked = false → Quiet s.proto) (hpanic : a ≠ .panic)
    (hfree : t.locked = false) : Quiet t.proto := by
  have hrules := h.rules hs
  cases h with
  | offer _ _ => exact (hquiet hfree).mono hrules hguards rfl (.refl _)
  | request _ _ => exact hquiet hfree
  | arrive _ _ hrun =>
      rw [run_readySet hs.ungrouped] at hrun
      cases hrun
      cases hfree
  | fire hlock _ _ => cases hlock.symm.trans hfree
  | leave _ hend hrun =>
      have hres := exhaustPass_result hs.ungrouped hs.tempMems
      rw [hrun] at hres
      cases hres with
      | quiet hnone => exact hnone
      | @fired i _ _ _ _ _ => exact absurd rfl (hend i)
  | panic _ _ => exact absurd rfl hpanic
  | receive _ _ => exact (hquiet hfree).mono hrules hguards rfl (.refl _)
  | withdraw _ _ _ =>
      exact (hquiet hfree).mono hrules hguards rfl (lessReady_withdraw _ _)
  | acquire _ _ _ => exact (hquiet hfree).mono hrules hguards rfl (.refl _)
  | finalizePort _ _ hrun =>
      have hproto := ok_of_send hrun
      subst hproto
      exact (hquiet hfree).mono hrules hguards rfl (.refl _)
  | @finalizeCell p moved _ _ _ _ _ _ hrun =>
      obtain ⟨_, u, hempty, hset⟩ := Effect.ok_of_bind_ok hrun
      have hu := ((keeps_makeEmpty _ p).of_ok (Frame.refl _) hempty).ungrouped hs.ungrouped
      rw [run_readySet hu] at hset
      cases hset
      cases hfree
  | @fault p moved _ _ _ _ hlock _ hrun =>
      rw [finalizeMemo, EStateM.run_bind] at hrun
      cases hempty : (makeEmpty (!moved) p).run s.proto with
      | ok a u =>
          rw [hempty] at hrun
          have hu := ((keeps_makeEmpty _ p).of_ok (Frame.refl _) hempty).ungrouped hs.ungrouped
          cases (run_readySet hu p).symm.trans hrun
      | error e u =>
          rw [hempty] at hrun
          cases hrun
          have hframe := (keeps_makeEmpty _ p).of_error (Frame.refl _) hempty
          exact (hquiet hlock).mono hrules hguards hframe.memoryBits
            (lessReady_of_makeEmpty_error hempty)

/-- In every run in which a call has released the lock and no call of
`exhaust_rules` panicked, no rule is enabled while the lock is free. -/
theorem not_enabled_of_free (P : Proto D) {b b' : Build D} {s : ProtoAll D}
    (hfin : (finish P).run b = .ok s b')
    (hguards : ∀ r ∈ P.typelessProtoDef.behaviour.rules, r.guard.bitsOnly = true)
    {h : List (Act D)} {t : Coordination D} (hrun : Run.Reach Step (start s) h t)
    (hleft : .leave ∈ h) (hreturned : .panic ∉ h) (hfree : t.locked = false) :
    ∀ rule ∈ t.proto.r.rules,
      ¬ (isReady t.proto.w.memoryBits t.proto.w.active.ready rule = true ∧
        evalFormula t.proto rule.guardPred = .ok true) := by
  obtain ⟨infos, hs⟩ := (built_of_finish hfin).standing
  have hruns : ∀ {u : Coordination D} {k : List (Act D)}, Run.Reach Step (start s) k u →
      ∀ rule ∈ u.proto.r.rules, rule.guardPred.bitsOnly = true := by
    intro u k hu rule hrule
    obtain ⟨i, hi⟩ := List.getElem?_of_mem hrule
    obtain ⟨r, hr, henc⟩ := (reach_standing hs hu).rule_at hi
    rw [henc.guardPred]
    exact hguards r hr
  have hinv : .leave ∈ h → .panic ∉ h → t.locked = false → Quiet t.proto := by
    refine hrun.invariant (P := fun h t => .leave ∈ h → .panic ∉ h → t.locked = false →
      Quiet t.proto) (fun hnil => absurd hnil List.not_mem_nil) ?_
    intro h u a v hu hprev hstep hleft hreturned hfree
    rw [List.mem_cons, not_or] at hreturned
    refine hstep.quiet (reach_standing hs hu) (hruns hu) ?_ (Ne.symm hreturned.1) hfree
    intro hfree'
    rcases List.mem_cons.1 hleft with rfl | hleft
    · -- the first to leave held the lock
      cases hstep with
      | leave hlock _ _ => cases hlock.symm.trans hfree'
    · exact hprev hleft hreturned.2 hfree'
  exact hinv hleft hreturned hfree

end Coordination

/-! ## A put that finds no getter -/

/-- At a channel whose getter has not called, the put leaves nothing
enabled. -/
theorem not_enabled_channel : ∃ s b h t, (finish (channel 1)).run (.new .empty) = .ok s b ∧
    Run.Reach Coordination.Step (.start s) h t ∧ .leave ∈ h ∧ .panic ∉ h ∧ t.locked = false ∧
    ∀ rule ∈ t.proto.r.rules,
      ¬ (isReady t.proto.w.memoryBits t.proto.w.active.ready rule = true ∧
        evalFormula t.proto rule.guardPred = .ok true) := by
  obtain ⟨infos, s, b, t, run, hfin, hrun, hlock, ht, hrule, hready⟩ :=
    channel_reach_put (g := 1) (by decide)
  have hnot : ∀ (i : RuleId) (rule : RunRule Nat), t.proto.r.rules[i]? = some rule →
      isReady t.proto.w.memoryBits t.proto.w.active.ready rule ≠ true := by
    intro i rule hi htaken
    obtain ⟨r, hr, -⟩ := ht.rule_at hi
    have hr' : (channel 1).typelessProtoDef.behaviour.rules[i]? = some r := by
      have hlen := (List.getElem?_eq_some_iff.1 hi).1
      rw [← ht.rules.length_eq] at hlen
      rw [Nat.lt_one_iff.1 hlen, List.mem_singleton.1 hr]
      rfl
    have hfire := (ht.isReady_iff_mayFire (by decide) (by decide)
      (by rw [hready]; decide) hr' hi).1 htaken
    rw [List.mem_singleton.1 hr] at hfire
    have := (hfire 1 ⟨_, List.mem_singleton_self _, .inr (List.mem_singleton_self _)⟩).ready
    rw [hready] at this
    revert this
    decide
  have hres := exhaustPass_result ht.ungrouped ht.tempMems
  have hquiet : exhaustPass.run t.proto = .ok .quiet t.proto := by
    cases hres' : exhaustPass.run t.proto with
    | ok fin u =>
        rw [hres'] at hres
        cases hres with
        | quiet _ => rfl
        | fired hi henabled _ => exact absurd henabled.1 (hnot _ _ hi)
    | error e u =>
        rw [hres'] at hres
        cases hres with
        | guardFault hi htaken _ => exact absurd htaken (hnot _ _ hi)
        | fireFault hi henabled _ => exact absurd henabled.1 (hnot _ _ hi)
  have hleave := Run.Reach.tail hrun (.leave hlock (fun i h => by cases h) hquiet)
  have hguards : ∀ r ∈ (channel 1).typelessProtoDef.behaviour.rules, r.guard.bitsOnly = true := by
    intro r hr
    rw [List.mem_singleton.1 hr]
    rfl
  exact ⟨s, b, _, _, hfin, hleave, by simp, by simp, rfl,
    Coordination.not_enabled_of_free (channel 1) hfin hguards hleave (by simp) (by simp) rfl⟩

end ReoRs
