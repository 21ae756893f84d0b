import ReoRs.Proofs.WakeUp

/-!
# Evaluating a guard with temporaries

A rule whose guard fails takes its temporaries down again, with the
`make_empty` that cells are emptied with. A cell that becomes empty becomes
ready, so a temporary's slot becomes ready as well. Nothing else in an
evaluation reads or clears that bit: after the first evaluation the ready set
is not what it was, and in the second one `make_empty` asserts that it is.
-/

namespace ReoRs

variable {D : Type}

open Effect (Keeps keeps_pure keeps_throw keeps_set keeps_modify keeps_get_bind keeps_forEach
  keeps_zoom)

/-! ## Evaluations in a row -/

/-- What the temporaries of a rule drop when they are taken down, the last one
first. -/
def RunRule.temporaries (rule : RunRule D) (s : ProtoAll D) : List (Datum D) :=
  (rule.tempMems.filterMap fun temp => do
    let p ← s.getSpacePutter temp.tempMemLocId
    match p.typeInfo.funcs.drop with
    | .dropInPlace => s.heap.read p.ptr
    | .undefined => none).reverse

/-- An evaluation that built `t` and took it down to `u` left no trace of
itself in what `s` was. -/
structure Restored (rule : RunRule D) (s t u : ProtoAll D) : Prop where
  null : ∀ temp ∈ rule.tempMems, ∀ p, u.getSpacePutter temp.tempMemLocId = some p → p.ptr = .null
  spaces : u.shapes = s.shapes
  memRefs : ∀ q, u.w.active.memRefs.lookup q = s.w.active.memRefs.lookup q
  owned : ∀ q, q ∈ u.w.active.storage.owned ↔ q ∈ s.w.active.storage.owned
  ready : ∀ l, u.w.active.ready.test l = s.w.active.ready.test l
  dropped : u.heap.dropped = rule.temporaries t ++ s.heap.dropped

/-- So many evaluations in a row succeed, each of them without a trace. -/
def Traceless (rule : RunRule D) : Nat → ProtoAll D → Prop
  | 0, _ => True
  | k + 1, s => ∃ t u, (buildTemps rule).run s = .ok () t ∧ (unbuildTemps rule).run t = .ok () u ∧
      Restored rule s t u ∧ Traceless rule k u

/-- In a scan a failing guard is the evaluation and nothing more. -/
theorem run_tryRules_of_fails {s t u : ProtoAll D} {i : RuleId} {rule : RunRule D}
    {rest : List (RunRule D)} (hbits : isReady s.w.memoryBits s.w.active.ready rule = true)
    (hbuild : (buildTemps rule).run s = .ok () t) (heval : evalFormula t rule.guardPred = .ok false)
    (hunbuild : (unbuildTemps rule).run t = .ok () u) :
    (tryRules i (rule :: rest)).run s = (tryRules (i + 1) rest).run u := by
  rw [tryRules, EStateM.run_bind, EStateM.run_get]
  simp only [hbits, if_true]
  rw [Effect.run_bind_of_ok hbuild, Effect.run_bind_of_ok (run_reading_ok heval)]
  simp only [Bool.false_eq_true, if_false]
  rw [Effect.run_bind_of_ok hunbuild]

/-! ## The ready bit of a slot -/

/-- No step of an evaluation takes a ready bit back. -/
theorem keeps_ready_makeEmpty (l : LocId) (drop : Bool) (id : LocId) :
    Keeps (fun t : ProtoAll D => t.w.active.ready.test l = true) (makeEmpty drop id) := by
  refine keeps_get_bind fun t ht => ?_
  split
  · exact keeps_throw _
  · next p _ =>
      refine Keeps.bind (keeps_set ht) fun _ => ?_
      refine Keeps.bind (Keeps.of_unchanged (fun ready => ?_) fun b : BitSet => b.test l = true)
        fun _ => ?_
      · exact keeps_ready_releaseRef drop p.ptr p.typeInfo
      · refine keeps_get_bind fun u hu => Keeps.bind (keeps_set ?_) fun _ => ?_
        · show ((u.w.active.ready.setTo id true).1).test l = true
          rw [BitSet.test_setTo, hu, ite_self]
        · split
          · exact keeps_throw _
          · exact keeps_pure _

/-- What becomes empty becomes ready. -/
theorem ready_of_makeEmpty {s t : ProtoAll D} {drop : Bool} {id : LocId}
    (h : (makeEmpty drop id).run s = .ok () t) : t.w.active.ready.test id = true := by
  rw [makeEmpty, EStateM.run_bind, EStateM.run_get] at h
  cases hp : s.getSpacePutter id with
  | none =>
      simp only [hp] at h
      cases h
  | some p =>
      simp only [hp, EStateM.run_bind, EStateM.run_set] at h
      cases hrel : (releaseRef drop p.ptr p.typeInfo).run (s.setPtr id .null) with
      | error e u =>
          rw [hrel] at h
          cases h
      | ok a u =>
          rw [hrel] at h
          simp only [becomeReady, EStateM.run_bind, EStateM.run_get, EStateM.run_set] at h
          split at h
          · cases h
          · cases h
            exact BitSet.test_setTo_self _ id true

theorem keeps_ready_unbuildTemp (l : LocId) (temp : TempMemRunnable D) :
    Keeps (fun t : ProtoAll D => t.w.active.ready.test l = true) (unbuildTemp temp) := by
  refine keeps_get_bind fun t _ => ?_
  split
  · exact keeps_ready_makeEmpty l true temp.tempMemLocId
  · exact keeps_throw _

theorem ready_of_unbuildTemp {s t : ProtoAll D} {temp : TempMemRunnable D}
    (h : (unbuildTemp temp).run s = .ok () t) :
    t.w.active.ready.test temp.tempMemLocId = true := by
  rw [unbuildTemp, EStateM.run_bind, EStateM.run_get] at h
  dsimp only at h
  split at h
  · exact ready_of_makeEmpty h
  · cases h

/-- Taking the temporaries down makes the first one's slot ready. -/
theorem ready_of_unbuildTemps {s t : ProtoAll D} {rule : RunRule D} {temp : TempMemRunnable D}
    {temps : List (TempMemRunnable D)} (htemps : rule.tempMems = temp :: temps)
    (h : (unbuildTemps rule).run s = .ok () t) :
    t.w.active.ready.test temp.tempMemLocId = true := by
  rw [unbuildTemps, htemps, Effect.run_forEach_cons] at h
  obtain ⟨_, u, hfirst, hrest⟩ := Effect.ok_of_bind_ok h
  have hkeeps := keeps_forEach (keeps_ready_unbuildTemp temp.tempMemLocId) temps
  exact hkeeps.of_ok (ready_of_unbuildTemp hfirst) hrest

/-- Without temporaries there is nothing to restore. -/
theorem restored_of_nil {rule : RunRule D} (hnil : rule.tempMems = []) (s : ProtoAll D) :
    Restored rule s s s where
  null := by
    rw [hnil]
    exact nofun
  spaces := rfl
  memRefs := fun _ => rfl
  owned := fun _ => Iff.rfl
  ready := fun _ => rfl
  dropped := by
    rw [RunRule.temporaries, hnil]
    rfl

/-- Evaluations of a rule whose slots are not ready leave no trace iff there
are none, or no temporary to take down. -/
theorem traceless_iff {rule : RunRule D} {k : Nat} {s : ProtoAll D}
    (hidle : ∀ temp ∈ rule.tempMems, s.w.active.ready.test temp.tempMemLocId = false) :
    Traceless rule k s ↔ k = 0 ∨ rule.tempMems = [] := by
  constructor
  · intro h
    cases k with
    | zero => exact .inl rfl
    | succ k =>
        obtain ⟨t, u, -, hunbuild, hrestored, -⟩ := h
        cases htemps : rule.tempMems with
        | nil => exact .inr rfl
        | cons temp temps =>
            have hready := ready_of_unbuildTemps htemps hunbuild
            rw [hrestored.ready, hidle temp (by rw [htemps]; exact List.mem_cons_self)] at hready
            cases hready
  · rintro (rfl | hnil)
    · trivial
    · clear hidle
      induction k with
      | zero => trivial
      | succ k ih =>
          have hbuild : (buildTemps rule).run s = .ok () s := by rw [buildTemps, hnil]; rfl
          have hunbuild : (unbuildTemps rule).run s = .ok () s := by rw [unbuildTemps, hnil]; rfl
          exact ⟨s, s, hbuild, hunbuild, restored_of_nil hnil s, ih⟩

/-- A rule that computes one temporary, and its slot. -/
def scratchRule : RunRule Nat where
  guardReady := ∅
  guardFull := ∅
  tempMems := [⟨0, .arity0 (.data 5)⟩]
  guardPred := .none [.true]
  assignVals := ∅
  assignMask := ∅
  actions := []

def scratch : ProtoAll Nat where
  r := ⟨[scratchRule], [.temp (.new .null cellInfo)]⟩
  w := ⟨∅, ⟨∅, ∅, ∅⟩, none, ∅, [], ∅⟩
  heap := .empty

theorem traceless_scratch : Traceless scratchRule 1 scratch ↔ 1 = 0 ∨ scratchRule.tempMems = [] :=
  traceless_iff fun _ _ => rfl

/-- The slot is ready after the first evaluation, and the second one panics. So
does the second scan of the rules. -/
theorem not_traceless_scratch : ¬ Traceless scratchRule 1 scratch ∧
    ∃ t u v w, (buildTemps scratchRule).run scratch = .ok () t ∧
      evalFormula t scratchRule.guardPred = .ok false ∧
      (unbuildTemps scratchRule).run t = .ok () u ∧ u.w.active.ready.test 0 = true ∧
      (buildTemps scratchRule).run u = .ok () v ∧
      (unbuildTemps scratchRule).run v = .error .wasReady w ∧
      exhaustPass.run scratch = .ok .quiet u ∧ exhaustPass.run u = .error .wasReady w := by
  constructor
  · rintro ⟨t, u, -, hunbuild, hrestored, -⟩
    have htemps : scratchRule.tempMems = [⟨0, .arity0 (.data 5)⟩] := rfl
    have hready := ready_of_unbuildTemps htemps hunbuild
    rw [hrestored.ready] at hready
    cases hready
  · refine ⟨_, _, _, _, rfl, rfl, rfl, rfl, rfl, rfl, ?_, rfl⟩
    show (tryRules 0 [scratchRule]).run scratch = _
    rw [run_tryRules_of_fails rfl rfl rfl rfl]
    rfl

end ReoRs
