import ReoRs.Proofs.BuildRules

/-!
# The functions of the guards

`build_rules` walks every guard for the functions it names, and `def_func` is
asked for each. Two things about the walk matter. What it returns is dropped,
so a function nobody defines goes unnoticed. And a function that is defined is
handed to a promise, which is not returned from. A walk that never comes to a
function is all that is left.
-/

namespace ReoRs

variable {D : Type}

/-! ## Names -/

mutual

/-- The functions a guard names, also as arguments of functions. -/
def Formula.funcNames : Formula → List String
  | .true | .memIsNull _ => []
  | .and fs | .or fs | .none fs => funcNamesAll fs
  | .valueEq a b => a.funcNames ++ b.funcNames
  | .termVal t => t.funcNames
  | .funcDeclaration name args => name :: funcNamesArgs args

def Term.funcNames : Term → List String
  | .boolean f => f.funcNames
  | .value _ => []

def funcNamesAll : List Formula → List String
  | [] => []
  | f :: fs => f.funcNames ++ funcNamesAll fs

def funcNamesArgs : List Term → List String
  | [] => []
  | t :: ts => t.funcNames ++ funcNamesArgs ts

end

def guardNames (rules : List RuleDef) : List String := rules.flatMap (·.guard.funcNames)

mutual

theorem outerNames_subset : ∀ f : Formula, f.outerNames ⊆ f.funcNames
  | .true | .memIsNull _ => by rw [Formula.outerNames]; exact List.nil_subset _
  | .and fs | .or fs | .none fs => by
      rw [Formula.outerNames, Formula.funcNames]
      exact outerNamesAll_subset fs
  | .valueEq a b => by
      rw [Formula.outerNames, Formula.funcNames]
      exact List.append_subset.2 ⟨List.subset_append_of_subset_left _ (termOuterNames_subset a),
        List.subset_append_of_subset_right _ (termOuterNames_subset b)⟩
  | .termVal t => by
      rw [Formula.outerNames, Formula.funcNames]
      exact termOuterNames_subset t
  | .funcDeclaration name args => by
      rw [Formula.outerNames, Formula.funcNames]
      exact List.cons_subset_cons name (List.nil_subset _)

theorem termOuterNames_subset : ∀ t : Term, t.outerNames ⊆ t.funcNames
  | .boolean f => by
      rw [Term.outerNames, Term.funcNames]
      exact outerNames_subset f
  | .value _ => by rw [Term.outerNames]; exact List.nil_subset _

theorem outerNamesAll_subset : ∀ fs : List Formula, outerNamesAll fs ⊆ funcNamesAll fs
  | [] => by rw [outerNamesAll]; exact List.nil_subset _
  | f :: fs => by
      rw [outerNamesAll, funcNamesAll]
      exact List.append_subset.2 ⟨List.subset_append_of_subset_left _ (outerNames_subset f),
        List.subset_append_of_subset_right _ (outerNamesAll_subset fs)⟩

end

/-- Guards that name no function stop no build. -/
theorem not_stopsBuild_of_guardNames {P : Proto D} {rules : List RuleDef}
    (h : guardNames rules = []) : ∀ r ∈ rules, ¬ r.guard.StopsBuild P := by
  rintro r hr ⟨n, hn, -⟩
  have hmem : n ∈ guardNames rules :=
    List.mem_flatMap.2 ⟨r, hr, outerNames_subset r.guard (List.mem_of_mem_head? hn)⟩
  rw [h] at hmem
  cases hmem

/-! ## How building stops -/

/-- Well-formed actions cause no error. -/
theorem returned_of_buildRule {P : Proto D} {id2TypeId : HashMap LocId TypeId}
    (htypes : TypesDefined P.typelessProtoDef.locKinds id2TypeId) {rule : RuleDef} {n : Nat}
    (hwf : WellFormedRule P.typelessProtoDef.locKinds (id2TypeId.lookup ·) rule.actions)
    {b b' : Build D} {e : BuildStop} (h : (buildRule P id2TypeId (rule, n)).run b = .error e b') :
    e.returned = false := by
  obtain ⟨st, hst⟩ := (buildActions_spec htypes n rule.actions).1.2 hwf
  rw [buildRule, hst] at h
  rcases Effect.error_of_bind_error h with h | ⟨st', b₁, hlift, h⟩
  · cases h
  · rcases Effect.error_of_bind_error h with h | ⟨res, b₂, -, h⟩
    · exact (run_defineAllFuncsIn P rule.guard b₁).2.2 e b' h
    · cases h

theorem returned_of_buildRulesFrom {P : Proto D} {id2TypeId : HashMap LocId TypeId}
    (htypes : TypesDefined P.typelessProtoDef.locKinds id2TypeId) :
    ∀ {rules : List RuleDef} {n : Nat} {b b' : Build D} {e : BuildStop}, (∀ r ∈ rules,
      WellFormedRule P.typelessProtoDef.locKinds (id2TypeId.lookup ·) r.actions) →
        (buildRulesFrom P id2TypeId (rules.zipIdx n)).run b = .error e b' →
          e.returned = false := by
  intro rules
  induction rules with
  | nil =>
      intro n b b' e _ h
      cases h
  | cons rule rules ih =>
      intro n b b' e hwf h
      rw [List.zipIdx_cons, buildRulesFrom] at h
      rcases Effect.error_of_bind_error h with h | ⟨run, b₁, -, h⟩
      · exact returned_of_buildRule htypes (hwf rule List.mem_cons_self) h
      · rcases Effect.error_of_bind_error h with h | ⟨runs, b₂, -, h⟩
        · exact ih (fun r hr => hwf r (List.mem_cons_of_mem rule hr)) h
        · cases h

/-! ## What is checked -/

/-- What `build_rules` is to do about functions: it returns, with an error for
a function that is not defined and one entry for a name otherwise. That there
is one entry for a name is in the map. -/
structure FunctionsChecked (P : Proto D) (id2TypeId : HashMap LocId TypeId) (b : Build D) :
    Prop where
  returns : ∀ e b', (buildRules P id2TypeId).run b = .error e b' → e.returned = true
  undefined : (∃ n b', (buildRules P id2TypeId).run b = .error (.err (.functionUndefined n)) b') ↔
    ∃ n ∈ guardNames P.typelessProtoDef.behaviour.rules, P.defFunc n = none
  defined : ∀ runs b', (buildRules P id2TypeId).run b = .ok runs b' →
    ∀ n, n ∈ b'.builder.funcDefs ↔ n ∈ guardNames P.typelessProtoDef.behaviour.rules

/-- It does so exactly if there is nothing to check. A function that is defined
ends the process, and one that is not goes unnoticed. -/
theorem buildRules_functions_iff (P : Proto D) (id2TypeId : HashMap LocId TypeId) (b : Build D)
    (htypes : TypesDefined P.typelessProtoDef.locKinds id2TypeId)
    (hwf : ∀ r ∈ P.typelessProtoDef.behaviour.rules,
      WellFormedRule P.typelessProtoDef.locKinds (id2TypeId.lookup ·) r.actions)
    (hnew : b.builder.funcDefs = ∅) :
    FunctionsChecked P id2TypeId b ↔ guardNames P.typelessProtoDef.behaviour.rules = [] := by
  obtain ⟨hiff, hres⟩ := run_buildRulesFrom htypes P.typelessProtoDef.behaviour.rules 0 b
  have hfresh : ∀ n, n ∉ b.builder.funcDefs := by
    intro n
    rw [hnew]
    exact AList.notMem_empty n
  constructor
  · intro h
    cases hrun : (buildRules P id2TypeId).run b with
    | error e b' =>
        have hstop := returned_of_buildRulesFrom htypes hwf hrun
        rw [h.returns e b' hrun] at hstop
        cases hstop
    | ok runs b' =>
        obtain ⟨-, rfl⟩ := hres runs b' hrun
        rw [List.eq_nil_iff_forall_not_mem]
        exact fun n hn => hfresh n ((h.defined runs _ hrun n).2 hn)
  · intro hnone
    obtain ⟨runs, b', hrun⟩ := hiff.2 ⟨hwf, not_stopsBuild_of_guardNames hnone⟩
    have hrun' : (buildRules P id2TypeId).run b = .ok runs b' := hrun
    obtain ⟨-, rfl⟩ := hres runs b' hrun
    constructor
    · simp [hrun']
    · simp [hrun', hnone]
    · simp [hrun', hnone, hfresh]

/-- A protocol whose guard names none. -/
theorem functionsChecked_relay : FunctionsChecked relay relayTypes (.new .empty) :=
  (buildRules_functions_iff relay relayTypes (.new .empty) relay_typesDefined
    (by
      intro r hr
      obtain rfl := List.mem_singleton.1 hr
      exact relay_wellFormed) rfl).2 rfl

/-! ## One rule with a function in its guard -/

/-- A putter and a getter, and a guard that asks `name`, which is `defined`. -/
def asking (name : String) (defined : Bool) : Proto Nat where
  typelessProtoDef := ⟨⟨[⟨.funcDeclaration name [], [⟨0, [1]⟩]⟩]⟩, relayKinds⟩
  fillMemory := fun _ => none
  defFunc := fun _ =>
    if defined then some ⟨⟨boolTypeId, true, ⟨1, 1⟩, ⟨.undefined, .undefined, .undefined⟩⟩, []⟩
    else none
  locType := fun _ => none

theorem asking_wellFormed (name : String) (defined : Bool) :
    ∀ r ∈ (asking name defined).typelessProtoDef.behaviour.rules,
      WellFormedRule relayKinds (relayTypes.lookup ·) r.actions := by
  intro r hr
  obtain rfl := List.mem_singleton.1 hr
  constructor
  · intro a ha
    obtain rfl := List.mem_singleton.1 ha
    exact ⟨.portPutter, by decide, rfl⟩
  · intro a ha g hg
    obtain rfl := List.mem_singleton.1 ha
    obtain rfl := List.mem_singleton.1 hg
    exact ⟨.portGetter, by decide, rfl, by decide⟩
  · intro a ha hself
    obtain rfl := List.mem_singleton.1 ha
    exact absurd hself (by decide)
  · exact List.pairwise_singleton _ _

/-- A function that is not defined goes unnoticed, and one that is defined ends
the process. -/
theorem not_functionsChecked_asking :
    ((∃ runs b, (buildRules (asking "even" false) relayTypes).run (.new .empty) = .ok runs b) ∧
      ¬ FunctionsChecked (asking "even" false) relayTypes (.new .empty)) ∧
    (∃ b, (buildRules (asking "even" true) relayTypes).run (.new .empty) = .error .aborted b) ∧
      ¬ FunctionsChecked (asking "even" true) relayTypes (.new .empty) := by
  refine ⟨⟨?_, ?_⟩, ⟨_, rfl⟩, ?_⟩
  · exact (run_buildRulesFrom (P := asking "even" false) relay_typesDefined
      (asking "even" false).typelessProtoDef.behaviour.rules 0 (.new .empty)).1.2
        ⟨asking_wellFormed "even" false, by simp [asking, Formula.StopsBuild]⟩
  · rw [buildRules_functions_iff (asking "even" false) relayTypes _ relay_typesDefined
      (asking_wellFormed "even" false) rfl]
    decide
  · rw [buildRules_functions_iff (asking "even" true) relayTypes _ relay_typesDefined
      (asking_wellFormed "even" true) rfl]
    decide

end ReoRs
