import ReoRs.Proofs.RuleSets

/-!
# What `build_rules` accepts, and what it makes of it

Whether a rule is accepted is decided by its actions and by the functions its
guard names, and the two have nothing to do with each other. Of the functions
it is the first that decides: one the author defines is the end of the process,
and with one that is not defined the walk over the guard is over and the
builder as it was.
-/

namespace ReoRs

variable {D : Type}

/-! ## The functions of a guard -/

mutual

/-- The functions a guard names outside the arguments of functions, in the
order in which `define_all_funcs_in` comes to them. -/
def Formula.outerNames : Formula → List String
  | .true | .memIsNull _ => []
  | .and fs | .or fs | .none fs => outerNamesAll fs
  | .valueEq a b => a.outerNames ++ b.outerNames
  | .termVal t => t.outerNames
  | .funcDeclaration name _ => [name]

def Term.outerNames : Term → List String
  | .boolean f => f.outerNames
  | .value _ => []

def outerNamesAll : List Formula → List String
  | [] => []
  | f :: fs => f.outerNames ++ outerNamesAll fs

end

/-- The caller of `try_instantiate` gets to see it. -/
def BuildStop.returned : BuildStop → Bool
  | .err _ => true
  | .panicked _ | .aborted => false

/-- What a walk that comes to these functions does: it does not get past the
first. -/
def EndsAtFirst (P : Proto D) (x : BuildM D (Except ProtoBuildErr Unit)) : List String → Prop
  | [] => ∀ b, x.run b = .ok (.ok ()) b
  | n :: _ =>
      if (P.defFunc n).isSome then ∀ b, ∃ e b', x.run b = .error e b' ∧ e.returned = false
      else ∀ b, x.run b = .ok (.error (.functionUndefined n)) b

theorem endsAtFirst_pure (P : Proto D) : EndsAtFirst P (pure (.ok ())) [] := fun _ => rfl

/-- Two in a row, the second only if the first got to its end. -/
theorem EndsAtFirst.seq {P : Proto D} {x y : BuildM D (Except ProtoBuildErr Unit)}
    {xs ys : List String} (hx : EndsAtFirst P x xs) (hy : EndsAtFirst P y ys) :
    EndsAtFirst P (do
      match ← x with
      | .error e => pure (.error e)
      | .ok () => y) (xs ++ ys) := by
  cases xs with
  | nil =>
      have hrun : ∀ b, (do
          match ← x with
          | .error e => pure (.error e)
          | .ok () => y : BuildM D (Except ProtoBuildErr Unit)).run b = y.run b :=
        fun b => Effect.run_bind_of_ok (hx b)
      cases ys with
      | nil => exact fun b => (hrun b).trans (hy b)
      | cons n ys =>
          rw [List.nil_append, EndsAtFirst]
          rw [EndsAtFirst] at hy
          simp only [hrun]
          exact hy
  | cons n xs =>
      rw [List.cons_append, EndsAtFirst]
      rw [EndsAtFirst] at hx
      split at hx <;> rename_i hdef
      · rw [if_pos hdef]
        intro b
        obtain ⟨e, b', hrun, he⟩ := hx b
        exact ⟨e, b', by rw [EStateM.run_bind, hrun], he⟩
      · rw [if_neg hdef]
        intro b
        rw [EStateM.run_bind, hx b]
        rfl

/-- A promise that is kept is not returned from. -/
theorem run_defineArity (name : String) (d : FuncDef D) (b : Build D) :
    ∃ e b', (defineArity name d).run b = .error e b' ∧ e.returned = false := by
  rw [defineArity, EStateM.run_bind]
  cases hrun : (ProtoBuilder.defineFunc name d).run b with
  | ok u b' => exact ⟨.aborted, b', rfl, rfl⟩
  | error e b' =>
      refine ⟨e, b', rfl, ?_⟩
      rw [ProtoBuilder.defineFunc] at hrun
      simp only [EStateM.run_bind, EStateM.run_get, EStateM.run_set] at hrun
      cases hl : b.builder.funcDefs.lookup name with
      | none => simp [hl] at hrun
      | some v =>
          rw [hl] at hrun
          cases hrun
          rfl

mutual

theorem defineAllFuncsIn_ends (P : Proto D) : ∀ f : Formula,
    EndsAtFirst P (defineAllFuncsIn P f) f.outerNames
  | .true | .memIsNull _ => by
      rw [defineAllFuncsIn, Formula.outerNames]
      exact endsAtFirst_pure P
  | .and fs | .or fs | .none fs => by
      rw [defineAllFuncsIn, Formula.outerNames]
      exact defineAllFuncsInList_ends P fs
  | .valueEq x y => by
      rw [defineAllFuncsIn, Formula.outerNames]
      exact (defineAllFuncsInTerm_ends P x).seq (defineAllFuncsInTerm_ends P y)
  | .termVal t => by
      rw [defineAllFuncsIn, Formula.outerNames]
      exact defineAllFuncsInTerm_ends P t
  | .funcDeclaration name args => by
      rw [defineAllFuncsIn, Formula.outerNames, EndsAtFirst, Proto.callDefFunc]
      cases P.defFunc name with
      | none => simp
      | some d =>
          rw [if_pos Option.isSome_some]
          intro b
          obtain ⟨e, b', hrun, he⟩ := run_defineArity name d b
          exact ⟨e, b', by simp only [EStateM.run_bind, hrun], he⟩

theorem defineAllFuncsInTerm_ends (P : Proto D) : ∀ t : Term,
    EndsAtFirst P (defineAllFuncsInTerm P t) t.outerNames
  | .boolean f => by
      rw [defineAllFuncsInTerm, Term.outerNames]
      exact defineAllFuncsIn_ends P f
  | .value _ => by
      rw [defineAllFuncsInTerm, Term.outerNames]
      exact endsAtFirst_pure P

theorem defineAllFuncsInList_ends (P : Proto D) : ∀ fs : List Formula,
    EndsAtFirst P (defineAllFuncsInList P fs) (outerNamesAll fs)
  | [] => by
      rw [defineAllFuncsInList, outerNamesAll]
      exact endsAtFirst_pure P
  | f :: fs => by
      rw [defineAllFuncsInList, outerNamesAll]
      exact (defineAllFuncsIn_ends P f).seq (defineAllFuncsInList_ends P fs)

end

/-- The first function of the guard is one the author defines. -/
def Formula.StopsBuild (P : Proto D) (f : Formula) : Prop :=
  ∃ n ∈ f.outerNames.head?, (P.defFunc n).isSome

/-- The walk over a guard returns, with the builder as it was, unless the guard
stops it. -/
theorem run_defineAllFuncsIn (P : Proto D) (f : Formula) (b : Build D) :
    ((∃ res b', (defineAllFuncsIn P f).run b = .ok res b') ↔ ¬ f.StopsBuild P) ∧
      (∀ res b', (defineAllFuncsIn P f).run b = .ok res b' → b' = b) ∧
      ∀ e b', (defineAllFuncsIn P f).run b = .error e b' → e.returned = false := by
  have hends := defineAllFuncsIn_ends P f
  rw [Formula.StopsBuild]
  cases hnames : f.outerNames with
  | nil =>
      rw [hnames] at hends
      rw [hends b]
      simp
  | cons n ns =>
      rw [hnames, EndsAtFirst] at hends
      split at hends <;> rename_i hdef
      · obtain ⟨e, b', hrun, he⟩ := hends b
        rw [hrun]
        simp [hdef, he]
      · rw [hends b]
        simp [hdef]

mutual

/-- Some subterm declares a function. -/
def Formula.mentionsFunc : Formula → Bool
  | .true | .memIsNull _ => false
  | .and fs | .or fs | .none fs => mentionsFuncAny fs
  | .valueEq a b => a.mentionsFunc || b.mentionsFunc
  | .termVal t => t.mentionsFunc
  | .funcDeclaration _ _ => true

def Term.mentionsFunc : Term → Bool
  | .boolean f => f.mentionsFunc
  | .value _ => false

def mentionsFuncAny : List Formula → Bool
  | [] => false
  | f :: fs => f.mentionsFunc || mentionsFuncAny fs

end

mutual

theorem outerNames_of_not : ∀ f : Formula, f.mentionsFunc = false → f.outerNames = []
  | .true, _ | .memIsNull _, _ => by rw [Formula.outerNames]
  | .and fs, h | .or fs, h | .none fs, h => by
      rw [Formula.outerNames]
      exact outerNamesAll_of_not fs h
  | .valueEq x y, h => by
      rw [Formula.mentionsFunc, Bool.or_eq_false_iff] at h
      rw [Formula.outerNames, termOuterNames_of_not x h.1, termOuterNames_of_not y h.2]
      rfl
  | .termVal t, h => by
      rw [Formula.outerNames]
      exact termOuterNames_of_not t h
  | .funcDeclaration _ _, h => by cases h

theorem termOuterNames_of_not : ∀ t : Term, t.mentionsFunc = false → t.outerNames = []
  | .boolean f, h => by
      rw [Term.outerNames]
      exact outerNames_of_not f h
  | .value _, _ => by rw [Term.outerNames]

theorem outerNamesAll_of_not : ∀ fs : List Formula, mentionsFuncAny fs = false →
    outerNamesAll fs = []
  | [], _ => by rw [outerNamesAll]
  | f :: fs, h => by
      rw [mentionsFuncAny, Bool.or_eq_false_iff] at h
      rw [outerNamesAll, outerNames_of_not f h.1, outerNamesAll_of_not fs h.2]
      rfl

end

/-- A guard without functions does not get in the way. -/
theorem not_stopsBuild_of_not (P : Proto D) {f : Formula} (h : f.mentionsFunc = false) :
    ¬ f.StopsBuild P := by
  simp [Formula.StopsBuild, outerNames_of_not f h]

/-! ## The compiled rules -/

/-- A run-time rule encodes a rule: its sets hold what they are to hold, and
its actions list the getters without repetition, by kind. -/
structure Encodes (locKinds : HashMap LocId LocKind) (rule : RuleDef) (run : RunRule D) :
    Prop where
  sets : RuleSets.Describes locKinds
    ⟨run.guardReady, run.guardFull, run.assignVals, run.assignMask⟩ rule.actions
  actions : run.actions =
    rule.actions.map fun a => encodeAction locKinds a.putter a.getters.eraseDups
  guardPred : run.guardPred = rule.guard
  tempMems : run.tempMems = []

theorem RuleSets.Describes.padTo {locKinds : HashMap LocId LocKind} {s : RuleSets}
    {acts : List ActionDef} (hs : s.Describes locKinds acts) (c : Nat) :
    (s.padTo c).Describes locKinds acts where
  ready := fun l => by
    rw [RuleSets.padTo, BitSet.test_padTrailingZeroesToCapacity, hs.ready]
  full := fun l => by
    rw [RuleSets.padTo, BitSet.test_padTrailingZeroesToCapacity, hs.full]
  mask := fun l => by
    rw [RuleSets.padTo, BitSet.test_padTrailingZeroesToCapacity, hs.mask]
  vals := fun l => by
    rw [RuleSets.padTo, BitSet.test_padTrailingZeroesToCapacity, hs.vals]

/-- One rule: it is compiled iff its actions are well formed and its guard does
not stop the build. -/
theorem run_buildRule {P : Proto D} {id2TypeId : HashMap LocId TypeId}
    (htypes : TypesDefined P.typelessProtoDef.locKinds id2TypeId) (rule : RuleDef) (n : Nat)
    (b : Build D) :
    ((∃ run b', (buildRule P id2TypeId (rule, n)).run b = .ok run b') ↔
        WellFormedRule P.typelessProtoDef.locKinds (id2TypeId.lookup ·) rule.actions ∧
          ¬ rule.guard.StopsBuild P) ∧
      ∀ run b', (buildRule P id2TypeId (rule, n)).run b = .ok run b' →
        Encodes P.typelessProtoDef.locKinds rule run ∧ b' = b := by
  obtain ⟨hiff, hres⟩ := buildActions_spec htypes n rule.actions
  obtain ⟨hwalk, hsame, -⟩ := run_defineAllFuncsIn P rule.guard b
  cases hbuild : buildActions P.typelessProtoDef.locKinds id2TypeId n rule.actions with
  | error e =>
      have hrun : (buildRule P id2TypeId (rule, n)).run b = .error e b := by
        rw [buildRule, hbuild]
        rfl
      rw [hrun]
      refine ⟨⟨?_, ?_⟩, ?_⟩
      · rintro ⟨run, b', h⟩
        cases h
      · rintro ⟨hwf, -⟩
        obtain ⟨st, hst⟩ := hiff.2 hwf
        rw [hbuild] at hst
        cases hst
      · intro run b' h
        cases h
  | ok st =>
      obtain ⟨sets, actions⟩ := st
      have hwf := hiff.1 ⟨_, hbuild⟩
      obtain ⟨hactions, hsets⟩ := hres _ hbuild
      have hrun : (buildRule P id2TypeId (rule, n)).run b =
          (defineAllFuncsIn P rule.guard >>= fun _ => pure
            { guardReady := (sets.padTo (maxLocId P.typelessProtoDef)).guardReady
              guardFull := (sets.padTo (maxLocId P.typelessProtoDef)).guardFull
              tempMems := []
              guardPred := rule.guard
              assignVals := (sets.padTo (maxLocId P.typelessProtoDef)).assignVals
              assignMask := (sets.padTo (maxLocId P.typelessProtoDef)).assignMask
              actions }).run b := by
        rw [buildRule, hbuild]
        rfl
      rw [hrun, EStateM.run_bind]
      cases hfuncs : (defineAllFuncsIn P rule.guard).run b with
      | error e b' =>
          rw [hfuncs] at hwalk
          refine ⟨⟨?_, ?_⟩, ?_⟩
          · rintro ⟨run, b'', h⟩
            cases h
          · rintro ⟨-, hgo⟩
            obtain ⟨res, b'', h⟩ := hwalk.2 hgo
            cases h
          · intro run b'' h
            cases h
      | ok res b' =>
          rw [hfuncs] at hwalk
          refine ⟨⟨fun _ => ⟨hwf, hwalk.1 ⟨res, b', rfl⟩⟩, fun _ => ⟨_, b', rfl⟩⟩, ?_⟩
          intro run b'' h
          cases h
          exact ⟨⟨hsets.padTo _, hactions, rfl, rfl⟩, hsame res b' hfuncs⟩

/-- The vectors of a rule reach as far as the padding takes them. -/
structure Padded (c : Nat) (run : RunRule D) : Prop where
  ready : BitSet.lenNeededForCapacity c ≤ run.guardReady.data.length
  full : BitSet.lenNeededForCapacity c ≤ run.guardFull.data.length
  vals : BitSet.lenNeededForCapacity c ≤ run.assignVals.data.length
  mask : BitSet.lenNeededForCapacity c ≤ run.assignMask.data.length

theorem le_length_padToCapacity (s : BitSet) (c : Nat) :
    BitSet.lenNeededForCapacity c ≤ (s.padTrailingZeroesToCapacity c).data.length := by
  rw [BitSet.padTrailingZeroesToCapacity, BitSet.length_padTrailingZeroes]
  exact Nat.le_max_right _ _

theorem buildRule_padded {P : Proto D} {id2TypeId : HashMap LocId TypeId} {rule : RuleDef × Nat}
    {run : RunRule D} {b b' : Build D} (h : (buildRule P id2TypeId rule).run b = .ok run b') :
    Padded (maxLocId P.typelessProtoDef) run := by
  rw [buildRule] at h
  obtain ⟨⟨sets, actions⟩, b₁, -, h⟩ := Effect.ok_of_bind_ok h
  obtain ⟨_, b₂, -, h⟩ := Effect.ok_of_bind_ok h
  cases h
  exact ⟨le_length_padToCapacity _ _, le_length_padToCapacity _ _, le_length_padToCapacity _ _,
    le_length_padToCapacity _ _⟩

theorem buildRulesFrom_padded {P : Proto D} {id2TypeId : HashMap LocId TypeId} :
    ∀ {rules : List (RuleDef × Nat)} {runs : List (RunRule D)} {b b' : Build D},
      (buildRulesFrom P id2TypeId rules).run b = .ok runs b' →
        ∀ run ∈ runs, Padded (maxLocId P.typelessProtoDef) run := by
  intro rules
  induction rules with
  | nil =>
      intro runs b b' h
      cases h
      simp
  | cons rule rules ih =>
      intro runs b b' h
      rw [buildRulesFrom] at h
      obtain ⟨run, b₁, hone, h⟩ := Effect.ok_of_bind_ok h
      obtain ⟨tail, b₂, hrest, h⟩ := Effect.ok_of_bind_ok h
      cases h
      intro r hr
      rcases List.mem_cons.1 hr with rfl | hr
      · exact buildRule_padded hone
      · exact ih hrest r hr

/-- The loop over the rules: all must be well formed, and no guard may stop the
build. -/
theorem run_buildRulesFrom {P : Proto D} {id2TypeId : HashMap LocId TypeId}
    (htypes : TypesDefined P.typelessProtoDef.locKinds id2TypeId) :
    ∀ (rules : List RuleDef) (n : Nat) (b : Build D),
      ((∃ runs b', (buildRulesFrom P id2TypeId (rules.zipIdx n)).run b = .ok runs b') ↔
          (∀ r ∈ rules,
            WellFormedRule P.typelessProtoDef.locKinds (id2TypeId.lookup ·) r.actions) ∧
          ∀ r ∈ rules, ¬ r.guard.StopsBuild P) ∧
        ∀ runs b', (buildRulesFrom P id2TypeId (rules.zipIdx n)).run b = .ok runs b' →
          List.Forall₂ (Encodes P.typelessProtoDef.locKinds) rules runs ∧ b' = b := by
  intro rules
  induction rules with
  | nil =>
      intro n b
      refine ⟨⟨fun _ => ⟨by simp, by simp⟩, fun _ => ⟨_, _, rfl⟩⟩, ?_⟩
      intro runs b' h
      cases h
      exact ⟨.nil, rfl⟩
  | cons rule rules ih =>
      intro n b
      obtain ⟨hiff, hres⟩ := run_buildRule htypes rule n b
      rw [List.zipIdx_cons, buildRulesFrom, EStateM.run_bind]
      simp only [List.forall_mem_cons]
      cases hrun : (buildRule P id2TypeId (rule, n)).run b with
      | error e b' =>
          refine ⟨⟨?_, ?_⟩, ?_⟩
          · rintro ⟨runs, b'', h⟩
            cases h
          · rintro ⟨⟨hwf, -⟩, hgo, -⟩
            obtain ⟨run, b'', h⟩ := hiff.2 ⟨hwf, hgo⟩
            rw [hrun] at h
            cases h
          · intro runs b'' h
            cases h
      | ok run b' =>
          obtain ⟨henc, rfl⟩ := hres run b' hrun
          obtain ⟨hwf, hgo⟩ := hiff.1 ⟨run, _, hrun⟩
          obtain ⟨hiff', hres'⟩ := ih (n + 1) b'
          refine ⟨⟨?_, ?_⟩, ?_⟩
          · rintro ⟨runs, b'', h⟩
            obtain ⟨tail, b₂, htail, -⟩ := Effect.ok_of_bind_ok h
            obtain ⟨hall, hrest⟩ := hiff'.1 ⟨tail, b₂, htail⟩
            exact ⟨⟨hwf, hall⟩, hgo, hrest⟩
          · rintro ⟨⟨-, hall⟩, -, hrest⟩
            obtain ⟨tail, b₂, htail⟩ := hiff'.2 ⟨hall, hrest⟩
            exact ⟨run :: tail, b₂, Effect.run_bind_of_ok htail⟩
          · intro runs b'' h
            obtain ⟨tail, b₂, htail, hlast⟩ := Effect.ok_of_bind_ok h
            cases hlast
            obtain ⟨hencs, rfl⟩ := hres' tail _ htail
            exact ⟨.cons henc hencs, rfl⟩

/-- `build_rules` accepts exactly the well-formed rules, and what it accepts it
encodes. -/
theorem buildRules_accepts_iff (P : Proto D) (id2TypeId : HashMap LocId TypeId) (b : Build D)
    (htypes : TypesDefined P.typelessProtoDef.locKinds id2TypeId)
    (hfuncs : ∀ r ∈ P.typelessProtoDef.behaviour.rules, r.guard.mentionsFunc = false) :
    ((∃ runs b', (buildRules P id2TypeId).run b = .ok runs b') ↔
        ∀ r ∈ P.typelessProtoDef.behaviour.rules,
          WellFormedRule P.typelessProtoDef.locKinds (id2TypeId.lookup ·) r.actions) ∧
      ∀ runs b', (buildRules P id2TypeId).run b = .ok runs b' →
        List.Forall₂ (Encodes P.typelessProtoDef.locKinds)
          P.typelessProtoDef.behaviour.rules runs := by
  obtain ⟨hiff, hres⟩ := run_buildRulesFrom htypes P.typelessProtoDef.behaviour.rules 0 b
  have hgo : ∀ r ∈ P.typelessProtoDef.behaviour.rules, ¬ r.guard.StopsBuild P :=
    fun r hr => not_stopsBuild_of_not P (hfuncs r hr)
  refine ⟨?_, fun runs b' h => (hres runs b' h).1⟩
  rw [buildRules, hiff]
  exact ⟨fun h => h.1, fun h => ⟨h, hgo⟩⟩

/-! ## A rule in which everything happens at once -/

/-- A putter and a getter and two cells. -/
def relayKinds : HashMap LocId LocKind :=
  collectMap [(0, .portPutter), (1, .portGetter), (2, .memUninitialized), (3, .memUninitialized)]

def relayTypes : HashMap LocId TypeId := collectMap [(0, 7), (1, 7), (2, 7), (3, 7)]

/-- Cell 2 puts to itself and, twice, to the getter, while the putter fills
cell 3. -/
def relayRule : RuleDef := ⟨.memIsNull 3, [⟨2, [1, 2, 1]⟩, ⟨0, [3]⟩]⟩

def relay : Proto Nat where
  typelessProtoDef := ⟨⟨[relayRule]⟩, relayKinds⟩
  fillMemory := fun _ => none
  defFunc := fun _ => none
  locType := fun _ => none

theorem relay_typesDefined : TypesDefined relayKinds relayTypes := by
  intro l k h
  have hmem : l ∈ relayKinds.keys := AList.mem_keys.2 (AList.lookup_isSome.1 (by rw [h]; rfl))
  have hkeys : relayKinds.keys = [3, 2, 1, 0] := by decide
  rw [hkeys] at hmem
  simp only [List.mem_cons, List.not_mem_nil, or_false] at hmem
  rcases hmem with rfl | rfl | rfl | rfl <;> exact ⟨7, by decide⟩

theorem relay_wellFormed :
    WellFormedRule relayKinds (relayTypes.lookup ·) relayRule.actions where
  putters := by
    intro a ha
    simp only [relayRule, List.mem_cons, List.not_mem_nil, or_false] at ha
    rcases ha with rfl | rfl
    · exact ⟨.memUninitialized, by decide, rfl⟩
    · exact ⟨.portPutter, by decide, rfl⟩
  getters := by
    intro a ha g hg
    simp only [relayRule, List.mem_cons, List.not_mem_nil, or_false] at ha
    rcases ha with rfl | rfl
    · simp only [List.mem_cons, List.not_mem_nil, or_false] at hg
      rcases hg with rfl | rfl | rfl
      · exact ⟨.portGetter, by decide, rfl, by decide⟩
      · exact ⟨.memUninitialized, by decide, rfl, by decide⟩
      · exact ⟨.portGetter, by decide, rfl, by decide⟩
    · obtain rfl := List.mem_singleton.1 hg
      exact ⟨.memUninitialized, by decide, rfl, by decide⟩
  selfPut := by
    intro a ha _
    simp only [relayRule, List.mem_cons, List.not_mem_nil, or_false] at ha
    rcases ha with rfl | rfl
    · decide
    · contradiction
  apart := by
    refine List.pairwise_pair.2 ?_
    rintro l ⟨h₁, h₂⟩
    simp only [ActionDef.mentions, List.mem_cons, List.not_mem_nil, or_false] at h₁ h₂
    rcases h₂ with rfl | rfl <;> simp at h₁

/-- It is accepted and encoded. -/
theorem buildRules_accepts_relay : ∃ runs b,
    (buildRules relay relayTypes).run (.new .empty) = .ok runs b ∧
      List.Forall₂ (Encodes relayKinds) [relayRule] runs := by
  obtain ⟨hiff, hres⟩ := buildRules_accepts_iff relay relayTypes (.new .empty) relay_typesDefined
    (by
      intro r hr
      obtain rfl := List.mem_singleton.1 hr
      rfl)
  obtain ⟨runs, b, hrun⟩ := hiff.2 (by
    intro r hr
    obtain rfl := List.mem_singleton.1 hr
    exact relay_wellFormed)
  exact ⟨runs, b, hrun, hres runs b hrun⟩

end ReoRs
