import ReoRs.Proofs.Finish
import ReoRs.Proofs.Unsilence

/-!
# What `new_rbpa` reads off a rule

The loop over a rule does two things that do not touch each other. It looks for
the port the rule is to be labelled with, and gives up at the second it meets.
And it collects what the rule asks of the memory and leaves there. A cell that
puts to itself is met as a putter first, so its guard says full, and the
getter's entry changes only the assignment, which then is idle.

So the automaton is built iff no rule meets two ports, and each of its rules
does to the memory what `MemStep` says.
-/

namespace ReoRs

/-! ## The port of a rule -/

/-- The locations of a rule in the order in which they are met. -/
def met (actions : List ActionDef) : List LocId := actions.flatMap fun a => a.putter :: a.getters

/-- The ports among them. -/
def portsMet (portSet : Finset LocId) (actions : List ActionDef) : List LocId :=
  (met actions).filter fun l => decide (l ∈ portSet)

/-- What is made of the ports met: the one there is, or the first two. -/
def labelOf (ruleId : RuleId) : List LocId → Except RbpaBuildErr (Option LocId)
  | [] => .ok none
  | [l] => .ok (some l)
  | was :: id :: _ => .error (.synchronousFiring (was, id) ruleId)

section Build

variable {portSet portIds : Finset LocId} {ruleId : RuleId}

theorem foldlM_replacePort : ∀ (ids : List LocId) (port : Option LocId),
    ids.foldlM (replacePort portSet ruleId) port =
      labelOf ruleId (port.toList ++ ids.filter fun l => decide (l ∈ portSet))
  | [], none => rfl
  | [], some _ => rfl
  | id :: ids, port => by
      rw [List.foldlM_cons, List.filter_cons]
      by_cases hid : id ∈ portSet
      · rw [if_pos (decide_eq_true hid), show replacePort portSet ruleId port id = _ from if_pos hid]
        cases port with
        | none => exact foldlM_replacePort ids (some id)
        | some was => rfl
      · rw [if_neg (by simpa using hid), show replacePort portSet ruleId port id = _ from if_neg hid]
        exact foldlM_replacePort ids port

/-- What the loops collect, whatever the port. -/
def collectAction (portIds : Finset LocId) (rule : RbpaRule) (a : ActionDef) : RbpaRule :=
  a.getters.foldl (·.addGetter portIds) (rule.addPutter portIds a.putter)

def relabel (port : Option LocId) (rule : RbpaRule) : RbpaRule := ⟨port, rule.guard, rule.assign⟩

theorem addGetter_relabel (port : Option LocId) (rule : RbpaRule) (l : LocId) :
    (relabel port rule).addGetter portIds l = relabel port (rule.addGetter portIds l) := by
  unfold RbpaRule.addGetter
  split <;> rfl

theorem addPutter_relabel (port : Option LocId) (rule : RbpaRule) (l : LocId) :
    (relabel port rule).addPutter portIds l = relabel port (rule.addPutter portIds l) := by
  unfold RbpaRule.addPutter
  split <;> rfl

theorem foldl_addGetter_relabel (port : Option LocId) : ∀ (gs : List LocId) (rule : RbpaRule),
    gs.foldl (·.addGetter portIds) (relabel port rule) =
      relabel port (gs.foldl (·.addGetter portIds) rule)
  | [], _ => rfl
  | g :: gs, rule => by
      rw [List.foldl_cons, addGetter_relabel]
      exact foldl_addGetter_relabel port gs (rule.addGetter portIds g)

theorem collectAction_relabel (port : Option LocId) (rule : RbpaRule) (a : ActionDef) :
    collectAction portIds (relabel port rule) a = relabel port (collectAction portIds rule a) := by
  rw [collectAction, addPutter_relabel, foldl_addGetter_relabel]
  rfl

theorem foldl_collectAction_relabel (port : Option LocId) :
    ∀ (actions : List ActionDef) (rule : RbpaRule),
      actions.foldl (collectAction portIds) (relabel port rule) =
        relabel port (actions.foldl (collectAction portIds) rule)
  | [], _ => rfl
  | a :: actions, rule => by
      rw [List.foldl_cons, collectAction_relabel]
      exact foldl_collectAction_relabel port actions (collectAction portIds rule a)

theorem foldlM_rbpaGetter : ∀ (gs : List LocId) (rule : RbpaRule),
    gs.foldlM (rbpaGetter portSet portIds ruleId) rule =
      (gs.foldlM (replacePort portSet ruleId) rule.port).map fun port =>
        relabel port (gs.foldl (·.addGetter portIds) rule)
  | [], _ => rfl
  | g :: gs, rule => by
      rw [List.foldlM_cons, List.foldlM_cons, rbpaGetter]
      cases hport : replacePort portSet ruleId rule.port g with
      | error e => rfl
      | ok port =>
          have hrest := foldlM_rbpaGetter gs (relabel port (rule.addGetter portIds g))
          rw [foldl_addGetter_relabel] at hrest
          show gs.foldlM (rbpaGetter portSet portIds ruleId)
            ((relabel port rule).addGetter portIds g) = _
          rw [addGetter_relabel]
          exact hrest

theorem foldlM_rbpaAction : ∀ (actions : List ActionDef) (rule : RbpaRule),
    actions.foldlM (rbpaAction portSet portIds ruleId) rule =
      ((met actions).foldlM (replacePort portSet ruleId) rule.port).map fun port =>
        relabel port (actions.foldl (collectAction portIds) rule)
  | [], _ => rfl
  | a :: actions, rule => by
      have hmet : met (a :: actions) = a.putter :: (a.getters ++ met actions) := rfl
      rw [List.foldlM_cons, rbpaAction, hmet, List.foldlM_cons]
      cases hport : replacePort portSet ruleId rule.port a.putter with
      | error e => rfl
      | ok port =>
          show ((a.getters.foldlM (rbpaGetter portSet portIds ruleId)
              ((relabel port rule).addPutter portIds a.putter)) >>= _) =
            Except.map _ ((a.getters ++ met actions).foldlM (replacePort portSet ruleId) port)
          rw [foldlM_rbpaGetter, List.foldlM_append, addPutter_relabel]
          show (Except.map _ (a.getters.foldlM (replacePort portSet ruleId) port) >>= _) = _
          cases a.getters.foldlM (replacePort portSet ruleId) port with
          | error e => rfl
          | ok port' =>
              have hrest := foldlM_rbpaAction actions (relabel port' (collectAction portIds rule a))
              rw [foldl_collectAction_relabel] at hrest
              rw [foldl_addGetter_relabel]
              exact hrest

variable (portSet portIds) in
/-- What becomes of a rule that meets no two ports. -/
def readRule (actions : List ActionDef) : RbpaRule :=
  (relabel (portsMet portSet actions).head?
    (actions.foldl (collectAction portIds) ⟨none, ∅, ∅⟩)).normalize

theorem labelOf_eq_ok {ids : List LocId} (h : ids.length ≤ 1) :
    labelOf ruleId ids = .ok ids.head? := by
  match ids, h with
  | [], _ => rfl
  | [_], _ => rfl

theorem rbpaRule_eq (r : RuleDef) : rbpaRule portSet portIds ruleId r =
    (labelOf ruleId (portsMet portSet r.actions)).map fun port =>
      (relabel port (r.actions.foldl (collectAction portIds) ⟨none, ∅, ∅⟩)).normalize := by
  rw [rbpaRule, foldlM_rbpaAction, foldlM_replacePort]
  show (Except.map _ (labelOf ruleId (portsMet portSet r.actions)) >>= _) = _
  cases labelOf ruleId (portsMet portSet r.actions) <;> rfl

theorem rbpaRule_ok {r : RuleDef} (h : (portsMet portSet r.actions).length ≤ 1) :
    rbpaRule portSet portIds ruleId r = .ok (readRule portSet portIds r.actions) := by
  rw [rbpaRule_eq, labelOf_eq_ok h]
  rfl

variable (portIds) in
/-- A rule that meets two ports is named with the first two of them. -/
theorem newRbpaFrom_of_two {r : RuleDef} (h : ¬ (portsMet portSet r.actions).length ≤ 1)
    (ruleDefs : List RuleDef) (n : RuleId) (kept : List RbpaRule) :
    ∃ was id rest, portsMet portSet r.actions = was :: id :: rest ∧
      newRbpaFrom portSet portIds kept n (r :: ruleDefs) =
        .error (.synchronousFiring (was, id) n) := by
  rw [newRbpaFrom, rbpaRule_eq]
  match portsMet portSet r.actions, h with
  | [], h => exact absurd (Nat.zero_le 1) h
  | [_], h => exact absurd (Nat.le_refl 1) h
  | was :: id :: rest, _ => exact ⟨was, id, rest, rfl, rfl⟩

/-- The loop over the rules, while none of them meets two ports. -/
theorem newRbpaFrom_ok : ∀ (ruleDefs : List RuleDef) (n : RuleId) (kept : List RbpaRule),
    (∀ r ∈ ruleDefs, (portsMet portSet r.actions).length ≤ 1) →
      newRbpaFrom portSet portIds kept n ruleDefs =
        .ok ((ruleDefs.map fun r => readRule portSet portIds r.actions).foldl
          (fun kept r => if kept.any (·.same r) then kept else kept ++ [r]) kept)
  | [], _, _, _ => rfl
  | r :: ruleDefs, n, kept, h => by
      obtain ⟨hr, hrest⟩ := List.forall_mem_cons.1 h
      rw [newRbpaFrom, rbpaRule_ok hr]
      exact newRbpaFrom_ok ruleDefs (n + 1) _ hrest

/-- The first rule that meets two ports ends the loop. -/
theorem newRbpaFrom_error_iff {was id : LocId} {i : RuleId} :
    ∀ (ruleDefs : List RuleDef) (n : RuleId) (kept : List RbpaRule),
      newRbpaFrom portSet portIds kept n ruleDefs = .error (.synchronousFiring (was, id) i) ↔
        ∃ k r rest, i = n + k ∧ ruleDefs[k]? = some r ∧
          portsMet portSet r.actions = was :: id :: rest ∧
          ∀ r' ∈ ruleDefs.take k, (portsMet portSet r'.actions).length ≤ 1
  | [], _, _ => by simp [newRbpaFrom]
  | r :: ruleDefs, n, kept => by
      by_cases hr : (portsMet portSet r.actions).length ≤ 1
      · rw [newRbpaFrom, rbpaRule_ok hr]
        refine (newRbpaFrom_error_iff ruleDefs (n + 1) _).trans ⟨?_, ?_⟩
        · rintro ⟨k, r', rest, rfl, hr', hports, hbefore⟩
          exact ⟨k + 1, r', rest, Nat.succ_add_eq_add_succ n k, hr', hports,
            List.forall_mem_cons.2 ⟨hr, hbefore⟩⟩
        · rintro ⟨k, r', rest, rfl, hr', hports, hbefore⟩
          cases k with
          | zero =>
              cases hr'
              rw [hports] at hr
              simp at hr
          | succ k =>
              exact ⟨k, r', rest, (Nat.succ_add_eq_add_succ n k).symm, hr', hports,
                (List.forall_mem_cons.1 hbefore).2⟩
      · obtain ⟨was', id', rest', hports, herror⟩ :=
          newRbpaFrom_of_two portIds hr ruleDefs n kept
        rw [herror]
        constructor
        · intro h
          cases h
          exact ⟨0, r, rest', rfl, rfl, hports, fun _ h => absurd h List.not_mem_nil⟩
        · rintro ⟨k, r', rest, rfl, hr', hports', hbefore⟩
          cases k with
          | zero =>
              cases hr'
              cases hports.symm.trans hports'
              rfl
          | succ k => exact absurd (hbefore r List.mem_cons_self) hr

/-- The loop ends well only if no rule meets two ports. -/
theorem le_one_of_newRbpaFrom {rules : List RbpaRule} :
    ∀ (ruleDefs : List RuleDef) (n : RuleId) (kept : List RbpaRule),
      newRbpaFrom portSet portIds kept n ruleDefs = .ok rules →
        ∀ r ∈ ruleDefs, (portsMet portSet r.actions).length ≤ 1
  | [], _, _, _ => fun _ hr => absurd hr List.not_mem_nil
  | r :: ruleDefs, n, kept, h => by
      by_cases hr : (portsMet portSet r.actions).length ≤ 1
      · rw [newRbpaFrom, rbpaRule_ok hr] at h
        exact List.forall_mem_cons.2 ⟨hr, le_one_of_newRbpaFrom ruleDefs (n + 1) _ h⟩
      · obtain ⟨was, id, rest, -, herror⟩ := newRbpaFrom_of_two portIds hr ruleDefs n kept
        rw [herror] at h
        cases h

end Build

section Accept

variable (portSet portIds : Finset LocId) (ruleDefs : List RuleDef)

/-- The automaton is built iff no rule meets two of the ports to keep, and the
error names the first rule that does and the first two it meets. -/
theorem newRbpa_accepts_iff :
    ((∃ rules, newRbpa portSet portIds ruleDefs = .ok rules) ↔
      ∀ r ∈ ruleDefs, (portsMet portSet r.actions).length ≤ 1) ∧
    ∀ was id i, newRbpa portSet portIds ruleDefs = .error (.synchronousFiring (was, id) i) ↔
      ∃ r rest, ruleDefs[i]? = some r ∧ portsMet portSet r.actions = was :: id :: rest ∧
        ∀ r' ∈ ruleDefs.take i, (portsMet portSet r'.actions).length ≤ 1 := by
  refine ⟨⟨fun ⟨rules, hrules⟩ => le_one_of_newRbpaFrom ruleDefs 0 [] hrules,
    fun h => ⟨_, newRbpaFrom_ok ruleDefs 0 [] h⟩⟩, fun was id i => ?_⟩
  refine (newRbpaFrom_error_iff ruleDefs 0 []).trans ⟨?_, ?_⟩
  · rintro ⟨k, r, rest, rfl, h⟩
    rw [Nat.zero_add]
    exact ⟨r, rest, h⟩
  · rintro ⟨r, rest, h⟩
    exact ⟨i, r, rest, (Nat.zero_add i).symm, h⟩

variable {portSet portIds ruleDefs}

/-- What the automaton does is what its rules do, each read by itself. -/
theorem stepOf_newRbpa {rules : List RbpaRule} (h : newRbpa portSet portIds ruleDefs = .ok rules)
    (l : Option LocId) (m m' : MemState) : Rbpa.stepOf rules l m m' ↔
      ∃ r ∈ ruleDefs, (portsMet portSet r.actions).head? = l ∧
        (readRule portSet portIds r.actions).Takes m m' := by
  have hone := le_one_of_newRbpaFrom ruleDefs 0 [] h
  have hrules := (newRbpaFrom_ok ruleDefs 0 [] hone).symm.trans h
  cases hrules
  refine (Rbpa.stepOf_dedup _ l m m').trans ?_
  constructor
  · rintro ⟨ρ, hρ, hl, htakes⟩
    obtain ⟨r, hr, rfl⟩ := List.mem_map.1 hρ
    exact ⟨r, hr, hl, htakes⟩
  · rintro ⟨r, hr, hl, htakes⟩
    exact ⟨_, List.mem_map_of_mem hr, hl, htakes⟩

end Accept

/-! ## What a rule does to the memory -/

section Maps

variable {portIds : Finset LocId} {k : LocId}

theorem lookup_insert_ite (m : StatePred) (l : LocId) (v : Bool) :
    (m.insert l v).lookup k = if k = l then some v else m.lookup k := by
  by_cases h : k = l
  · rw [if_pos h, h, AList.lookup_insert]
  · rw [if_neg h, AList.lookup_insert_ne h]

theorem guard_addGetter (hk : k ∉ portIds) (rule : RbpaRule) (g : LocId) :
    (rule.addGetter portIds g).guard.lookup k =
      if k = g then some ((rule.guard.lookup k).getD false) else rule.guard.lookup k := by
  by_cases hg : g ∈ portIds
  · rw [RbpaRule.addGetter, if_pos hg, if_neg (ne_of_mem_of_not_mem hg hk).symm]
  · rw [RbpaRule.addGetter, if_neg hg]
    refine (lookup_orInsert rule.guard g false k).trans ?_
    by_cases h : k = g
    · rw [if_pos h, if_pos h, h]
    · rw [if_neg h, if_neg h]

theorem assign_addGetter (hk : k ∉ portIds) (rule : RbpaRule) (g : LocId) :
    (rule.addGetter portIds g).assign.lookup k =
      if k = g then some true else rule.assign.lookup k := by
  by_cases hg : g ∈ portIds
  · rw [RbpaRule.addGetter, if_pos hg, if_neg (ne_of_mem_of_not_mem hg hk).symm]
  · rw [RbpaRule.addGetter, if_neg hg]
    exact lookup_insert_ite rule.assign g true

theorem guard_addPutter (hk : k ∉ portIds) (rule : RbpaRule) (p : LocId) :
    (rule.addPutter portIds p).guard.lookup k =
      if k = p then some true else rule.guard.lookup k := by
  by_cases hp : p ∈ portIds
  · rw [RbpaRule.addPutter, if_pos hp, if_neg (ne_of_mem_of_not_mem hp hk).symm]
  · rw [RbpaRule.addPutter, if_neg hp]
    exact lookup_insert_ite rule.guard p true

theorem assign_addPutter (hk : k ∉ portIds) (rule : RbpaRule) (p : LocId) :
    (rule.addPutter portIds p).assign.lookup k =
      if k = p then some false else rule.assign.lookup k := by
  by_cases hp : p ∈ portIds
  · rw [RbpaRule.addPutter, if_pos hp, if_neg (ne_of_mem_of_not_mem hp hk).symm]
  · rw [RbpaRule.addPutter, if_neg hp]
    exact lookup_insert_ite rule.assign p false

theorem guard_foldl_addGetter (hk : k ∉ portIds) : ∀ (gs : List LocId) (rule : RbpaRule),
    (gs.foldl (·.addGetter portIds) rule).guard.lookup k =
      if k ∈ gs then some ((rule.guard.lookup k).getD false) else rule.guard.lookup k
  | [], rule => by simp
  | g :: gs, rule => by
      rw [List.foldl_cons, guard_foldl_addGetter hk gs, guard_addGetter hk]
      by_cases hg : k = g
      · simp [hg]
      · simp [hg]

theorem assign_foldl_addGetter (hk : k ∉ portIds) : ∀ (gs : List LocId) (rule : RbpaRule),
    (gs.foldl (·.addGetter portIds) rule).assign.lookup k =
      if k ∈ gs then some true else rule.assign.lookup k
  | [], rule => by simp
  | g :: gs, rule => by
      rw [List.foldl_cons, assign_foldl_addGetter hk gs, assign_addGetter hk]
      by_cases hg : k = g
      · simp [hg]
      · simp [hg]

theorem guard_collectAction (hk : k ∉ portIds) (rule : RbpaRule) (a : ActionDef) :
    (collectAction portIds rule a).guard.lookup k =
      if k = a.putter then some true
      else if k ∈ a.getters then some ((rule.guard.lookup k).getD false)
      else rule.guard.lookup k := by
  rw [collectAction, guard_foldl_addGetter hk, guard_addPutter hk]
  by_cases h : k = a.putter <;> simp [h]

/-- The getters come after the putter, and so a cell that puts to itself is
assigned to. -/
theorem assign_collectAction (hk : k ∉ portIds) (rule : RbpaRule) (a : ActionDef) :
    (collectAction portIds rule a).assign.lookup k =
      if k ∈ a.getters then some true
      else if k = a.putter then some false
      else rule.assign.lookup k := by
  rw [collectAction, assign_foldl_addGetter hk, assign_addPutter hk]

theorem guard_foldl_collectAction (hk : k ∉ portIds) :
    ∀ (actions : List ActionDef) (rule : RbpaRule),
      (actions.foldl (collectAction portIds) rule).guard.lookup k =
        if ∃ a ∈ actions, k = a.putter then some true
        else if ∃ a ∈ actions, k ∈ a.getters then some ((rule.guard.lookup k).getD false)
        else rule.guard.lookup k
  | [], rule => by simp
  | a :: actions, rule => by
      rw [List.foldl_cons, guard_foldl_collectAction hk actions, guard_collectAction hk]
      by_cases hrest : ∃ b ∈ actions, k = b.putter
      · simp [hrest]
      · by_cases hput : k = a.putter
        · simp [hput]
        · by_cases hget : k ∈ a.getters <;> simp [hrest, hput, hget]

theorem assign_foldl_collectAction (hk : k ∉ portIds) :
    ∀ {actions : List ActionDef} (_ : actions.Pairwise fun a b => ¬ (a.mentions k ∧ b.mentions k))
      (rule : RbpaRule), (actions.foldl (collectAction portIds) rule).assign.lookup k =
        if ∃ a ∈ actions, k ∈ a.getters then some true
        else if ∃ a ∈ actions, k = a.putter then some false
        else rule.assign.lookup k
  | [], _, rule => by simp
  | a :: actions, hapart, rule => by
      obtain ⟨hfirst, hrest⟩ := List.pairwise_cons.1 hapart
      rw [List.foldl_cons, assign_foldl_collectAction hk hrest, assign_collectAction hk]
      by_cases hgets : ∃ b ∈ actions, k ∈ b.getters
      · simp [hgets]
      · by_cases hputs : ∃ b ∈ actions, k = b.putter
        · -- no other action has the cell that this one empties
          have hnot : k ∉ a.getters := by
            obtain ⟨b, hb, hkb⟩ := hputs
            exact fun hget => hfirst b hb ⟨.inr hget, .inl hkb⟩
          simp [hgets, hputs, hnot]
        · by_cases hget : k ∈ a.getters <;> simp [hgets, hputs, hget]

/-- Ports leave no trace in either map. -/
theorem lookup_foldl_addGetter_of_port (hk : k ∈ portIds) : ∀ (gs : List LocId) (rule : RbpaRule),
    (gs.foldl (·.addGetter portIds) rule).guard.lookup k = rule.guard.lookup k ∧
      (gs.foldl (·.addGetter portIds) rule).assign.lookup k = rule.assign.lookup k
  | [], _ => ⟨rfl, rfl⟩
  | g :: gs, rule => by
      rw [List.foldl_cons]
      obtain ⟨hguard, hassign⟩ := lookup_foldl_addGetter_of_port hk gs (rule.addGetter portIds g)
      rw [hguard, hassign]
      by_cases hg : g ∈ portIds
      · rw [RbpaRule.addGetter, if_pos hg]
        exact ⟨rfl, rfl⟩
      · have hne : k ≠ g := ne_of_mem_of_not_mem hk hg
        rw [RbpaRule.addGetter, if_neg hg]
        refine ⟨(lookup_orInsert rule.guard g false k).trans (if_neg hne), ?_⟩
        rw [lookup_insert_ite, if_neg hne]

theorem lookup_foldl_collectAction_of_port (hk : k ∈ portIds) :
    ∀ (actions : List ActionDef) (rule : RbpaRule),
      (actions.foldl (collectAction portIds) rule).guard.lookup k = rule.guard.lookup k ∧
        (actions.foldl (collectAction portIds) rule).assign.lookup k = rule.assign.lookup k
  | [], _ => ⟨rfl, rfl⟩
  | a :: actions, rule => by
      rw [List.foldl_cons]
      obtain ⟨hguard, hassign⟩ :=
        lookup_foldl_collectAction_of_port hk actions (collectAction portIds rule a)
      obtain ⟨hguard', hassign'⟩ :=
        lookup_foldl_addGetter_of_port hk a.getters (rule.addPutter portIds a.putter)
      rw [hguard, hassign, collectAction, hguard', hassign']
      by_cases hp : a.putter ∈ portIds
      · rw [RbpaRule.addPutter, if_pos hp]
        exact ⟨rfl, rfl⟩
      · have hne : k ≠ a.putter := ne_of_mem_of_not_mem hk hp
        rw [RbpaRule.addPutter, if_neg hp]
        exact ⟨by rw [lookup_insert_ite, if_neg hne], by rw [lookup_insert_ite, if_neg hne]⟩

end Maps

/-- What a rule asks of the memory cells, and how it leaves them. -/
structure MemStep (cell : LocId → Prop) (actions : List ActionDef) (m m' : MemState) : Prop where
  full : ∀ l, cell l → (∃ a ∈ actions, l = a.putter) → m l = true
  empty : ∀ l, cell l → (∃ a ∈ actions, l ∈ a.getters) →
    (¬ ∃ a ∈ actions, l = a.putter) → m l = false
  filled : ∀ l, cell l → (∃ a ∈ actions, l ∈ a.getters) → m' l = true
  emptied : ∀ l, cell l → (∃ a ∈ actions, l = a.putter) →
    (¬ ∃ a ∈ actions, l ∈ a.getters) → m' l = false
  unchanged : ∀ l, ¬ (cell l ∧ involved actions l) → m' l = m l

section MemStep

variable {portSet portIds : Finset LocId} {cell cell' : LocId → Prop} {actions : List ActionDef}
  {m m' : MemState}

theorem MemStep.congr (h : MemStep cell actions m m')
    (hcell : ∀ l, involved actions l → (cell l ↔ cell' l)) : MemStep cell' actions m m' where
  full l hl hput := by
    obtain ⟨a, ha, hla⟩ := hput
    exact h.full l ((hcell l ⟨a, ha, .inl hla⟩).2 hl) ⟨a, ha, hla⟩
  empty l hl hget := by
    obtain ⟨a, ha, hla⟩ := hget
    exact h.empty l ((hcell l ⟨a, ha, .inr hla⟩).2 hl) ⟨a, ha, hla⟩
  filled l hl hget := by
    obtain ⟨a, ha, hla⟩ := hget
    exact h.filled l ((hcell l ⟨a, ha, .inr hla⟩).2 hl) ⟨a, ha, hla⟩
  emptied l hl hput := by
    obtain ⟨a, ha, hla⟩ := hput
    exact h.emptied l ((hcell l ⟨a, ha, .inl hla⟩).2 hl) ⟨a, ha, hla⟩
  unchanged l hl := h.unchanged l fun hold => hl ⟨(hcell l hold.2).1 hold.1, hold.2⟩

/-- What the loops collect of the cells of a rule: those that put are to be
full, and the others empty; those that get become full, and the others
empty. -/
structure Collected (portIds : Finset LocId) (actions : List ActionDef) (rule : RbpaRule) :
    Prop where
  guard : ∀ l, rule.guard.lookup l =
    if l ∈ portIds then none
    else if ∃ a ∈ actions, l = a.putter then some true
    else if ∃ a ∈ actions, l ∈ a.getters then some false
    else none
  assign : ∀ l, rule.assign.lookup l =
    if l ∈ portIds then none
    else if ∃ a ∈ actions, l ∈ a.getters then some true
    else if ∃ a ∈ actions, l = a.putter then some false
    else none

theorem collected_foldl (hapart : actions.Pairwise fun a b => ∀ l, ¬ (a.mentions l ∧ b.mentions l)) :
    Collected portIds actions (actions.foldl (collectAction portIds) ⟨none, ∅, ∅⟩) := by
  constructor
  · intro l
    by_cases hport : l ∈ portIds
    · rw [(lookup_foldl_collectAction_of_port hport actions _).1, if_pos hport]
      rfl
    · rw [guard_foldl_collectAction hport, if_neg hport]
      rfl
  · intro l
    by_cases hport : l ∈ portIds
    · rw [(lookup_foldl_collectAction_of_port hport actions _).2, if_pos hport]
      rfl
    · rw [assign_foldl_collectAction hport (hapart.imp fun hab => hab l), if_neg hport]
      rfl

section

variable {rule : RbpaRule} (h : Collected portIds actions rule)
include h

theorem Collected.agrees_iff : rule.guard.Agrees m ↔
    (∀ l, l ∉ portIds → (∃ a ∈ actions, l = a.putter) → m l = true) ∧
    ∀ l, l ∉ portIds → (∃ a ∈ actions, l ∈ a.getters) →
      (¬ ∃ a ∈ actions, l = a.putter) → m l = false := by
  constructor
  · refine fun hagrees => ⟨fun l hl hput => hagrees l true ?_,
      fun l hl hget hput => hagrees l false ?_⟩
    · rw [h.guard, if_neg hl, if_pos hput]
    · rw [h.guard, if_neg hl, if_neg hput, if_pos hget]
  · rintro ⟨hfull, hempty⟩ l v hv
    rw [h.guard] at hv
    split at hv
    · cases hv
    · next hl =>
        split at hv
        · next hput =>
            cases hv
            exact hfull l hl hput
        · next hput =>
            split at hv
            · next hget =>
                cases hv
                exact hempty l hl hget hput
            · cases hv

theorem Collected.overwrite_iff : m' = StatePred.overwrite m rule.assign ↔
    (∀ l, l ∉ portIds → (∃ a ∈ actions, l ∈ a.getters) → m' l = true) ∧
    (∀ l, l ∉ portIds → (∃ a ∈ actions, l = a.putter) →
      (¬ ∃ a ∈ actions, l ∈ a.getters) → m' l = false) ∧
    ∀ l, ¬ (l ∉ portIds ∧ involved actions l) → m' l = m l := by
  have hout : ∀ l, l ∉ portIds → ¬ (∃ a ∈ actions, l ∈ a.getters) →
      ¬ (∃ a ∈ actions, l = a.putter) → ¬ (l ∉ portIds ∧ involved actions l) := by
    rintro l - hget hput ⟨-, a, ha, hla⟩
    exact hla.elim (fun hla => hput ⟨a, ha, hla⟩) fun hla => hget ⟨a, ha, hla⟩
  rw [funext_iff]
  constructor
  · intro heq
    refine ⟨fun l hl hget => ?_, fun l hl hput hget => ?_, fun l hl => ?_⟩
    · rw [heq, StatePred.overwrite, h.assign, if_neg hl, if_pos hget, Option.getD_some]
    · rw [heq, StatePred.overwrite, h.assign, if_neg hl, if_neg hget, if_pos hput, Option.getD_some]
    · rw [heq, StatePred.overwrite, h.assign]
      by_cases hport : l ∈ portIds
      · rw [if_pos hport, Option.getD_none]
      · have hget : ¬ ∃ a ∈ actions, l ∈ a.getters := by
          rintro ⟨a, ha, hla⟩
          exact hl ⟨hport, a, ha, .inr hla⟩
        have hput : ¬ ∃ a ∈ actions, l = a.putter := by
          rintro ⟨a, ha, hla⟩
          exact hl ⟨hport, a, ha, .inl hla⟩
        rw [if_neg hport, if_neg hget, if_neg hput, Option.getD_none]
  · rintro ⟨hfilled, hemptied, hunchanged⟩ l
    rw [StatePred.overwrite, h.assign]
    split
    · next hport => exact hunchanged l fun hl => hl.1 hport
    · next hl =>
        split
        · next hget => exact hfilled l hl hget
        · next hget =>
            split
            · next hput => exact hemptied l hl hput hget
            · next hput => exact hunchanged l (hout l hl hget hput)

end

/-- A rule of the automaton does to the memory what the rule it was read off
asks for. -/
theorem takes_readRule_iff
    (hapart : actions.Pairwise fun a b => ∀ l, ¬ (a.mentions l ∧ b.mentions l)) :
    (readRule portSet portIds actions).Takes m m' ↔
      MemStep (· ∉ portIds) actions m m' := by
  have hcoll : Collected portIds actions _ := collected_foldl hapart
  rw [readRule, RbpaRule.takes_normalize]
  refine (and_congr hcoll.agrees_iff hcoll.overwrite_iff).trans ⟨?_, ?_⟩
  · rintro ⟨⟨hfull, hempty⟩, hfilled, hemptied, hunchanged⟩
    exact ⟨hfull, hempty, hfilled, hemptied, hunchanged⟩
  · rintro ⟨hfull, hempty, hfilled, hemptied, hunchanged⟩
    exact ⟨⟨hfull, hempty⟩, hfilled, hemptied, hunchanged⟩

end MemStep

end ReoRs
