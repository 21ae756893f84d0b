import ReoRs.Lib.Orders
import ReoRs.Proofs.Elimination
import ReoRs.RbpaOrders

/-!
# Simplification does not depend on hash order

What `fuse` and `compose` return is, as a rule with maps, a function of the
rules with maps they are given. For the second loop of `fuse`, which looks for
one location that is wrong, there is nothing to it, and the loops of `compose`
are described by lookups in `RbpaRules` already. The first loop of `fuse` is a
state machine with early exits. Its rounds commute: two locations that leave
it in one state leave it there in either order, and two that end it end it in
either order.

`normalize` chooses its silent rule, the rules it composes with and the rules
it fuses by their positions in a vector. So two runs of it go through the same
rules with maps, step for step.
-/

namespace ReoRs

open List (Perm)

namespace Traversal

variable {V : Type} {m : HashMap LocId V}

theorem mem_keys (t : Traversal m) {k : LocId} : k ∈ t.keys ↔ k ∈ m.keys :=
  (t.perm.map _).mem_iff

theorem dlookup (t : Traversal m) (k : LocId) : t.entries.dlookup k = m.lookup k :=
  List.perm_dlookup k t.nodupKeys t.perm

theorem lookup_retain (t : Traversal m) (p : LocId → V → Bool) (k : LocId) :
    (t.retain p).lookup k = (m.retain p).lookup k :=
  List.perm_dlookup k (t.retain p).nodupKeys (t.perm.filter _)

end Traversal

namespace RbpaRule

theorem maps_eq_iff {a b : RbpaRule} : a.maps = b.maps ↔
    a.port = b.port ∧ (∀ k, a.guard.lookup k = b.guard.lookup k) ∧
      ∀ k, a.assign.lookup k = b.assign.lookup k := by
  rw [maps, maps, RuleMaps.mk.injEq, funext_iff, funext_iff]

theorem maps_normalize {a b : RbpaRule} (h : a.maps = b.maps) :
    a.normalize.maps = b.normalize.maps := by
  obtain ⟨hport, hguard, hassign⟩ := maps_eq_iff.1 h
  refine maps_eq_iff.2 ⟨hport, hguard, fun k => ?_⟩
  show (a.assign.retain _).lookup k = (b.assign.retain _).lookup k
  rw [HashMap.lookup_retain, HashMap.lookup_retain, hassign, hguard]

theorem outcome_congr {a b : RbpaRule} (h : a.maps = b.maps) (k : LocId) :
    a.outcome k = b.outcome k := by
  rw [outcome, outcome, (maps_eq_iff.1 h).2.1, (maps_eq_iff.1 h).2.2]

/-- Normalizing in any order gives what it gives in the order of the
representation. -/
theorem maps_of_normalizes {x r : Option RbpaRule} (h : Normalizes x r) :
    r.map maps = (x.map normalize).map maps := by
  cases h with
  | none => rfl
  | some r t =>
      refine congrArg some (maps_eq_iff.2 ⟨rfl, fun k => rfl, fun k => ?_⟩)
      exact t.lookup_retain _ k

theorem normalizes_map (x : Option RbpaRule) : Normalizes x (x.map normalize) := by
  cases x with
  | none => exact .none
  | some r => exact .some r (.stored _)

/-! ## Fusion -/

/-- What a location says about two guards. -/
inductive Verdict where
  | left
  | right
  | split
  | agree

def verdict (a b : RbpaRule) (id : LocId) : Verdict :=
  match a.guard.lookup id, b.guard.lookup id with
  | some _, none => .left
  | none, some _ => .right
  | some x, some y => if x ≠ y then .split else .agree
  | none, none => .agree

/-- The round, by the verdict. -/
def advance (id : LocId) : Verdict → FuseCase → Option FuseCase
  | .left, .rightSubsumes | .left, .identical => some .rightSubsumes
  | .right, .leftSubsumes | .right, .identical => some .leftSubsumes
  | .split, .identical => some (.partitionAt id)
  | .agree, gCase => some gCase
  | _, _ => none

theorem nextCase_eq (a b : RbpaRule) (gCase : FuseCase) (id : LocId) :
    nextCase a b gCase id = advance id (verdict a b id) gCase := by
  unfold nextCase verdict
  cases a.guard.lookup id with
  | none => cases b.guard.lookup id <;> cases gCase <;> rfl
  | some x =>
      cases b.guard.lookup id with
      | none => cases gCase <;> rfl
      | some y =>
          by_cases hxy : x = y
          · subst hxy
            simp only [ne_eq, not_true, if_false]
            cases gCase <;> rfl
          · simp only [ne_eq, hxy, not_false_eq_true, if_true]
            cases gCase <;> rfl

/-- Two rounds commute. -/
theorem advance_comm (x y : LocId) (v u : Verdict) (gCase : FuseCase) :
    (advance x v gCase).bind (advance y u) = (advance y u gCase).bind (advance x v) := by
  cases v <;> cases u <;> cases gCase <;> rfl

theorem nextCase_comm (a b : RbpaRule) (gCase : FuseCase) (x y : LocId) :
    (nextCase a b gCase x).bind (nextCase a b · y) =
      (nextCase a b gCase y).bind (nextCase a b · x) := by
  simp only [nextCase_eq]
  exact advance_comm x y _ _ gCase

section Fuse

variable {a a' b b' : RbpaRule} (ha : a.maps = a'.maps) (hb : b.maps = b'.maps)
include ha hb

theorem nextCase_congr : nextCase a b = nextCase a' b' := by
  funext gCase id
  rw [nextCase_eq, nextCase_eq, verdict, verdict, (maps_eq_iff.1 ha).2.1, (maps_eq_iff.1 hb).2.1]

theorem mem_chainedIds (t : Traversal a.guard) (u : Traversal b.guard) (t' : Traversal a'.guard)
    (u' : Traversal b'.guard) (k : LocId) : k ∈ t.keys ++ u.keys ↔ k ∈ t'.keys ++ u'.keys := by
  have hkeys : ∀ {m m' : StatePred}, (∀ k, m.lookup k = m'.lookup k) →
      (k ∈ m.keys ↔ k ∈ m'.keys) := by
    intro m m' h
    rw [← AList.mem_keys, ← AList.mem_keys, ← AList.lookup_isSome, ← AList.lookup_isSome, h]
  rw [List.mem_append, List.mem_append, t.mem_keys, u.mem_keys, t'.mem_keys, u'.mem_keys,
    hkeys (maps_eq_iff.1 ha).2.1, hkeys (maps_eq_iff.1 hb).2.1]

theorem maps_fusedGuard (gCase : FuseCase) (k : LocId) :
    (fusedGuard a b gCase).lookup k = (fusedGuard a' b' gCase).lookup k := by
  have hguard := (maps_eq_iff.1 ha).2.1
  cases gCase with
  | identical => exact hguard k
  | leftSubsumes => exact hguard k
  | rightSubsumes => exact (maps_eq_iff.1 hb).2.1 k
  | partitionAt id =>
      rw [fusedGuard, fusedGuard]
      by_cases hk : k = id
      · rw [hk, AList.lookup_erase, AList.lookup_erase]
      · rw [AList.lookup_erase_ne hk, AList.lookup_erase_ne hk, hguard]

theorem fuseAlong_congr {ids ids' effects effects' : List LocId} (hids : ids.Perm ids')
    (heffects : ∀ k, k ∈ effects ↔ k ∈ effects') :
    ((fuseAlong a b ids effects).map normalize).map maps =
      ((fuseAlong a' b' ids' effects').map normalize).map maps := by
  have hfold : ids.foldlM (nextCase a b) FuseCase.identical =
      ids'.foldlM (nextCase a' b') FuseCase.identical := by
    rw [← nextCase_congr ha hb]
    exact Orders.foldlM_perm (nextCase_comm a b) hids _
  have hany : effects.any (fun id => a.outcome id != b.outcome id) =
      effects'.any fun id => a'.outcome id != b'.outcome id := by
    rw [Orders.any_eq_of_mem_iff heffects]
    congr 1
    funext id
    rw [outcome_congr ha, outcome_congr hb]
  rw [fuseAlong, fuseAlong, hfold, hany, (maps_eq_iff.1 ha).1, (maps_eq_iff.1 hb).1]
  split
  · rfl
  · cases ids'.foldlM (nextCase a' b') FuseCase.identical with
    | none => rfl
    | some gCase =>
        dsimp only
        split
        · rfl
        · refine congrArg some (maps_normalize (maps_eq_iff.2 ⟨rfl, fun k => ?_, ?_⟩))
          · exact maps_fusedGuard ha hb gCase k
          · exact (maps_eq_iff.1 ha).2.2

/-- Whatever orders `fuse` goes in, its result is the same as maps. -/
theorem fuses_congr {r r' : Option RbpaRule} (hr : Fuses a b r) (hr' : Fuses a' b' r') :
    r.map maps = r'.map maps := by
  obtain ⟨t₁, t₂, u₁, u₂, hr⟩ := hr
  obtain ⟨t₁', t₂', u₁', u₂', hr'⟩ := hr'
  rw [maps_of_normalizes hr, maps_of_normalizes hr']
  refine fuseAlong_congr ha hb ?_ fun k => ?_
  · exact Orders.eraseDups_perm (mem_chainedIds ha hb t₁ u₁ t₁' u₁')
  · rw [chainedIds, chainedIds, List.mem_eraseDups, List.mem_eraseDups]
    exact mem_chainedIds ha hb t₂ u₂ t₂' u₂' k

end Fuse

/-- The order of the representations is one that `fuse` may go in. -/
theorem fuses_fuse (a b : RbpaRule) : Fuses a b (a.fuse b) := by
  refine ⟨.stored _, .stored _, .stored _, .stored _, ?_⟩
  have hfuse : a.fuse b = (fuseAlong a b (guardIds a b) (guardIds a b)).map normalize := by
    rw [fuse, fuseAlong]
    split
    · rfl
    · cases (guardIds a b).foldlM (nextCase a b) FuseCase.identical with
      | none => rfl
      | some gCase =>
          dsimp only
          split <;> rfl
  rw [hfuse]
  exact normalizes_map _

/-! ## Composition -/

section Compose

variable {r₁ r₁' r₂ r₂' : RbpaRule} (h₁ : r₁.maps = r₁'.maps) (h₂ : r₂.maps = r₂'.maps)
include h₁ h₂

theorem Composed.maps_eq {c c' : RbpaRule} {g a g' a' : StatePred} (hc : Composed r₁ r₂ c g a)
    (hc' : Composed r₁' r₂' c' g' a') : c.maps = c'.maps := by
  rw [hc.rule, hc'.rule]
  refine maps_normalize (maps_eq_iff.2 ⟨(maps_eq_iff.1 h₂).1, fun k => ?_, fun k => ?_⟩)
  · show g.lookup k = g'.lookup k
    rw [hc.guard, hc'.guard, outcome_congr h₁, (maps_eq_iff.1 h₁).2.1, (maps_eq_iff.1 h₂).2.1]
  · show a.lookup k = a'.lookup k
    rw [hc.assign, hc'.assign, (maps_eq_iff.1 h₁).2.2, (maps_eq_iff.1 h₂).2.1,
      (maps_eq_iff.1 h₂).2.2]

/-- A clash is one in every order. -/
theorem Composed.not_clash {c : RbpaRule} {g a : StatePred} (hc : Composed r₁ r₂ c g a) :
    ¬ ∃ k v w, r₂'.guard.lookup k = some v ∧ r₁'.outcome k = some w ∧ w ≠ v := by
  rintro ⟨k, v, w, hv, hw, hne⟩
  rw [← (maps_eq_iff.1 h₂).2.1] at hv
  rw [← outcome_congr h₁] at hw
  exact hne (hc.free k v hv w hw)

/-- Whatever orders `compose` goes in, its result is the same as maps. -/
theorem composes_congr {r r' : Option RbpaRule} (hr : Composes r₁ r₂ r)
    (hr' : Composes r₁' r₂' r') : r.map maps = r'.map maps := by
  obtain ⟨-, t, u, hr⟩ := hr
  obtain ⟨-, t', u', hr'⟩ := hr'
  rw [maps_of_normalizes hr, maps_of_normalizes hr', composeAlong, composeAlong]
  rcases composed_cases t.perm u.perm with ⟨hnone, hclash⟩ | ⟨g, hsome, hc⟩
  · rcases composed_cases t'.perm u'.perm with ⟨hnone', -⟩ | ⟨g', -, hc'⟩
    · rw [hnone, hnone']
    · exact absurd hclash (hc'.not_clash h₁.symm h₂.symm)
  · rcases composed_cases t'.perm u'.perm with ⟨-, hclash'⟩ | ⟨g', hsome', hc'⟩
    · exact absurd hclash' (hc.not_clash h₁ h₂)
    · rw [hsome, hsome']
      exact congrArg some (hc.maps_eq h₁ h₂ hc')

end Compose

theorem composes_compose {r₁ : RbpaRule} (hsilent : r₁.port = none) (r₂ : RbpaRule) :
    Composes r₁ r₂ (r₁.compose r₂) := by
  refine ⟨hsilent, .stored _, .stored _, ?_⟩
  have hcompose : r₁.compose r₂ =
      (composeAlong r₁ r₂ r₂.guard.entries r₁.assign.entries).map normalize := by
    rw [compose, composeAlong]
    cases r₂.guard.entries.foldlM (composeGuard r₁) r₁.guard <;> rfl
  rw [hcompose]
  exact normalizes_map _

end RbpaRule

theorem StatePred.same_eq_true_iff {a b : StatePred} :
    a.same b = true ↔ ∀ k, a.lookup k = b.lookup k := by
  rw [StatePred.same, Bool.and_eq_true, List.all_eq_true, List.all_eq_true]
  constructor
  · rintro ⟨hab, hba⟩ k
    cases ha : a.lookup k with
    | some v => exact (beq_iff_eq.1 (hab ⟨k, v⟩ (AList.mem_lookup_iff.1 ha))).symm
    | none =>
        cases hb : b.lookup k with
        | none => rfl
        | some v =>
            have hback := beq_iff_eq.1 (hba ⟨k, v⟩ (AList.mem_lookup_iff.1 hb))
            rw [ha] at hback
            cases hback
  · intro h
    refine ⟨fun e he => ?_, fun e he => ?_⟩
    · rw [beq_iff_eq, ← h]
      exact AList.mem_lookup_iff.2 he
    · rw [beq_iff_eq, h]
      exact AList.mem_lookup_iff.2 he

/-- The derived equality is that of maps. -/
theorem RbpaRule.same_eq_true_iff {a b : RbpaRule} : a.same b = true ↔ a.maps = b.maps := by
  rw [RbpaRule.same, Bool.and_eq_true, Bool.and_eq_true, beq_iff_eq, StatePred.same_eq_true_iff,
    StatePred.same_eq_true_iff, RbpaRule.maps_eq_iff, and_assoc]

namespace Rbpa

open RbpaRule

/-! ## Lists of rules -/

section Lists

variable {rules rules' : List RbpaRule} (h : rules.map maps = rules'.map maps)
include h

theorem getElem?_congr (i : Nat) : (rules[i]?).map maps = (rules'[i]?).map maps := by
  rw [← List.getElem?_map, ← List.getElem?_map, h]

theorem swapRemove_congr (i : Nat) :
    (swapRemove rules i).map maps = (swapRemove rules' i).map maps := by
  have hview : ∀ l : List RbpaRule, (swapRemove l i).map maps =
      match (l.map maps).getLast? with
      | some last => ((l.map maps).set i last).dropLast
      | none => [] := by
    intro l
    rw [swapRemove, List.getLast?_map]
    cases l.getLast? with
    | none => rfl
    | some last =>
        dsimp only [Option.map_some]
        rw [List.map_dropLast, List.map_set]
  rw [hview, hview, h]

theorem takeSilent_congr : (takeSilent rules).map (fun x => (x.1.maps, x.2.map maps)) =
    (takeSilent rules').map fun x => (x.1.maps, x.2.map maps) := by
  have hview : ∀ l : List RbpaRule, l.findIdx? (·.port.isNone) =
      (l.map maps).findIdx? (·.port.isNone) := by
    intro l
    rw [List.findIdx?_map]
    rfl
  rw [takeSilent, takeSilent, hview, hview, h]
  cases (rules'.map maps).findIdx? (·.port.isNone) with
  | none => rfl
  | some i =>
      have hi := getElem?_congr h i
      dsimp only
      cases hr : rules[i]? with
      | none =>
          rw [hr] at hi
          rw [Option.map_eq_none_iff.1 hi.symm]
          rfl
      | some r =>
          rw [hr] at hi
          obtain ⟨r', hr', hmaps⟩ := Option.map_eq_some_iff.1 hi.symm
          rw [hr', Option.map_some, Option.map_some, Option.map_some, Option.map_some,
            swapRemove_congr h, hmaps]

end Lists

/-- Each rule once is each map once. -/
theorem dedup_congr {rules rules' : List RbpaRule} (h : rules.map maps = rules'.map maps) :
    (dedup rules).map maps = (dedup rules').map maps := by
  have hany : ∀ (kept : List RbpaRule) (r : RbpaRule),
      kept.any (·.same r) = true ↔ r.maps ∈ kept.map maps := by
    intro kept r
    rw [List.any_eq_true, List.mem_map]
    exact exists_congr fun x => and_congr_right' same_eq_true_iff
  suffices hfold : ∀ (l l' kept kept' : List RbpaRule), l.map maps = l'.map maps →
      kept.map maps = kept'.map maps →
      (l.foldl (fun kept r => if kept.any (·.same r) then kept else kept ++ [r]) kept).map maps =
        (l'.foldl (fun kept r => if kept.any (·.same r) then kept else kept ++ [r]) kept').map maps
    from hfold rules rules' [] [] h rfl
  intro l
  induction l with
  | nil =>
      intro l' kept kept' hl hkept
      rw [List.map_eq_nil_iff.1 hl.symm]
      exact hkept
  | cons r l ih =>
      intro l' kept kept' hl hkept
      obtain ⟨r', l', rfl, hr, hl⟩ := List.map_eq_cons_iff.1 hl.symm
      rw [List.foldl_cons, List.foldl_cons]
      refine ih l' _ _ hl.symm ?_
      by_cases hin : kept.any (·.same r) = true
      · have hin' : kept'.any (·.same r') = true := by
          rw [hany, hr, ← hkept, ← hany]
          exact hin
        rw [if_pos hin, if_pos hin', hkept]
      · have hin' : ¬ kept'.any (·.same r') = true := by
          rw [hany, hr, ← hkept, ← hany]
          exact hin
        rw [if_neg hin, if_neg hin', List.map_append, List.map_append, hkept, List.map_singleton,
          List.map_singleton, hr]

theorem fusesEach_congr {c c' : RbpaRule} (hc : c.maps = c'.maps) :
    ∀ {rules rules' : List RbpaRule} {outcomes outcomes' : List (Option RbpaRule)},
      rules.map maps = rules'.map maps → FusesEach rules c outcomes →
        FusesEach rules' c' outcomes' →
          outcomes.map (Option.map maps) = outcomes'.map (Option.map maps)
  | [], [], _, _, _, .nil, .nil => rfl
  | _ :: _, _ :: _, _, _, h, .cons hr hrest, .cons hr' hrest' => by
      obtain ⟨hhead, htail⟩ := List.cons.inj h
      rw [List.map_cons, List.map_cons, fuses_congr hhead hc hr hr',
        fusesEach_congr hc htail hrest hrest']

theorem replaceFused_congr {rules rules' : List RbpaRule}
    {outcomes outcomes' : List (Option RbpaRule)} (h : rules.map maps = rules'.map maps)
    (ho : outcomes.map (Option.map maps) = outcomes'.map (Option.map maps)) :
    (replaceFused rules outcomes).map maps = (replaceFused rules' outcomes').map maps := by
  have hview : ∀ (l : List RbpaRule) (o : List (Option RbpaRule)), (replaceFused l o).map maps =
      List.zipWith (fun r₃ r => r.getD r₃) (l.map maps) (o.map (Option.map maps)) := by
    intro l o
    rw [replaceFused, List.map_zipWith, List.zipWith_map]
    congr 1
    funext r₃ r
    cases r <;> rfl
  rw [hview, hview, h, ho]

theorem bufferUnfused_congr {buf buf' : List RbpaRule} {c c' : RbpaRule}
    {outcomes outcomes' : List (Option RbpaRule)} (h : buf.map maps = buf'.map maps)
    (hc : c.maps = c'.maps)
    (ho : outcomes.map (Option.map maps) = outcomes'.map (Option.map maps)) :
    (bufferUnfused buf c outcomes).map maps = (bufferUnfused buf' c' outcomes').map maps := by
  have hview : ∀ o : List (Option RbpaRule),
      o.any Option.isSome = (o.map (Option.map maps)).any Option.isSome := by
    intro o
    rw [List.any_map]
    congr 1
    funext r
    cases r <;> rfl
  rw [bufferUnfused, bufferUnfused, hview, hview, ho]
  split
  · exact h
  · rw [List.map_append, List.map_append, h, List.map_singleton, List.map_singleton, hc]

/-! ## Runs -/

/-- What a step at the condition of the outer loop can do. -/
theorem step_outer {rules rs : List RbpaRule} {p : Phase RbpaRule} (hp : Step (.outer rules) rs p) :
    (takeSilent rules = none ∧ rs = dedup rules ∧ p = .done rs) ∨
      ∃ r₁, takeSilent rules = some (r₁, rs) ∧ p = .inner r₁ rs [] 0 := by
  cases hp with
  | take htake => exact .inr ⟨_, htake, rfl⟩
  | finish hnone => exact .inl ⟨hnone, rfl, rfl⟩

/-- What a step in the inner loop can do. -/
theorem step_inner {r₁ : RbpaRule} {rules buf rs : List RbpaRule} {rid2 : Nat}
    {p : Phase RbpaRule} (hp : Step (.inner r₁ rules buf rid2) rs p) :
    (rules[rid2]? = none ∧ rs = rules ++ buf ∧ p = .outer rs) ∨
      ∃ r₂ r, rules[rid2]? = some r₂ ∧ Composes r₁ r₂ r ∧
        ((r = none ∧ rs = rules ∧ p = .inner r₁ rs buf (rid2 + 1)) ∨
          ∃ c outcomes, r = some c ∧ FusesEach rules c outcomes ∧
            rs = replaceFused rules outcomes ∧
            p = .inner r₁ rs (bufferUnfused buf c outcomes) (rid2 + 1)) := by
  cases hp with
  | append hend => exact .inl ⟨hend, rfl, rfl⟩
  | skip hr₂ hnone => exact .inr ⟨_, none, hr₂, hnone, .inl ⟨rfl, rfl, rfl⟩⟩
  | compose hr₂ hsome hfuse =>
      exact .inr ⟨_, some _, hr₂, hsome, .inr ⟨_, _, rfl, hfuse, rfl, rfl⟩⟩

theorem step_outer_congr {rules rules' rs rs' : List RbpaRule} {p p' : Phase RbpaRule}
    (h : rules.map maps = rules'.map maps) (hp : Step (.outer rules) rs p)
    (hp' : Step (.outer rules') rs' p') :
    rs.map maps = rs'.map maps ∧ p.map maps = p'.map maps := by
  have hsame := takeSilent_congr h
  rcases step_outer hp with ⟨hnone, rfl, rfl⟩ | ⟨r₁, htake, rfl⟩
  · rcases step_outer hp' with ⟨-, rfl, rfl⟩ | ⟨r₁', htake', rfl⟩
    · exact ⟨dedup_congr h, congrArg Phase.done (dedup_congr h)⟩
    · rw [hnone, htake'] at hsame
      cases hsame
  · rcases step_outer hp' with ⟨hnone', rfl, rfl⟩ | ⟨r₁', htake', rfl⟩
    · rw [htake, hnone'] at hsame
      cases hsame
    · rw [htake, htake'] at hsame
      obtain ⟨hr₁, hrest⟩ := Prod.mk.inj (Option.some.inj hsame)
      exact ⟨hrest, by rw [Phase.map, Phase.map, hr₁, hrest]⟩

theorem step_inner_congr {r₁ r₁' : RbpaRule} {rules rules' buf buf' rs rs' : List RbpaRule}
    {rid2 : Nat} {p p' : Phase RbpaRule} (hr₁ : r₁.maps = r₁'.maps)
    (hrules : rules.map maps = rules'.map maps) (hbuf : buf.map maps = buf'.map maps)
    (hp : Step (.inner r₁ rules buf rid2) rs p) (hp' : Step (.inner r₁' rules' buf' rid2) rs' p') :
    rs.map maps = rs'.map maps ∧ p.map maps = p'.map maps := by
  have hsame := getElem?_congr hrules rid2
  rcases step_inner hp with ⟨hend, rfl, rfl⟩ | ⟨r₂, r, hr₂, hr, hafter⟩
  · rcases step_inner hp' with ⟨-, rfl, rfl⟩ | ⟨r₂', r', hr₂', -, -⟩
    · have happend : (rules ++ buf).map maps = (rules' ++ buf').map maps := by
        rw [List.map_append, List.map_append, hrules, hbuf]
      exact ⟨happend, congrArg Phase.outer happend⟩
    · rw [hend, hr₂'] at hsame
      cases hsame
  · rcases step_inner hp' with ⟨hend', rfl, rfl⟩ | ⟨r₂', r', hr₂', hr', hafter'⟩
    · rw [hr₂, hend'] at hsame
      cases hsame
    · rw [hr₂, hr₂'] at hsame
      have hresult := composes_congr hr₁ (Option.some.inj hsame) hr hr'
      -- either both compositions exist or neither does
      rcases hafter with ⟨rfl, rfl, rfl⟩ | ⟨c, outcomes, rfl, hfuse, rfl, rfl⟩
      · rcases hafter' with ⟨rfl, rfl, rfl⟩ | ⟨c', outcomes', rfl, -⟩
        · exact ⟨hrules, by rw [Phase.map, Phase.map, hr₁, hrules, hbuf]⟩
        · cases hresult
      · rcases hafter' with ⟨rfl, rfl, rfl⟩ | ⟨c', outcomes', rfl, hfuse', rfl, rfl⟩
        · cases hresult
        · have hc := Option.some.inj hresult
          have houtcomes := fusesEach_congr hc hrules hfuse hfuse'
          have hreplaced := replaceFused_congr hrules houtcomes
          refine ⟨hreplaced, ?_⟩
          rw [Phase.map, Phase.map, hr₁, hreplaced, bufferUnfused_congr hbuf hc houtcomes]

/-- Steps from phases that are the same as maps lead to such phases. -/
theorem step_congr {p q : Phase RbpaRule} {rs rs' : List RbpaRule} {p' q' : Phase RbpaRule}
    (h : p.map maps = q.map maps) (hp : Step p rs p') (hq : Step q rs' q') :
    rs.map maps = rs'.map maps ∧ p'.map maps = q'.map maps := by
  cases p with
  | outer rules =>
      cases q with
      | outer rules' => exact step_outer_congr (Phase.outer.inj h) hp hq
      | inner r₁ rules buf rid2 => cases h
      | done rules => cases h
  | inner r₁ rules buf rid2 =>
      cases q with
      | outer rules' => cases h
      | inner r₁' rules' buf' rid2' =>
          obtain ⟨hr₁, hrules, hbuf, rfl⟩ := Phase.inner.inj h
          exact step_inner_congr hr₁ hrules hbuf hp hq
      | done rules => cases h
  | done rules => cases hp

/-- The loop over `r3`, in the order of the representations. -/
theorem fusesEach_fuse (rules : List RbpaRule) (c : RbpaRule) :
    FusesEach rules c (rules.map (·.fuse c)) :=
  List.forall₂_map_right_iff.2 (List.forall₂_same.2 fun r₃ _ => fuses_fuse r₃ c)

/-- Where one run goes on, so does one that looks the same. -/
theorem step_of_step {p q : Phase RbpaRule} {rs' : List RbpaRule} {q' : Phase RbpaRule}
    (h : p.map maps = q.map maps) (hq : Step q rs' q') : ∃ rs p', Step p rs p' := by
  cases p with
  | outer rules =>
      cases htake : takeSilent rules with
      | none => exact ⟨_, _, .finish htake⟩
      | some x => exact ⟨_, _, .take htake⟩
  | inner r₁ rules buf rid2 =>
      cases hr₂ : rules[rid2]? with
      | none => exact ⟨_, _, .append hr₂⟩
      | some r₂ =>
          have hsilent : r₁.port = none := by
            cases q with
            | outer rules' => cases h
            | done rules' => cases h
            | inner r₁' rules' buf' rid2' =>
                obtain ⟨hr₁, hrules, -, rfl⟩ := Phase.inner.inj h
                have hsame := getElem?_congr hrules rid2
                rcases step_inner hq with ⟨hend', -⟩ | ⟨r₂', r', -, hr', -⟩
                · rw [hr₂, hend'] at hsame
                  cases hsame
                · exact (maps_eq_iff.1 hr₁).1.trans hr'.1
          have hcompose := composes_compose hsilent r₂
          cases hc : r₁.compose r₂ with
          | none => exact ⟨_, _, .skip hr₂ (hc ▸ hcompose)⟩
          | some c => exact ⟨_, _, .compose hr₂ (hc ▸ hcompose) (fusesEach_fuse rules c)⟩
  | done rules =>
      cases q with
      | outer rules' => cases h
      | inner r₁' rules' buf' rid2' => cases h
      | done rules' => cases hq

/-! ## The run in the order of the representations -/

theorem step_composeWith {r₁ : RbpaRule} (hsilent : r₁.port = none)
    {st : List RbpaRule × List RbpaRule} {rid2 : Nat} (hlt : rid2 < st.1.length) :
    Step (.inner r₁ st.1 st.2 rid2) (composeWith r₁ st rid2).1
      (.inner r₁ (composeWith r₁ st rid2).1 (composeWith r₁ st rid2).2 (rid2 + 1)) := by
  have hr₂ := List.getElem?_eq_getElem hlt
  have hcompose := composes_compose hsilent st.1[rid2]
  cases hc : r₁.compose st.1[rid2] with
  | none =>
      rw [composeWith_of_none (by rw [hr₂, Option.bind_some, hc])]
      exact .skip hr₂ (hc ▸ hcompose)
  | some c =>
      have hreplaced : replaceFused st.1 (st.1.map (·.fuse c)) = (putIn c st).1 := by
        rw [replaceFused, List.zipWith_map_right, List.zipWith_self]
        rfl
      have hbuffered : bufferUnfused st.2 c (st.1.map (·.fuse c)) = (putIn c st).2 := by
        rw [bufferUnfused, List.any_map]
        rfl
      rw [composeWith_eq_putIn hr₂ hc, ← hreplaced, ← hbuffered]
      exact .compose hr₂ (hc ▸ hcompose) (fusesEach_fuse st.1 c)

theorem reach_rounds {r₁ : RbpaRule} (hsilent : r₁.port = none) (rest : List RbpaRule) :
    ∀ n, n ≤ rest.length → ∃ h, Run.Reach Step (.inner r₁ rest [] 0) h
      (.inner r₁ (rounds r₁ rest n).1 (rounds r₁ rest n).2 n) := by
  intro n
  induction n with
  | zero => exact fun _ => ⟨[], .refl⟩
  | succ n ih =>
      intro hn
      obtain ⟨h, hreach⟩ := ih (Nat.le_of_succ_le hn)
      have hlength := congrArg List.length (ports_rounds r₁ rest n)
      rw [List.length_map, List.length_map] at hlength
      refine ⟨_ :: h, hreach.tail (a := (composeWith r₁ (rounds r₁ rest n) n).1) ?_⟩
      rw [rounds_succ]
      exact step_composeWith hsilent (by rw [hlength]; exact hn)

theorem reach_eliminate {rules rest : List RbpaRule} {r₁ : RbpaRule}
    (htake : takeSilent rules = some (r₁, rest)) :
    ∃ h, Run.Reach Step (.outer rules) h (.outer (eliminate r₁ rest)) := by
  have hsilent := (perm_takeSilent htake).1
  obtain ⟨h, hreach⟩ := reach_rounds hsilent rest rest.length (Nat.le_refl _)
  have hlength := congrArg List.length (ports_rounds r₁ rest rest.length)
  rw [List.length_map, List.length_map] at hlength
  have hend : (rounds r₁ rest rest.length).1[rest.length]? = none :=
    List.getElem?_eq_none (Nat.le_of_eq hlength)
  exact ⟨_, .head (.take htake) (hreach.tail (.append hend))⟩

/-- What `normalize` returns is at the end of a run. -/
theorem reach_of_normalize {fuel : Nat} {rules out : List RbpaRule}
    (h : normalize fuel rules = some out) :
    ∃ hist, Run.Reach Step (.outer rules) hist (.done out) := by
  rw [normalize] at h
  obtain ⟨last, hlast, rfl⟩ := Option.map_eq_some_iff.1 h
  clear h
  induction fuel generalizing rules with
  | zero => cases hlast
  | succ fuel ih =>
      rw [eliminateAll] at hlast
      cases htake : takeSilent rules with
      | none =>
          rw [htake] at hlast
          cases hlast
          exact ⟨_, .single (.finish htake)⟩
      | some x =>
          rw [htake] at hlast
          obtain ⟨h, hreach⟩ := @reach_eliminate _ x.2 x.1 htake
          obtain ⟨h', hrest⟩ := ih hlast
          exact ⟨h' ++ h, hreach.trans hrest⟩

/-! ## Every order -/

/-- Neither what `fuse` and `compose` return nor the rule lists `normalize`
goes through depend on the orders of any traversal, or on how the maps they
are given are represented. -/
theorem hash_order_irrelevant :
    (∀ a a' b b' : RbpaRule, a.maps = a'.maps → b.maps = b'.maps → ∀ r r' : Option RbpaRule,
      Fuses a b r → Fuses a' b' r' → r.map maps = r'.map maps) ∧
    (∀ a a' b b' : RbpaRule, a.maps = a'.maps → b.maps = b'.maps → ∀ r r' : Option RbpaRule,
      Composes a b r → Composes a' b' r' → r.map maps = r'.map maps) ∧
    ∀ rules rules' : List RbpaRule, rules.map maps = rules'.map maps →
      ∀ (h h' : List (List RbpaRule)) (t t' : Phase RbpaRule),
        Run.Reach Step (.outer rules) h t → Run.Reach Step (.outer rules') h' t' →
          (h.length = h'.length →
            h.map (List.map maps) = h'.map (List.map maps) ∧ t.map maps = t'.map maps) ∧
          (Run.Stuck Step t → h'.length ≤ h.length) := by
  refine ⟨fun a a' b b' ha hb r r' => fuses_congr ha hb,
    fun a a' b b' ha hb r r' => composes_congr ha hb, fun rules rules' hrules h h' t t' hr hr' => ?_⟩
  have hstart : Phase.map maps (.outer rules) = Phase.map maps (.outer rules') :=
    congrArg Phase.outer hrules
  exact ⟨Run.Reach.view_eq @step_congr hstart hr hr',
    Run.Reach.length_le_of_stuck @step_congr @step_of_step hstart hr hr'⟩

/-- Port 1 carries a datum from cell 1 to cell 0. -/
def carries : RbpaRule where
  port := some 1
  guard := ((∅ : StatePred).insert 0 false).insert 1 true
  assign := ((∅ : StatePred).insert 0 true).insert 1 false

/-- The other order of its guard, and every run from a silent rule and it. -/
theorem hash_order_irrelevant_carries :
    ((fuseAlong carries carries [0, 1] [1, 0]).map RbpaRule.normalize).map maps =
        (carries.fuse carries).map maps ∧
      ((composeAlong fills carries carries.guard.entries.reverse fills.assign.entries).map
          RbpaRule.normalize).map maps = (fills.compose carries).map maps ∧
      ∃ h t, Run.Reach Step (.outer [fills, carries]) h t ∧
        ∀ h' t', Run.Reach Step (.outer [fills, carries]) h' t' → h'.length ≤ h.length := by
  let backwards : Traversal carries.guard :=
    ⟨carries.guard.entries.reverse, List.reverse_perm carries.guard.entries⟩
  have hfuses : Fuses carries carries
      ((fuseAlong carries carries [0, 1] [1, 0]).map RbpaRule.normalize) :=
    ⟨backwards, .stored _, backwards, .stored _, normalizes_map _⟩
  have hcomposes : Composes fills carries
      ((composeAlong fills carries carries.guard.entries.reverse fills.assign.entries).map
        RbpaRule.normalize) :=
    ⟨rfl, backwards, .stored _, normalizes_map _⟩
  obtain ⟨out, hout⟩ := Option.isSome_iff_exists.1
    (show (normalize 2 [fills, carries]).isSome = true by decide)
  obtain ⟨h, hreach⟩ := reach_of_normalize hout
  have hstuck : Run.Stuck Step (.done out) := by
    intro rs p hp
    cases hp
  refine ⟨?_, ?_, h, .done out, hreach, fun h' t' hreach' => ?_⟩
  · exact hash_order_irrelevant.1 _ _ _ _ rfl rfl _ _ hfuses (fuses_fuse carries carries)
  · exact hash_order_irrelevant.2.1 _ _ _ _ rfl rfl _ _ hcomposes (composes_compose rfl carries)
  · exact (hash_order_irrelevant.2.2 _ _ rfl h h' _ _ hreach hreach').2 hstuck

end Rbpa

end ReoRs
