import ReoRs.Lib.PartialMaps
import ReoRs.Proofs.HashOrder
import ReoRs.Proofs.RbpaRuns

/-!
# Rules whose guards go together

`constrain_guard` adds the guard of a rule to another one and gives up where
the two want different things. Called for rule after rule it may run into what
an earlier one has added, and the order of the rules and of the maps decides
where. Whether it does they do not decide: it goes well as long as no two of
the rules are in each other's way, which is what `is_mutex_with` looks at.

In a run the rules that are ready together have guards that go together, for
the memory agrees with all of them.
-/

namespace ReoRs

open PartialMap

namespace RbpaRule

/-! ## `constrain_guard` -/

/-- What comes of adding the map `m` to a guard. -/
inductive Constrained (guard m : LocId → Option Bool) : StatePred × Except LocId Unit → Prop where
  | ok {guard' : StatePred} (hcompatible : Compatible guard m)
      (hguard' : guard'.lookup = join guard m) : Constrained guard m (guard', .ok ())
  | error {guard' : StatePred} {id : LocId} {v w : Bool} (hv : guard id = some v)
      (hw : m id = some w) (hne : v ≠ w) : Constrained guard m (guard', .error id)

theorem lookup_orInsert_eq_join (guard : StatePred) (id : LocId) (b : Bool) (k : LocId) :
    (orInsert guard id b).lookup k = join guard.lookup (single id b) k := by
  rw [lookup_orInsert, join, single]
  by_cases hk : k = id
  · rw [if_pos hk, if_pos hk, hk]
    cases guard.lookup id <;> rfl
  · rw [if_neg hk, if_neg hk, Option.or_none]

theorem dlookup_cons_eq_join {id : LocId} {b : Bool} {l : List ((_ : LocId) × Bool)} :
    (fun k => ((⟨id, b⟩ : (_ : LocId) × Bool) :: l).dlookup k) =
      join (single id b) fun k => l.dlookup k := by
  funext k
  rw [join, single]
  by_cases hk : k = id
  · subst hk
    rw [if_pos rfl, Option.some_or]
    exact List.dlookup_cons_eq l k b
  · rw [if_neg hk, Option.none_or]
    exact List.dlookup_cons_ne l ⟨id, b⟩ hk

/-- The loop, for one more entry that the guard has nothing against. -/
theorem Constrained.cons {guard guard₁ m : LocId → Option Bool} {id : LocId} {b : Bool}
    {out : StatePred × Except LocId Unit} (h : Constrained guard₁ m out)
    (hadd : guard₁ = join guard (single id b)) (hfree : Compatible guard (single id b))
    (hfresh : m id = none) : Constrained guard (join (single id b) m) out := by
  have hapart : Compatible (single id b) m := by
    intro k c d hc hd
    rw [single] at hc
    split at hc
    · next hk => exact absurd hd (by rw [hk, hfresh]; exact Option.some_ne_none d ∘ Eq.symm)
    · cases hc
  subst hadd
  cases h with
  | ok hcompatible hguard' =>
      have hm := (hfree.join_iff.1 hcompatible).1
      refine .ok (hapart.join_iff.2 ⟨hfree.symm, hm.symm⟩).symm ?_
      rw [hguard']
      funext k
      exact Option.or_assoc
  | error hv hw hne =>
      rcases of_join_eq_some hv with hv | hv
      · exact .error hv (hapart.join_eq_some_right hw) hne
      · exact absurd (hapart _ _ _ hv hw) hne

theorem constrained_from : ∀ (l : List ((_ : LocId) × Bool)) (guard : StatePred), l.NodupKeys →
    Constrained guard.lookup (fun k => l.dlookup k) (constrainGuardFrom guard l)
  | [], guard, _ => by
      refine .ok (fun _ _ _ _ h => nomatch h) ?_
      funext k
      exact (Option.or_none).symm
  | ⟨id, b⟩ :: rest, guard, hl => by
      obtain ⟨hnot, hrest⟩ := List.nodupKeys_cons.1 hl
      have hadd := lookup_orInsert_eq_join guard id b
      have hat : (single id b : LocId → Option Bool) id = some b := if_pos rfl
      rw [constrainGuardFrom, dlookup_cons_eq_join]
      by_cases hfree : Compatible guard.lookup (single id b)
      · have hkept : (orInsert guard id b).lookup id = some b := by
          rw [hadd]
          exact hfree.join_eq_some_right hat
        rw [if_neg (not_not.2 hkept)]
        exact (constrained_from rest _ hrest).cons (funext hadd) hfree (List.dlookup_eq_none.2 hnot)
      · rw [compatible_single_iff] at hfree
        push Not at hfree
        obtain ⟨c, hc, hne⟩ := hfree
        have hkept : (orInsert guard id b).lookup id = some c := by
          rw [hadd]
          exact join_eq_some_left hc
        rw [if_pos (by rw [hkept]; simpa using hne)]
        exact .error hc (join_eq_some_left hat) hne

theorem ConstrainsGuard.constrained {r : RbpaRule} {guard : StatePred}
    {out : StatePred × Except LocId Unit} (h : r.ConstrainsGuard guard out) :
    Constrained guard.lookup r.guard.lookup out := by
  obtain ⟨t, rfl⟩ := h
  have hloop := constrained_from t.entries guard t.nodupKeys
  rwa [funext t.dlookup] at hloop

/-! ## `is_mutex_with` -/

theorem disagreeAt_eq_true_iff {a b : RbpaRule} {id : LocId} : a.disagreeAt b id = true ↔
    ∃ v w, a.guard.lookup id = some v ∧ b.guard.lookup id = some w ∧ v ≠ w := by
  rw [disagreeAt]
  cases a.guard.lookup id with
  | none => simp
  | some v => cases b.guard.lookup id <;> simp

theorem isMutexWith_eq_false_iff {a b : RbpaRule} :
    a.isMutexWith b = false ↔ Compatible a.guard.lookup b.guard.lookup := by
  rw [isMutexWith, List.any_eq_false]
  constructor
  · intro h id v w hv hw
    by_contra hne
    have hid : a.guard.lookup id ≠ none := Option.ne_none_iff_exists'.2 ⟨v, hv⟩
    exact h id (mem_guardIds.2 (.inl hid)) (disagreeAt_eq_true_iff.2 ⟨v, w, hv, hw, hne⟩)
  · intro h id _ hdis
    obtain ⟨v, w, hv, hw, hne⟩ := disagreeAt_eq_true_iff.1 hdis
    exact hne (h id v w hv hw)

/-- The loop ends early, but finds the same in any order. -/
theorem FindsMutex.eq {a b : RbpaRule} {found : Bool} (h : FindsMutex a b found) :
    found = a.isMutexWith b := by
  obtain ⟨t, u, rfl⟩ := h
  rw [isMutexWith, Bool.eq_iff_iff, List.any_eq_true, List.any_eq_true]
  refine exists_congr fun id => and_congr_left fun _ => ?_
  rw [chainedIds, guardIds, List.mem_eraseDups, List.mem_eraseDups]
  exact mem_chainedIds rfl rfl t u (.stored _) (.stored _) id

/-! ## Rule after rule -/

section ConstrainEach

variable {rules : List RbpaRule} {guard : StatePred} {out : StatePred × Except LocId Unit}

/-- What an agreeing end says. -/
theorem ConstrainEach.of_ok (h : ConstrainEach rules guard out) (hok : out.2 = .ok ()) :
    (∀ r ∈ rules, Compatible guard.lookup r.guard.lookup) ∧
      (rules.Pairwise fun a b => Compatible a.guard.lookup b.guard.lookup) ∧
      ∀ s, out.1.Agrees s ↔ guard.Agrees s ∧ ∀ r ∈ rules, r.guard.Agrees s := by
  induction h with
  | nil guard => simp
  | @cons r rules guard guard' out hr hrules ih =>
      obtain ⟨hall, hpairs, hagrees⟩ := ih hok
      cases hr.constrained with
      | ok hcompatible hguard' =>
          rw [hguard'] at hall
          refine ⟨List.forall_mem_cons.2 ⟨hcompatible, fun r' hr' => ?_⟩,
            List.pairwise_cons.2 ⟨fun r' hr' => ?_, hpairs⟩, fun s => ?_⟩
          · exact (hcompatible.join_iff.1 (hall r' hr')).1
          · exact (hcompatible.join_iff.1 (hall r' hr')).2
          · have hadded : guard'.Agrees s ↔ guard.Agrees s ∧ r.guard.Agrees s := by
              show Extends s guard'.lookup ↔ _
              rw [hguard']
              exact hcompatible.extends_join_iff
            rw [hagrees, hadded, List.forall_mem_cons, and_assoc]
  | stop hr => cases hok

/-- Where it gives up two of the guards disagree. -/
theorem ConstrainEach.of_error (h : ConstrainEach rules guard out) {id : LocId}
    (herror : out.2 = .error id) : ∃ v w, v ≠ w ∧
      (guard.lookup id = some v ∨ ∃ a ∈ rules, a.guard.lookup id = some v) ∧
      ∃ b ∈ rules, b.guard.lookup id = some w := by
  induction h with
  | nil guard => cases herror
  | @cons r rules guard guard' out hr hrules ih =>
      obtain ⟨v, w, hne, hv, b, hb, hw⟩ := ih herror
      refine ⟨v, w, hne, ?_, b, List.mem_cons_of_mem r hb, hw⟩
      cases hr.constrained with
      | ok hcompatible hguard' =>
          rcases hv with hv | ⟨a, ha, hv⟩
          · rw [show guard'.lookup id = _ from congrFun hguard' id] at hv
            exact (of_join_eq_some hv).imp_right fun hv => ⟨r, List.mem_cons_self, hv⟩
          · exact .inr ⟨a, List.mem_cons_of_mem r ha, hv⟩
  | @stop r rules guard guard' id' hr =>
      cases herror
      cases hr.constrained with
      | error hv hw hne => exact ⟨_, _, hne, .inl hv, r, List.mem_cons_self, hw⟩

/-- Guards that go together two by two all go together. -/
theorem forall_compatible_of_pairwise
    (hpairs : rules.Pairwise fun a b => Compatible a.guard.lookup b.guard.lookup) :
    ∀ a ∈ rules, ∀ b ∈ rules, Compatible a.guard.lookup b.guard.lookup := by
  intro a ha b hb
  exact List.Pairwise.forall_of_forall_of_flip
    (R := fun a b : RbpaRule => Compatible a.guard.lookup b.guard.lookup)
    (fun r _ => .refl _) hpairs (hpairs.imp fun hab => hab.symm) ha hb

/-- A guard and those of the rules, as maps. -/
def guardMaps (guard : StatePred) (rules : List RbpaRule) : Set (LocId → Option Bool) :=
  fun m => m = (fun k => guard.lookup k) ∨ ∃ r ∈ rules, m = fun k => r.guard.lookup k

theorem exists_agrees_iff :
    (∃ s, guard.Agrees s ∧ ∀ r ∈ rules, r.guard.Agrees s) ↔
      (∀ r ∈ rules, Compatible guard.lookup r.guard.lookup) ∧
        rules.Pairwise fun a b => Compatible a.guard.lookup b.guard.lookup := by
  constructor
  · rintro ⟨s, hs, hrules⟩
    have hextends : ∀ m ∈ guardMaps guard rules, Extends s m := by
      rintro m (rfl | ⟨r, hr, rfl⟩)
      · exact hs
      · exact hrules r hr
    have hall := (exists_extends_iff _).1 ⟨s, hextends⟩
    exact ⟨fun r hr => hall _ (.inl rfl) _ (.inr ⟨r, hr, rfl⟩),
      List.pairwise_of_forall_mem_list fun a ha b hb =>
        hall _ (.inr ⟨a, ha, rfl⟩) _ (.inr ⟨b, hb, rfl⟩)⟩
  · rintro ⟨hguard, hpairs⟩
    have hall : ∀ m ∈ guardMaps guard rules, ∀ n ∈ guardMaps guard rules, Compatible m n := by
      rintro m (rfl | ⟨a, ha, rfl⟩) n (rfl | ⟨b, hb, rfl⟩)
      · exact .refl _
      · exact hguard b hb
      · exact (hguard a ha).symm
      · exact forall_compatible_of_pairwise hpairs a ha b hb
    obtain ⟨s, hs⟩ := (exists_extends_iff _).2 hall
    exact ⟨s, hs _ (.inl rfl), fun r hr => hs _ (.inr ⟨r, hr, rfl⟩)⟩

theorem ConstrainEach.ok_iff (h : ConstrainEach rules guard out) : out.2 = .ok () ↔
    (∀ r ∈ rules, Compatible guard.lookup r.guard.lookup) ∧
      rules.Pairwise fun a b => Compatible a.guard.lookup b.guard.lookup := by
  refine ⟨fun hok => ⟨(h.of_ok hok).1, (h.of_ok hok).2.1⟩, fun ⟨hall, hpairs⟩ => ?_⟩
  cases hout : out.2 with
  | ok => rfl
  | error id =>
      obtain ⟨v, w, hne, hv, b, hb, hw⟩ := h.of_error hout
      rcases hv with hv | ⟨a, ha, hv⟩
      · exact absurd (hall b hb id v w hv hw) hne
      · exact absurd (forall_compatible_of_pairwise hpairs a ha b hb id v w hv hw) hne

end ConstrainEach

theorem not_findsMutex_iff {a b : RbpaRule} : (∀ found, FindsMutex a b found → found = false) ↔
    Compatible a.guard.lookup b.guard.lookup := by
  rw [← isMutexWith_eq_false_iff]
  exact ⟨fun hfound => hfound _ ⟨.stored _, .stored _, rfl⟩,
    fun hfalse found hfound => hfound.eq.trans hfalse⟩

/-- Rules constrain one guard, whatever the hash order, iff each goes with what
the guard was and no two of them are mutex, and so iff some state suits them
all. Then the guard holds of the states that suit them all. If not, the error
names a location that two of them disagree about. -/
theorem constrainEach_spec {rules : List RbpaRule} {guard : StatePred}
    {out : StatePred × Except LocId Unit} (h : ConstrainEach rules guard out) :
    (out.2 = .ok () ↔ (∀ r ∈ rules, Compatible guard.lookup r.guard.lookup) ∧
      rules.Pairwise fun a b => ∀ found, FindsMutex a b found → found = false) ∧
    (out.2 = .ok () ↔ ∃ s, guard.Agrees s ∧ ∀ r ∈ rules, r.guard.Agrees s) ∧
    (out.2 = .ok () → ∀ s, out.1.Agrees s ↔ guard.Agrees s ∧ ∀ r ∈ rules, r.guard.Agrees s) ∧
    ∀ id, out.2 = .error id → ∃ v w, v ≠ w ∧
      (guard.lookup id = some v ∨ ∃ a ∈ rules, a.guard.lookup id = some v) ∧
      ∃ b ∈ rules, b.guard.lookup id = some w := by
  simp only [not_findsMutex_iff]
  exact ⟨h.ok_iff, h.ok_iff.trans exists_agrees_iff.symm, fun hok => (h.of_ok hok).2.2,
    fun id => h.of_error⟩

/-- The rule that fills a cell and the one that finds it full. -/
theorem constrainEach_fills_finds : ∃ out, ConstrainEach [fills, finds] ∅ out ∧ ∃ id v w,
    out.2 = .error id ∧ v ≠ w ∧
      ((∅ : StatePred).lookup id = some v ∨ ∃ a ∈ [fills, finds], a.guard.lookup id = some v) ∧
      ∃ b ∈ [fills, finds], b.guard.lookup id = some w := by
  have heach : ConstrainEach [fills, finds] ∅
      ((finds.constrainGuard (fills.constrainGuard ∅).1).1, .error 0) :=
    .cons ⟨.stored _, rfl⟩ (.stop ⟨.stored _, rfl⟩)
  obtain ⟨v, w, hne, hv, hw⟩ := (constrainEach_spec heach).2.2.2 0 rfl
  exact ⟨_, heach, 0, v, w, rfl, hne, hv, hw⟩

/-! ## `has_effect` -/

theorem hasEffect_eq_true_iff {r : RbpaRule} :
    r.hasEffect = true ↔ ∃ k v, r.assign.lookup k = some v := by
  rw [hasEffect, Bool.not_eq_true', List.isEmpty_eq_false_iff_exists_mem]
  constructor
  · rintro ⟨e, he⟩
    exact ⟨e.1, e.2, AList.mem_lookup_iff.2 he⟩
  · rintro ⟨k, v, hv⟩
    exact ⟨⟨k, v⟩, AList.mem_lookup_iff.1 hv⟩

/-- A rule that assigns only what its guard has otherwise changes the memory
whenever it may, or never. -/
theorem hasEffect_iff {r : RbpaRule} {s : MemState}
    (hassign : ∀ k v, r.assign.lookup k = some v → ∃ w, r.guard.lookup k = some w ∧ w ≠ v)
    (hs : r.guard.Agrees s) : r.hasEffect = true ↔ StatePred.overwrite s r.assign ≠ s := by
  rw [hasEffect_eq_true_iff]
  constructor
  · rintro ⟨k, v, hv⟩ hsame
    obtain ⟨w, hw, hne⟩ := hassign k v hv
    have hcell := congrFun hsame k
    rw [StatePred.overwrite, hv, Option.getD_some, hs k w hw] at hcell
    exact hne hcell.symm
  · intro hchanged
    by_contra hnone
    refine hchanged ?_
    funext k
    rw [StatePred.overwrite]
    cases hv : r.assign.lookup k with
    | none => rfl
    | some v => exact absurd ⟨k, v, hv⟩ hnone

end RbpaRule

/-! ## Rules that are ready together -/

section Read

variable {portSet portIds : Finset LocId} {actions : List ActionDef}

theorem readRule_guard : (readRule portSet portIds actions).guard =
    (actions.foldl (collectAction portIds) ⟨none, ∅, ∅⟩).guard := rfl

/-- What is left of an assignment is what changes something. -/
theorem assign_readRule (hapart : actions.Pairwise fun a b => ∀ l, ¬ (a.mentions l ∧ b.mentions l))
    {l : LocId} {v : Bool} (hv : (readRule portSet portIds actions).assign.lookup l = some v) :
    ∃ w, (readRule portSet portIds actions).guard.lookup l = some w ∧ w ≠ v := by
  have hcoll : Collected portIds actions _ := collected_foldl hapart
  rw [show (readRule portSet portIds actions).assign.lookup l = _ from
    HashMap.lookup_retain _ _ _, Option.filter_eq_some_iff, bne_iff_ne] at hv
  obtain ⟨hassign, hguard⟩ : (actions.foldl (collectAction portIds) ⟨none, ∅, ∅⟩).assign.lookup l =
    some v ∧ (actions.foldl (collectAction portIds) ⟨none, ∅, ∅⟩).guard.lookup l ≠ some v := hv
  rw [hcoll.assign l] at hassign
  rw [hcoll.guard l] at hguard
  rw [readRule_guard, hcoll.guard l]
  by_cases hport : l ∈ portIds
  · rw [if_pos hport] at hassign
    cases hassign
  · rw [if_neg hport] at hassign hguard ⊢
    by_cases hput : ∃ a ∈ actions, l = a.putter
    · rw [if_pos hput] at hguard ⊢
      exact ⟨true, rfl, fun heq => hguard (congrArg some heq)⟩
    · rw [if_neg hput] at hassign hguard ⊢
      by_cases hget : ∃ a ∈ actions, l ∈ a.getters
      · rw [if_pos hget] at hguard ⊢
        exact ⟨false, rfl, fun heq => hguard (congrArg some heq)⟩
      · rw [if_neg hget] at hassign
        cases hassign

/-- A rule may fire iff its locations are ready and the memory agrees with the
guard that was read off it. -/
theorem mayFire_iff_agrees {locKinds : HashMap LocId LocKind} {typeAt : LocId → Option TypeId}
    {memory ready : BitSet} (hwf : WellFormedRule locKinds typeAt actions)
    (hcell : ∀ l, involved actions l → (isMemLoc locKinds l = true ↔ l ∉ portIds)) :
    MayFire locKinds actions memory ready ↔ (∀ l, involved actions l → ready.test l = true) ∧
      (readRule portSet portIds actions).guard.Agrees memory.test := by
  have hcoll : Collected portIds actions _ := collected_foldl hwf.apart
  rw [readRule_guard, hcoll.agrees_iff]
  constructor
  · intro hmay
    refine ⟨fun l hl => (hmay l hl).ready, ?_, ?_⟩
    · rintro l hport ⟨a, ha, hla⟩
      have hin : involved actions l := ⟨a, ha, .inl hla⟩
      exact (hmay l hin).full ((hcell l hin).2 hport) ⟨a, ha, hla⟩
    · rintro l hport ⟨a, ha, hla⟩ hput
      have hin : involved actions l := ⟨a, ha, .inr hla⟩
      exact (hmay l hin).empty ((hcell l hin).2 hport) ⟨a, ha, hla, fun heq => hput ⟨a, ha, heq⟩⟩
  · rintro ⟨hready, hfull, hempty⟩ l hl
    refine ⟨hready l hl, fun hmem hput => hfull l ((hcell l hl).1 hmem) hput, ?_⟩
    rintro hmem ⟨a, ha, hla, hne⟩
    refine hempty l ((hcell l hl).1 hmem) ⟨a, ha, hla⟩ ?_
    rintro ⟨b, hb, hlb⟩
    cases hwf.eq_of_mentions ha hb (.inr hla) (.inl hlb)
    exact hne hlb

end Read

section Runs

variable {D : Type} {P : Proto D} {b b' : Build D} {s : ProtoAll D} {portSet portIds : Finset LocId}
  {rules : List RbpaRule} {t : Coordination D}

/-- A rule of the automaton is the one that was read off a rule of the
definition, up to its representation. -/
def ReadOff (portSet portIds : Finset LocId) (ruleDefs : List RuleDef) (i : RuleId)
    (ρ : RbpaRule) : Prop :=
  ∃ r, ruleDefs[i]? = some r ∧ ρ.maps = (readRule portSet portIds r.actions).maps

/-- `is_ready` of a rule, given its id. -/
def ReadyRule (s : ProtoAll D) (i : RuleId) : Prop :=
  ∃ run, s.r.rules[i]? = some run ∧ isReady s.w.memoryBits s.w.active.ready run = true

/-- What a rule of the automaton says about `is_ready` and about firing. -/
structure Mirrored (s : ProtoAll D) (r : RuleDef) (run : RunRule D) (ρ : RbpaRule) : Prop where
  ready : isReady s.w.memoryBits s.w.active.ready run = true ↔
    (∀ l, involved r.actions l → s.w.active.ready.test l = true) ∧
      ρ.guard.Agrees s.w.memoryBits.test
  effect : isReady s.w.memoryBits s.w.active.ready run = true →
    (ρ.hasEffect = true ↔ (assignMemoryBits s.w.memoryBits run).test ≠ s.w.memoryBits.test)

theorem exists_mem_dedup_fold : ∀ (all kept : List RbpaRule), ∀ r ∈ kept ++ all,
    ∃ ρ ∈ all.foldl (fun kept r => if kept.any (·.same r) then kept else kept ++ [r]) kept,
      ρ.maps = r.maps
  | [], kept, r, hr => ⟨r, by simpa using hr, rfl⟩
  | x :: all, kept, r, hr => by
      rw [List.foldl_cons]
      split
      · next hany =>
          rcases List.mem_append.1 hr with hr | hr
          · exact exists_mem_dedup_fold all kept r (List.mem_append_left all hr)
          · rcases List.mem_cons.1 hr with rfl | hr
            · obtain ⟨y, hy, hsame⟩ := List.any_eq_true.1 hany
              obtain ⟨ρ, hρ, hmaps⟩ :=
                exists_mem_dedup_fold all kept y (List.mem_append_left all hy)
              exact ⟨ρ, hρ, hmaps.trans (RbpaRule.same_eq_true_iff.1 hsame)⟩
            · exact exists_mem_dedup_fold all kept r (List.mem_append_right kept hr)
      · exact exists_mem_dedup_fold all (kept ++ [x]) r (by simpa using hr)

/-- Every rule of the definition has a rule in the automaton. -/
theorem exists_readOff {ruleDefs : List RuleDef}
    (hrules : newRbpa portSet portIds ruleDefs = .ok rules) {i : RuleId} {r : RuleDef}
    (hr : ruleDefs[i]? = some r) : ∃ ρ ∈ rules, ReadOff portSet portIds ruleDefs i ρ := by
  have hone := le_one_of_newRbpaFrom ruleDefs 0 [] hrules
  cases (newRbpaFrom_ok ruleDefs 0 [] hone).symm.trans hrules
  obtain ⟨ρ, hρ, hmaps⟩ := exists_mem_dedup_fold
    (ruleDefs.map fun r => readRule portSet portIds r.actions) []
    (readRule portSet portIds r.actions) (List.mem_map_of_mem (List.mem_of_getElem? hr))
  exact ⟨ρ, hρ, r, hr, hmaps⟩

theorem mirrored_of_maps (hfin : (finish P).run b = .ok s b')
    (hpos : 1 ≤ maxLocId P.typelessProtoDef) (hle : maxLocId P.typelessProtoDef ≤ 63)
    (hids : ∀ l, l ∈ portIds ↔ isPortLoc P.typelessProtoDef.locKinds l = true)
    {h : List (Coordination.Act D)} (hrun : Run.Reach Coordination.Step (.start s) h t)
    (hlock : t.locked = true) {i : RuleId} {r : RuleDef} {run : RunRule D}
    (hr : P.typelessProtoDef.behaviour.rules[i]? = some r)
    (hrule : t.proto.r.rules[i]? = some run) {ρ : RbpaRule}
    (hmaps : ρ.maps = (readRule portSet portIds r.actions).maps) :
    Mirrored t.proto r run ρ := by
  obtain ⟨infos, hs⟩ := (built_of_finish hfin).standing
  have ht := Coordination.reach_standing hs hrun
  have hready := Coordination.ready_ne_nil_of_locked hs hrun hlock
  have hwf := ht.wellFormed r (List.mem_of_getElem? hr)
  obtain ⟨-, hguard, hassign⟩ := RbpaRule.maps_eq_iff.1 hmaps
  have hagrees : ∀ m, ρ.guard.Agrees m ↔ (readRule portSet portIds r.actions).guard.Agrees m :=
    fun m => forall_congr' fun k => by rw [hguard]
  constructor
  · rw [ht.isReady_iff_mayFire hpos hle hready hr hrule, hagrees]
    exact mayFire_iff_agrees hwf fun l hl => isMemLoc_iff_not_mem hwf hids hl
  · intro hmet
    obtain ⟨hs, htakes⟩ :=
      takes_of_isReady portSet hfin hpos hle hids hrun hready hr hrule hmet
    have hsame : StatePred.overwrite t.proto.w.memoryBits.test
        (readRule portSet portIds r.actions).assign =
        StatePred.overwrite t.proto.w.memoryBits.test ρ.assign := by
      funext k
      rw [StatePred.overwrite, StatePred.overwrite, hassign]
    rw [htakes, hsame]
    refine RbpaRule.hasEffect_iff (fun k v hv => ?_) ((hagrees _).2 hs)
    rw [hassign] at hv
    rw [hguard]
    exact assign_readRule hwf.apart hv

/-- A pass finds a rule ready iff its locations are and the memory agrees with
the guard of the automaton's rule, and that rule has an effect iff firing
changes the memory. Of the rules found ready no two are mutex, and their
guards, gathered in any order, agree with the memory. -/
theorem ready_rules_agree (hfin : (finish P).run b = .ok s b')
    (hpos : 1 ≤ maxLocId P.typelessProtoDef) (hle : maxLocId P.typelessProtoDef ≤ 63)
    (hids : ∀ l, l ∈ portIds ↔ isPortLoc P.typelessProtoDef.locKinds l = true)
    (hrules : newRbpa portSet portIds P.typelessProtoDef.behaviour.rules = .ok rules)
    {h : List (Coordination.Act D)} (hrun : Run.Reach Coordination.Step (.start s) h t)
    (hlock : t.locked = true) :
    (∀ i r run, P.typelessProtoDef.behaviour.rules[i]? = some r →
      t.proto.r.rules[i]? = some run →
      ∃ ρ ∈ rules, ReadOff portSet portIds P.typelessProtoDef.behaviour.rules i ρ ∧
        Mirrored t.proto r run ρ) ∧
    ∀ ρs : List RbpaRule,
      (∀ ρ ∈ ρs, ∃ i, ReadyRule t.proto i ∧
        ReadOff portSet portIds P.typelessProtoDef.behaviour.rules i ρ) →
      (ρs.Pairwise fun ρ σ => ∀ found, RbpaRule.FindsMutex ρ σ found → found = false) ∧
        ∀ out, RbpaRule.ConstrainEach ρs ∅ out →
          out.2 = .ok () ∧ out.1.Agrees t.proto.w.memoryBits.test := by
  constructor
  · intro i r run hr hrule
    obtain ⟨ρ, hρ, hread⟩ := exists_readOff hrules hr
    refine ⟨ρ, hρ, hread, ?_⟩
    obtain ⟨r', hr', hmaps⟩ := hread
    cases hr.symm.trans hr'
    exact mirrored_of_maps hfin hpos hle hids hrun hlock hr hrule hmaps
  · intro ρs hρs
    have hall : ∀ ρ ∈ ρs, ρ.guard.Agrees t.proto.w.memoryBits.test := by
      intro ρ hρ
      obtain ⟨i, ⟨run, hrule, hmet⟩, r, hr, hmaps⟩ := hρs ρ hρ
      exact ((mirrored_of_maps hfin hpos hle hids hrun hlock hr hrule hmaps).ready.1 hmet).2
    have hempty : (∅ : StatePred).Agrees t.proto.w.memoryBits.test := fun k v hv => by cases hv
    have hpairs := (RbpaRule.exists_agrees_iff.1 ⟨_, hempty, hall⟩).2
    refine ⟨hpairs.imp fun hcompatible => RbpaRule.not_findsMutex_iff.2 hcompatible,
      fun out hout => ?_⟩
    have hok := hout.ok_iff.2 (RbpaRule.exists_agrees_iff.1 ⟨_, hempty, hall⟩)
    exact ⟨hok, ((hout.of_ok hok).2.2 _).2 ⟨hempty, hall⟩⟩

end Runs

/-- The alternator as a put at its first putter looks for a rule. -/
theorem ready_rules_agree_alternator : ∃ s b h t rules run ρ,
    (finish (alternatorProto cellInfo)).run (.new .empty) = .ok s b ∧
    newRbpa {0} {0, 1, 2} alternatorDef.behaviour.rules = .ok rules ∧
    Run.Reach Coordination.Step (.start s) h t ∧ t.locked = true ∧ ρ ∈ rules ∧
    ReadOff {0} {0, 1, 2} alternatorDef.behaviour.rules 1 ρ ∧
    Mirrored t.proto ⟨.true, [⟨3, [2]⟩]⟩ run ρ := by
  obtain ⟨s, b, hfin⟩ := finish_alternator cellInfo .empty
  obtain ⟨infos, hs⟩ := (built_of_finish hfin).standing
  obtain ⟨t, hrun, hlock, -⟩ := hs.reach_put (p := 0) (.data 7)
    (by decide : alternatorDef.locKinds.lookup 0 = some .portPutter)
  obtain ⟨rules, hrules⟩ : ∃ rules,
      newRbpa {0} {0, 1, 2} alternatorDef.behaviour.rules = .ok rules := ⟨_, rfl⟩
  obtain ⟨run, hrule⟩ : ∃ run, t.proto.r.rules[1]? = some run :=
    ⟨_, List.getElem?_eq_getElem
      ((Coordination.reach_standing hs hrun).rules.length_eq ▸ (by decide : 1 < 2))⟩
  obtain ⟨ρ, hρ, hread, hmirrored⟩ := (ready_rules_agree hfin (by decide) (by decide)
    mem_ports_alternator hrules hrun hlock).1 1 _ run rfl hrule
  exact ⟨s, b, _, t, rules, run, ρ, hfin, hrules, hrun, hlock, hρ, hread, hmirrored⟩

end ReoRs
