import ReoRs.Lib.Hiding
import ReoRs.Proofs.RbpaRules
import Mathlib.Data.List.Perm.Basic

/-!
# Taking out the silent rules

`Rbpa::normalize` removes one silent rule after another, and for each puts in
its compositions with the rules that are left. A rule is idempotent, so this
would be an elimination as in `Lib/Hiding.lean`, and an observer would not
notice, if a composition did what the two rules do one after the other and a
fusion did what either of the two does.

They do if `ComposeKeeps` and `FuseKeeps` hold of what is composed and fused,
round by round. `LoopKeeps` says that much of a run of the loop, and under it
nothing changes. The smallest run it fails in is at the end.
-/

namespace ReoRs

open RbpaRule Rbpa Hiding

namespace Rbpa

/-- What the rules of a list do under one label. -/
def stepOf (rules : List RbpaRule) : Option LocId → MemState → MemState → Prop :=
  fun l s s' => ∃ r ∈ rules, r.port = l ∧ r.Takes s s'

/-- Composing `r₁` with the rule at `rid2` loses nothing, and neither does
fusing the result with the rules there are. -/
def RoundKeeps (r₁ : RbpaRule) (st : List RbpaRule × List RbpaRule) (rid2 : Nat) : Prop :=
  ∀ r₂ ∈ st.1[rid2]?, ∀ c ∈ r₁.compose r₂,
    ComposeKeeps r₁ r₂ ∧ ∀ r₃ ∈ st.1, ∀ f ∈ r₃.fuse c, FuseKeeps r₃ c

instance (r₁ : RbpaRule) (st : List RbpaRule × List RbpaRule) (rid2 : Nat) :
    Decidable (RoundKeeps r₁ st rid2) :=
  inferInstanceAs (Decidable (∀ r₂ ∈ st.1[rid2]?, ∀ c ∈ r₁.compose r₂,
    ComposeKeeps r₁ r₂ ∧ ∀ r₃ ∈ st.1, ∀ f ∈ r₃.fuse c, FuseKeeps r₃ c))

/-- No round of the inner loop loses anything. -/
def EliminationKeeps (r₁ : RbpaRule) (rest : List RbpaRule) : Prop :=
  ∀ n < rest.length, RoundKeeps r₁ (rounds r₁ rest n) n

instance (r₁ : RbpaRule) (rest : List RbpaRule) : Decidable (EliminationKeeps r₁ rest) :=
  inferInstanceAs (Decidable (∀ n < rest.length, RoundKeeps r₁ (rounds r₁ rest n) n))

/-- No round of the outer loop does, of the first `fuel`. -/
def LoopKeeps : (fuel : Nat) → List RbpaRule → Prop
  | 0, _ => True
  | fuel + 1, rules =>
      ∀ taken ∈ takeSilent rules,
        EliminationKeeps taken.1 taken.2 ∧ LoopKeeps fuel (eliminate taken.1 taken.2)

instance decidableLoopKeeps : ∀ fuel rules, Decidable (LoopKeeps fuel rules)
  | 0, _ => .isTrue trivial
  | fuel + 1, rules =>
      have := decidableLoopKeeps fuel
      inferInstanceAs (Decidable (∀ taken ∈ takeSilent rules,
        EliminationKeeps taken.1 taken.2 ∧ LoopKeeps fuel (eliminate taken.1 taken.2)))

section Steps

variable {rules rest : List RbpaRule} {l : Option LocId} {s s' : MemState}

theorem stepOf_append :
    stepOf (rules ++ rest) l s s' ↔ stepOf rules l s s' ∨ stepOf rest l s s' := by
  constructor
  · intro ⟨r, hr, hl, htakes⟩
    rcases List.mem_append.1 hr with hr | hr
    · exact .inl ⟨r, hr, hl, htakes⟩
    · exact .inr ⟨r, hr, hl, htakes⟩
  · intro h
    rcases h with ⟨r, hr, hl, htakes⟩ | ⟨r, hr, hl, htakes⟩
    · exact ⟨r, List.mem_append_left _ hr, hl, htakes⟩
    · exact ⟨r, List.mem_append_right _ hr, hl, htakes⟩

theorem stepOf_perm (h : rules.Perm rest) : stepOf rules l s s' ↔ stepOf rest l s s' := by
  constructor
  · intro ⟨r, hr, hl, htakes⟩
    exact ⟨r, h.mem_iff.1 hr, hl, htakes⟩
  · intro ⟨r, hr, hl, htakes⟩
    exact ⟨r, h.mem_iff.2 hr, hl, htakes⟩

theorem stepOf_cons {r : RbpaRule} :
    stepOf (r :: rest) l s s' ↔ (r.port = l ∧ r.Takes s s') ∨ stepOf rest l s s' := by
  constructor
  · intro ⟨r', hr', hl, htakes⟩
    rcases List.mem_cons.1 hr' with rfl | hr'
    · exact .inl ⟨hl, htakes⟩
    · exact .inr ⟨r', hr', hl, htakes⟩
  · intro h
    rcases h with ⟨hl, htakes⟩ | ⟨r', hr', hl, htakes⟩
    · exact ⟨r, List.mem_cons_self, hl, htakes⟩
    · exact ⟨r', List.mem_cons_of_mem r hr', hl, htakes⟩

end Steps

/-! ## The rule that is taken out -/

theorem perm_swapRemove {rules : List RbpaRule} {i : Nat} (hi : i < rules.length) :
    rules.Perm (rules[i] :: swapRemove rules i) := by
  rcases List.eq_nil_or_concat' rules with rfl | ⟨init, last, rfl⟩
  · cases hi
  · have hlast : (init ++ [last]).getLast? = some last := by
      rw [List.getLast?_concat]
    have hperm : (init ++ [last]).Perm (last :: init) := List.perm_append_singleton last init
    rw [swapRemove, hlast]
    by_cases hinit : i < init.length
    · have hset : ((init ++ [last]).set i last).dropLast = init.set i last := by
        rw [List.set_append_left _ _ hinit, List.dropLast_concat]
      simp only [hset, List.getElem_append_left hinit]
      refine hperm.trans ?_
      have hout := (List.getElem_cons_eraseIdx_perm hinit).symm
      have hin := (List.set_perm_cons_eraseIdx hinit last).symm
      exact (hout.cons last).trans ((List.Perm.swap _ _ _).trans (hin.cons _))
    · have hi' : i = init.length := by
        rw [List.length_append, List.length_singleton] at hi
        omega
      subst hi'
      have hset : ((init ++ [last]).set init.length last).dropLast = init := by
        rw [List.set_append_right _ _ (Nat.le_refl _), Nat.sub_self, List.set_cons_zero,
          List.dropLast_concat]
      simpa only [hset, List.getElem_concat_length] using hperm

theorem perm_takeSilent {rules rest : List RbpaRule} {r₁ : RbpaRule}
    (h : takeSilent rules = some (r₁, rest)) : r₁.port = none ∧ rules.Perm (r₁ :: rest) := by
  rw [takeSilent] at h
  split at h
  · next i hi =>
      obtain ⟨hlt, hnone, -⟩ := List.findIdx?_eq_some_iff_getElem.1 hi
      rw [List.getElem?_eq_getElem hlt, Option.map_some] at h
      cases h
      exact ⟨Option.isNone_iff_eq_none.1 hnone, perm_swapRemove hlt⟩
  · cases h

theorem port_of_takeSilent_none {rules : List RbpaRule} (h : takeSilent rules = none) :
    ∀ r ∈ rules, r.port ≠ none := by
  intro r hr hport
  rw [takeSilent] at h
  split at h
  · next i hi =>
      obtain ⟨hlt, -⟩ := List.findIdx?_eq_some_iff_getElem.1 hi
      rw [List.getElem?_eq_getElem hlt] at h
      cases h
  · next hi =>
      have := List.findIdx?_eq_none_iff.1 hi r hr
      rw [hport] at this
      cases this

/-- Taking a silent rule out of the list takes its steps out of the relation. -/
theorem stepOf_takeSilent {rules rest : List RbpaRule} {r₁ : RbpaRule}
    (h : takeSilent rules = some (r₁, rest)) (l : Option LocId) (s s' : MemState) :
    stepOf rules l s s' ↔ Hiding.Joined r₁.Takes (stepOf rest) l s s' := by
  obtain ⟨hport, hperm⟩ := perm_takeSilent h
  rw [stepOf_perm hperm, stepOf_cons, hport, Hiding.Joined, eq_comm]

/-! ## The inner loop -/

/-- A rule in the place of another one: it has the same label, and does at
least as much. -/
structure Grown (old new : RbpaRule) : Prop where
  port : new.port = old.port
  takes : ∀ s s', old.Takes s s' → new.Takes s s'

theorem Grown.refl (r : RbpaRule) : Grown r r := ⟨rfl, fun _ _ h => h⟩

theorem Grown.trans {a b c : RbpaRule} (hab : Grown a b) (hbc : Grown b c) : Grown a c :=
  ⟨hbc.port.trans hab.port, fun s s' h => hbc.takes s s' (hab.takes s s' h)⟩

section Absorb

variable {r₃ c : RbpaRule} (hkeeps : ∀ f ∈ r₃.fuse c, FuseKeeps r₃ c)
include hkeeps

/-- A rule after the attempt to fuse it with a composed one. -/
theorem grown_fuse : Grown r₃ ((r₃.fuse c).getD r₃) := by
  cases hf : r₃.fuse c with
  | none => exact .refl r₃
  | some f =>
      have hexact := (fuse_exact_iff hf).2 (hkeeps f hf)
      exact ⟨(port_of_fuse hf).1, fun s s' h => (hexact s s').2 (.inl h)⟩

theorem takes_of_fuse {s s' : MemState} (h : ((r₃.fuse c).getD r₃).Takes s s') :
    r₃.Takes s s' ∨ (r₃.port = c.port ∧ c.Takes s s') := by
  cases hf : r₃.fuse c with
  | none =>
      rw [hf] at h
      exact .inl h
  | some f =>
      rw [hf] at h
      have hexact := (fuse_exact_iff hf).2 (hkeeps f hf)
      exact ((hexact s s').1 h).imp_right fun hc => ⟨(port_of_fuse hf).2, hc⟩

end Absorb

/-- What holds after `n` rounds of the inner loop. -/
structure Rounds (r₁ : RbpaRule) (rest : List RbpaRule) (n : Nat)
    (st : List RbpaRule × List RbpaRule) : Prop where
  grown : ∀ (j : Nat) (r : RbpaRule), rest[j]? = some r → ∃ r', st.1[j]? = some r' ∧ Grown r r'
  sound : ∀ l s s', stepOf (st.1 ++ st.2) l s s' → Eliminated r₁.Takes (stepOf rest) l s s'
  complete : ∀ j < n, ∀ r, rest[j]? = some r → ∀ s m s', r₁.Takes s m → r.Takes m s' →
    stepOf (st.1 ++ st.2) r.port s s'

theorem rounds_start (r₁ : RbpaRule) (rest : List RbpaRule) : Rounds r₁ rest 0 (rest, []) where
  grown := fun j r hr => ⟨r, hr, .refl r⟩
  sound := fun l s s' h => .inl (by rwa [List.append_nil] at h)
  complete := fun j hj => absurd hj (Nat.not_lt_zero j)

/-- The rules a composition is put among. -/
def putIn (c : RbpaRule) (st : List RbpaRule × List RbpaRule) :
    List RbpaRule × List RbpaRule :=
  (st.1.map fun r₃ => (r₃.fuse c).getD r₃,
    if st.1.any fun r₃ => (r₃.fuse c).isSome then st.2 else st.2 ++ [c])

theorem composeWith_eq_putIn {r₁ r₂ c : RbpaRule} {st : List RbpaRule × List RbpaRule}
    {rid2 : Nat} (hr₂ : st.1[rid2]? = some r₂) (hc : r₁.compose r₂ = some c) :
    composeWith r₁ st rid2 = putIn c st := by
  rw [composeWith, hr₂, Option.bind_some, hc, putIn]

section PutIn

variable {c : RbpaRule} {st : List RbpaRule × List RbpaRule}
  (hkeeps : ∀ r₃ ∈ st.1, ∀ f ∈ r₃.fuse c, FuseKeeps r₃ c)
include hkeeps

/-- Nothing gets in but the composition. -/
theorem stepOf_of_putIn {l : Option LocId} {s s' : MemState}
    (h : stepOf ((putIn c st).1 ++ (putIn c st).2) l s s') :
    stepOf (st.1 ++ st.2) l s s' ∨ (c.port = l ∧ c.Takes s s') := by
  rw [stepOf_append] at h ⊢
  rcases h with ⟨r, hr, hl, htakes⟩ | ⟨r, hr, hl, htakes⟩
  · obtain ⟨r₃, hr₃, rfl⟩ := List.mem_map.1 hr
    rw [(grown_fuse (hkeeps r₃ hr₃)).port] at hl
    rcases takes_of_fuse (hkeeps r₃ hr₃) htakes with htakes | ⟨hport, hc⟩
    · exact .inl (.inl ⟨r₃, hr₃, hl, htakes⟩)
    · exact .inr ⟨hport.symm.trans hl, hc⟩
  · rw [putIn] at hr
    simp only at hr
    split at hr
    · exact .inl (.inr ⟨r, hr, hl, htakes⟩)
    · rcases List.mem_append.1 hr with hr | hr
      · exact .inl (.inr ⟨r, hr, hl, htakes⟩)
      · rw [List.mem_singleton.1 hr] at hl htakes
        exact .inr ⟨hl, htakes⟩

/-- What was there stays, perhaps as part of a fused rule. -/
theorem putIn_of_stepOf {l : Option LocId} {s s' : MemState} (h : stepOf (st.1 ++ st.2) l s s') :
    stepOf ((putIn c st).1 ++ (putIn c st).2) l s s' := by
  rw [stepOf_append] at h ⊢
  rcases h with ⟨r, hr, hl, htakes⟩ | ⟨r, hr, hl, htakes⟩
  · have hgrown := grown_fuse (hkeeps r hr)
    exact .inl ⟨_, List.mem_map.2 ⟨r, hr, rfl⟩, hgrown.port.trans hl, hgrown.takes s s' htakes⟩
  · refine .inr ⟨r, ?_, hl, htakes⟩
    rw [putIn]
    simp only
    split
    · exact hr
    · exact List.mem_append_left _ hr

/-- The composition gets in, by itself or in a rule it fused with. -/
theorem putIn_composed {s s' : MemState} (h : c.Takes s s') :
    stepOf ((putIn c st).1 ++ (putIn c st).2) c.port s s' := by
  rw [stepOf_append]
  by_cases hany : (st.1.any fun r₃ => (r₃.fuse c).isSome) = true
  · obtain ⟨r₃, hr₃, hsome⟩ := List.any_eq_true.1 hany
    obtain ⟨f, hf⟩ := Option.isSome_iff_exists.1 hsome
    have hexact := (fuse_exact_iff hf).2 (hkeeps r₃ hr₃ f hf)
    refine .inl ⟨f, List.mem_map.2 ⟨r₃, hr₃, by rw [hf, Option.getD_some]⟩, ?_,
      (hexact s s').2 (.inr h)⟩
    exact (port_of_fuse hf).1.trans (port_of_fuse hf).2
  · refine .inr ⟨c, ?_, rfl, h⟩
    rw [putIn, if_neg hany]
    exact List.mem_append_right _ (List.mem_singleton_self c)

end PutIn

/-- One round. The rule composed is the one now at the index, which does what
the one first there did, and perhaps more. -/
theorem Rounds.step {r₁ : RbpaRule} {rest : List RbpaRule} {n : Nat}
    {st : List RbpaRule × List RbpaRule} (h : Rounds r₁ rest n st) (hn : n < rest.length)
    (hkeeps : RoundKeeps r₁ st n) : Rounds r₁ rest (n + 1) (composeWith r₁ st n) := by
  obtain ⟨r₂, hr₂, hgrown⟩ := h.grown n rest[n] (List.getElem?_eq_getElem hn)
  have hatN : ∀ r, rest[n]? = some r → rest[n] = r := by
    intro r hr
    rw [List.getElem?_eq_getElem hn] at hr
    exact Option.some.inj hr
  cases hcomp : r₁.compose r₂ with
  | none =>
      have hsame : composeWith r₁ st n = st := by
        rw [composeWith, hr₂, Option.bind_some, hcomp]
      rw [hsame]
      refine ⟨h.grown, h.sound, fun j hj r hr s m s' hsm hms' => ?_⟩
      rcases Nat.lt_succ_iff_lt_or_eq.1 hj with hj | rfl
      · exact h.complete j hj r hr s m s' hsm hms'
      · rw [← hatN r hr] at hms'
        exact (not_takes_of_compose_none hcomp hsm (hgrown.takes m s' hms')).elim
  | some c =>
      obtain ⟨hcompose, hfuse⟩ := hkeeps r₂ hr₂ c hcomp
      have hexact := (compose_exact_iff hcomp).2 hcompose
      have hport := port_of_compose hcomp
      rw [composeWith_eq_putIn hr₂ hcomp]
      refine ⟨fun j r hr => ?_, fun l s s' hstep => ?_, fun j hj r hr s m s' hsm hms' => ?_⟩
      · obtain ⟨r', hr', hgrown'⟩ := h.grown j r hr
        refine ⟨_, ?_, hgrown'.trans (grown_fuse (hfuse r' (List.mem_of_getElem? hr')))⟩
        rw [putIn, List.getElem?_map, hr', Option.map_some]
      · rcases stepOf_of_putIn hfuse hstep with hold | ⟨hl, hc⟩
        · exact h.sound l s s' hold
        · obtain ⟨m, hsm, hms'⟩ := (hexact s s').1 hc
          refine .after (takes_trans r₁) hsm (h.sound l m s' ?_)
          exact ⟨r₂, List.mem_append_left _ (List.mem_of_getElem? hr₂), hport.symm.trans hl, hms'⟩
      · rcases Nat.lt_succ_iff_lt_or_eq.1 hj with hj | rfl
        · exact putIn_of_stepOf hfuse (h.complete j hj r hr s m s' hsm hms')
        · have hc := (hexact s s').2 ⟨m, hsm, hgrown.takes m s' (by rwa [hatN r hr])⟩
          rw [← hatN r hr, ← hgrown.port, ← hport]
          exact putIn_composed hfuse hc

theorem rounds_succ (r₁ : RbpaRule) (rest : List RbpaRule) (n : Nat) :
    rounds r₁ rest (n + 1) = composeWith r₁ (rounds r₁ rest n) n := by
  rw [rounds, List.range_succ, List.foldl_append, List.foldl_cons, List.foldl_nil, rounds]

theorem rounds_run {r₁ : RbpaRule} {rest : List RbpaRule} (hkeeps : EliminationKeeps r₁ rest) :
    ∀ n, n ≤ rest.length → Rounds r₁ rest n (rounds r₁ rest n) := by
  intro n
  induction n with
  | zero =>
      intro _
      exact rounds_start r₁ rest
  | succ n ih =>
      intro hn
      rw [rounds_succ]
      exact (ih (Nat.le_of_succ_le hn)).step hn (hkeeps n hn)

/-- A round of the outer loop is an elimination. -/
theorem stepOf_eliminate {r₁ : RbpaRule} {rest : List RbpaRule}
    (hkeeps : EliminationKeeps r₁ rest) (l : Option LocId) (s s' : MemState) :
    stepOf (eliminate r₁ rest) l s s' ↔ Eliminated r₁.Takes (stepOf rest) l s s' := by
  have h := rounds_run hkeeps rest.length (Nat.le_refl _)
  refine ⟨h.sound l s s', fun hstep => ?_⟩
  rcases hstep with ⟨r, hr, hl, htakes⟩ | ⟨m, hsm, r, hr, rfl, hms'⟩
  · obtain ⟨j, hj⟩ := List.mem_iff_getElem?.1 hr
    obtain ⟨r', hr', hgrown⟩ := h.grown j r hj
    rw [eliminate, stepOf_append]
    exact .inl ⟨r', List.mem_of_getElem? hr', hgrown.port.trans hl, hgrown.takes s s' htakes⟩
  · obtain ⟨j, hj⟩ := List.mem_iff_getElem?.1 hr
    have hlt : j < rest.length := by
      by_contra hge
      rw [List.getElem?_eq_none (Nat.not_lt.1 hge)] at hj
      cases hj
    exact h.complete j hlt r hj s m s' hsm hms'

/-! ## The outer loop -/

theorem eliminateAll_hides : ∀ {fuel : Nat} {rules result : List RbpaRule},
    eliminateAll fuel rules = some result →
      takeSilent result = none ∧ (LoopKeeps fuel rules → ∀ p s s',
        Weak (stepOf rules) p s s' ↔ Weak (stepOf result) p s s') := by
  intro fuel
  induction fuel with
  | zero =>
      intro rules result h
      cases h
  | succ fuel ih =>
      intro rules result h
      rw [eliminateAll] at h
      cases htake : takeSilent rules with
      | none =>
          rw [htake] at h
          cases h
          exact ⟨htake, fun _ p s s' => Iff.rfl⟩
      | some taken =>
          obtain ⟨r₁, rest⟩ := taken
          rw [htake] at h
          obtain ⟨hnone, hsame⟩ := ih h
          refine ⟨hnone, fun hkeeps p s s' => ?_⟩
          obtain ⟨hround, hloop⟩ := hkeeps ⟨r₁, rest⟩ htake
          calc Weak (stepOf rules) p s s'
              ↔ Weak (Hiding.Joined r₁.Takes (stepOf rest)) p s s' :=
                weak_congr (stepOf_takeSilent htake)
            _ ↔ Weak (Eliminated r₁.Takes (stepOf rest)) p s s' := weak_eliminated (takes_trans r₁)
            _ ↔ Weak (stepOf (eliminate r₁ rest)) p s s' :=
                (weak_congr (stepOf_eliminate hround)).symm
            _ ↔ Weak (stepOf result) p s s' := hsame hloop p s s'

/-! ## The rules once each -/

theorem lookup_of_same {a b : StatePred} (h : a.same b = true) (k : LocId) :
    a.lookup k = b.lookup k := by
  rw [StatePred.same, Bool.and_eq_true, List.all_eq_true, List.all_eq_true] at h
  apply Option.ext
  intro v
  constructor
  · intro hv
    exact eq_of_beq (h.1 ⟨k, v⟩ (AList.mem_lookup_iff.1 hv))
  · intro hv
    exact eq_of_beq (h.2 ⟨k, v⟩ (AList.mem_lookup_iff.1 hv))

theorem grown_of_same {a b : RbpaRule} (h : a.same b = true) : Grown b a := by
  rw [RbpaRule.same, Bool.and_eq_true, Bool.and_eq_true] at h
  obtain ⟨⟨hport, hguard⟩, hassign⟩ := h
  refine ⟨eq_of_beq hport, fun s s' htakes => ⟨fun k v hv => ?_, ?_⟩⟩
  · exact htakes.1 k v (by rw [← lookup_of_same hguard, hv])
  · rw [htakes.2]
    funext k
    rw [StatePred.overwrite, StatePred.overwrite, lookup_of_same hassign]

/-- One round: a rule that is dropped is there already. -/
theorem stepOf_dedup_fold : ∀ (rules kept : List RbpaRule) (l : Option LocId) (s s' : MemState),
    stepOf (rules.foldl (fun kept r => if kept.any (·.same r) then kept else kept ++ [r]) kept)
      l s s' ↔ stepOf kept l s s' ∨ stepOf rules l s s'
  | [], kept, l, s, s' => by
      rw [List.foldl_nil]
      exact ⟨.inl, fun h => h.elim id fun ⟨_, hr, _⟩ => absurd hr List.not_mem_nil⟩
  | r :: rules, kept, l, s, s' => by
      rw [List.foldl_cons, stepOf_dedup_fold rules, stepOf_cons, ← or_assoc]
      refine or_congr_left ?_
      split
      · next hany =>
          refine ⟨.inl, fun h => h.elim id fun ⟨hl, htakes⟩ => ?_⟩
          obtain ⟨r', hr', hsame⟩ := List.any_eq_true.1 hany
          have hgrown := grown_of_same hsame
          exact ⟨r', hr', hgrown.port.trans hl, hgrown.takes s s' htakes⟩
      · rw [stepOf_append, stepOf_cons]
        exact or_congr_right ⟨fun h => h.elim id fun ⟨_, hr, _⟩ => absurd hr List.not_mem_nil, .inl⟩

theorem stepOf_dedup (rules : List RbpaRule) (l : Option LocId) (s s' : MemState) :
    stepOf (dedup rules) l s s' ↔ stepOf rules l s s' := by
  rw [dedup, stepOf_dedup_fold]
  exact ⟨fun h => h.elim (fun ⟨_, hr, _⟩ => absurd hr List.not_mem_nil) id, .inr⟩

theorem mem_of_mem_dedup {rules : List RbpaRule} {r : RbpaRule} (h : r ∈ dedup rules) :
    r ∈ rules := by
  have hfold : ∀ (l kept : List RbpaRule),
      r ∈ l.foldl (fun kept r => if kept.any (·.same r) then kept else kept ++ [r]) kept →
        r ∈ kept ∨ r ∈ l := by
    intro l
    induction l with
    | nil => exact fun kept hr => .inl hr
    | cons x l ih =>
        intro kept hr
        rw [List.foldl_cons] at hr
        rcases ih _ hr with hr | hr
        · split at hr
          · exact .inl hr
          · rcases List.mem_append.1 hr with hr | hr
            · exact .inl hr
            · exact .inr (List.mem_cons.2 (.inl (List.mem_singleton.1 hr)))
        · exact .inr (List.mem_cons_of_mem x hr)
  exact (hfold rules [] h).resolve_left List.not_mem_nil

/-- Where the loop lost nothing, nothing that is seen is lost either. -/
theorem weak_normalize {fuel : Nat} {rules result : List RbpaRule}
    (h : Rbpa.normalize fuel rules = some result) (hkeeps : LoopKeeps fuel rules) {p : LocId}
    {s s' : MemState} : Weak (stepOf rules) p s s' ↔ stepOf result (some p) s s' := by
  rw [Rbpa.normalize, Option.map_eq_some_iff] at h
  obtain ⟨all, hall, rfl⟩ := h
  obtain ⟨hnone, hweak⟩ := eliminateAll_hides hall
  rw [hweak hkeeps, stepOf_dedup]
  refine weak_iff_of_no_silent fun a b hstep => ?_
  obtain ⟨r, hr, hport, -⟩ := hstep
  exact port_of_takeSilent_none hnone r hr hport

/-- No rule of the result is silent. Where the loop lost nothing, the result
does in one step what an observer of the rules could see. -/
theorem normalize_hides {fuel : Nat} {rules result : List RbpaRule}
    (h : Rbpa.normalize fuel rules = some result) :
    (∀ r ∈ result, r.port ≠ none) ∧ (LoopKeeps fuel rules → ∀ p s s',
      Weak (stepOf rules) p s s' ↔ stepOf result (some p) s s') := by
  rw [Rbpa.normalize, Option.map_eq_some_iff] at h
  obtain ⟨all, hall, rfl⟩ := h
  obtain ⟨hnone, hweak⟩ := eliminateAll_hides hall
  have hports := port_of_takeSilent_none hnone
  refine ⟨fun r hr => hports r (mem_of_mem_dedup hr), fun hkeeps p s s' => ?_⟩
  rw [hweak hkeeps, stepOf_dedup]
  refine weak_iff_of_no_silent fun a b hstep => ?_
  obtain ⟨r, hr, hport, -⟩ := hstep
  exact hports r hr hport

/-! ## A rule that fills a cell and one that finds it full

A silent rule moves what is in cell 2 to cell 0. The rule of port 3 fills cell
1, and asks for cell 0 to be full. In one of the two it also empties the cell;
where it only looks, the composition forgets that the silent rule has filled it.
-/

def moves : RbpaRule where
  port := none
  guard := ((∅ : StatePred).insert 0 false).insert 2 true
  assign := ((∅ : StatePred).insert 0 true).insert 2 false

def looks : RbpaRule where
  port := some 3
  guard := ((∅ : StatePred).insert 1 false).insert 0 true
  assign := (∅ : StatePred).insert 1 true

def empties : RbpaRule where
  port := some 3
  guard := ((∅ : StatePred).insert 1 false).insert 0 true
  assign := ((∅ : StatePred).insert 1 true).insert 0 false

/-- A composition that loses nothing. -/
theorem normalize_hides_empties : ∃ result, Rbpa.normalize 2 [moves, empties] = some result ∧
    LoopKeeps 2 [moves, empties] ∧ (∀ r ∈ result, r.port ≠ none) ∧
    ∀ p s s', Weak (stepOf [moves, empties]) p s s' ↔ stepOf result (some p) s s' := by
  obtain ⟨result, hresult⟩ := Option.isSome_iff_exists.1
    (show (Rbpa.normalize 2 [moves, empties]).isSome = true by decide)
  have hkeeps : LoopKeeps 2 [moves, empties] := by decide
  obtain ⟨hports, hhides⟩ := normalize_hides hresult
  exact ⟨result, hresult, hkeeps, hports, hhides hkeeps⟩

/-- With cell 2 full and the others empty, the first rule and then the second
lead to a state with cells 0 and 1 full. The result does not lead there. -/
theorem normalize_not_hides_looks : ∃ result, Rbpa.normalize 2 [moves, looks] = some result ∧
    ¬ ∀ p s s', Weak (stepOf [moves, looks]) p s s' ↔ stepOf result (some p) s s' := by
  obtain ⟨result, hresult⟩ := Option.isSome_iff_exists.1
    (show (Rbpa.normalize 2 [moves, looks]).isSome = true by decide)
  refine ⟨result, hresult, fun h => ?_⟩
  let s : MemState := fun k => k == 2
  let m := StatePred.overwrite s moves.assign
  let s' := StatePred.overwrite m looks.assign
  have hmoves : stepOf [moves, looks] none s m := ⟨moves, by simp, rfl, by decide, rfl⟩
  have hlooks : stepOf [moves, looks] (some 3) m s' := ⟨looks, by simp, rfl, by decide, rfl⟩
  obtain ⟨r, hr, -, hguard, hassign⟩ := (h 3 s s').1 (Weak.head hmoves (Weak.single hlooks))
  -- no rule of the result fills cell 0, but it was empty and is full
  have hnone : ∀ rules ∈ Rbpa.normalize 2 [moves, looks], ∀ r ∈ rules,
      r.assign.lookup 0 = none := by decide
  have hcell := congrFun hassign 0
  rw [StatePred.overwrite, hnone result hresult r hr] at hcell
  cases hcell

end Rbpa

end ReoRs
