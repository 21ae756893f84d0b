import ReoRs.Proofs.Unsilence
import Mathlib.Data.Finset.Card
import Mathlib.Data.Finset.Dedup

/-!
# Rounds of taking silent rules out

A round of `Rbpa::normalize` takes one silent rule out and may put as many
in as are left. What it does to the silent rules is a matter of these alone:
rules with a port stay as many as they were, and what is composed with one of
them is not silent.

The loop ends when no silent rule composes with another, as no round puts a
silent rule in.

It also ends when there are two. A pair `u, v` becomes `v, uv`, and a guard
that is composed contains the first one's. So after every second round a guard
has grown or is as it was, and it cannot grow for ever. If four compositions
in a row leave the guards as they were, the two guards are the same: what one
has and the other has not, the other would have to assign at every turn, and
`compose` does not carry an assignment past a rule that guards it.
-/

namespace ReoRs

open RbpaRule Rbpa

namespace Rbpa

/-- The rules without a port, in their order. -/
def silents (rules : List RbpaRule) : List RbpaRule := rules.filter (·.port.isNone)

/-- The outer loop ends. -/
def Ends (rules : List RbpaRule) : Prop := ∃ fuel result, eliminateAll fuel rules = some result

theorem mem_silents {rules : List RbpaRule} {r : RbpaRule} :
    r ∈ silents rules ↔ r ∈ rules ∧ r.port = none := by
  rw [silents, List.mem_filter, Option.isNone_iff_eq_none]

theorem silents_append (rules rest : List RbpaRule) :
    silents (rules ++ rest) = silents rules ++ silents rest := List.filter_append _ _

/-! ## A round of the outer loop -/

theorem ends_of_takeSilent_none {rules : List RbpaRule} (h : takeSilent rules = none) :
    Ends rules := ⟨1, rules, by rw [eliminateAll, h]⟩

theorem ends_of_eliminate {rules rest : List RbpaRule} {r₁ : RbpaRule}
    (h : takeSilent rules = some (r₁, rest)) (hends : Ends (eliminate r₁ rest)) : Ends rules := by
  obtain ⟨fuel, result, hresult⟩ := hends
  exact ⟨fuel + 1, result, by rw [eliminateAll, h]; exact hresult⟩

/-- What is taken out is the first of the silent rules; the others stay, in
some order. -/
theorem silents_of_takeSilent {rules rest : List RbpaRule} {r₁ : RbpaRule}
    (h : takeSilent rules = some (r₁, rest)) :
    ∃ others, silents rules = r₁ :: others ∧ others.Perm (silents rest) := by
  obtain ⟨hport, hperm⟩ := perm_takeSilent h
  have hsilent : (silents rules).Perm (r₁ :: silents rest) := by
    have := hperm.filter (·.port.isNone)
    rwa [List.filter_cons_of_pos (by rw [hport]; rfl)] at this
  suffices hfirst : ∃ others, silents rules = r₁ :: others by
    obtain ⟨others, heq⟩ := hfirst
    exact ⟨others, heq, (List.perm_cons r₁).1 (heq ▸ hsilent)⟩
  rw [takeSilent] at h
  split at h
  · next i hi =>
      obtain ⟨hlt, hnone, hbefore⟩ := List.findIdx?_eq_some_iff_getElem.1 hi
      rw [List.getElem?_eq_getElem hlt, Option.map_some] at h
      cases h
      refine ⟨silents (rules.drop (i + 1)), ?_⟩
      have hsplit : rules = rules.take i ++ rules[i] :: rules.drop (i + 1) := by
        rw [List.getElem_cons_drop, List.take_append_drop]
      have hlabelled : silents (rules.take i) = [] := by
        refine List.filter_eq_nil_iff.2 fun r hr => ?_
        obtain ⟨j, hj, rfl⟩ := List.mem_take_iff_getElem.1 hr
        exact hbefore j (by omega)
      refine (congrArg silents hsplit).trans ?_
      rw [silents_append, hlabelled, List.nil_append]
      exact List.filter_cons_of_pos hnone
  · cases h

/-! ## A round of the inner loop -/

theorem composeWith_of_none {r₁ : RbpaRule} {st : List RbpaRule × List RbpaRule} {n : Nat}
    (h : (st.1[n]?).bind r₁.compose = none) : composeWith r₁ st n = st := by
  rw [composeWith, h]

/-- Fusing gives no rule another label. -/
theorem port_fuse_getD (r c : RbpaRule) : ((r.fuse c).getD r).port = r.port := by
  cases hf : r.fuse c with
  | none => rfl
  | some f => exact (port_of_fuse hf).1

/-- The labels stay where they are. -/
theorem ports_rounds (r₁ : RbpaRule) (rest : List RbpaRule) (n : Nat) :
    (rounds r₁ rest n).1.map (·.port) = rest.map (·.port) := by
  induction n with
  | zero => rfl
  | succ n ih =>
      rw [rounds_succ, composeWith]
      split
      · next c _ =>
          refine Eq.trans ?_ ih
          rw [List.map_map]
          exact List.map_congr_left fun r _ => port_fuse_getD r c
      · exact ih

theorem fuse_of_port_ne {r c : RbpaRule} (h : r.port ≠ c.port) : r.fuse c = none := by
  rw [fuse, if_pos h]

/-- The silent rules that are there fuse with the composition or not; the
others never do when it is silent. -/
theorem silents_map_fuse (rules : List RbpaRule) (c : RbpaRule) :
    silents (rules.map fun r => (r.fuse c).getD r) =
      (silents rules).map fun r => (r.fuse c).getD r := by
  rw [silents, silents, List.filter_map]
  refine congrArg _ (List.filter_congr fun r _ => ?_)
  rw [Function.comp_apply, port_fuse_getD]

/-- A composition with a port is not among the silent rules, and changes none
of them. -/
theorem silents_putIn_of_port {c : RbpaRule} (hc : c.port ≠ none)
    (st : List RbpaRule × List RbpaRule) :
    silents (putIn c st).1 = silents st.1 ∧ silents (putIn c st).2 = silents st.2 := by
  constructor
  · refine (silents_map_fuse st.1 c).trans ?_
    refine (List.map_congr_left fun r hr => ?_).trans (List.map_id _)
    rw [fuse_of_port_ne fun h => hc (h.symm.trans (mem_silents.1 hr).2)]
    rfl
  · rw [putIn]
    dsimp only
    split
    · rfl
    · rw [silents_append]
      have hnil : silents [c] = [] :=
        List.filter_cons_of_neg fun h => hc (Option.isNone_iff_eq_none.1 h)
      rw [hnil, List.append_nil]

/-- A silent one is put in by itself if no silent rule fuses with it. -/
theorem silents_putIn_of_silent {c : RbpaRule} (hc : c.port = none)
    (st : List RbpaRule × List RbpaRule) :
    silents (putIn c st).1 = (silents st.1).map (fun r => (r.fuse c).getD r) ∧
      silents (putIn c st).2 =
        if (silents st.1).any fun r => (r.fuse c).isSome then silents st.2
        else silents st.2 ++ [c] := by
  refine ⟨silents_map_fuse st.1 c, ?_⟩
  have hany : (st.1.any fun r => (r.fuse c).isSome) =
      (silents st.1).any fun r => (r.fuse c).isSome := by
    rw [silents, List.any_filter, Bool.eq_iff_iff, List.any_eq_true, List.any_eq_true]
    refine exists_congr fun r => and_congr_right fun _ => ?_
    by_cases hr : r.port = none
    · rw [hr]
      rfl
    · rw [fuse_of_port_ne (by rwa [hc]), Option.isSome_none, Bool.and_false]
  rw [putIn, ← hany]
  dsimp only
  split
  · rfl
  · rw [silents_append]
    refine congrArg _ ?_
    exact List.filter_cons_of_pos (by rw [hc]; rfl)

/-- Composing with a rule that has a port changes nothing among the silent
rules. -/
theorem silents_composeWith_of_port (r₁ : RbpaRule) {st : List RbpaRule × List RbpaRule}
    {n : Nat} (h : ∀ r₂, st.1[n]? = some r₂ → r₂.port ≠ none) :
    silents (composeWith r₁ st n).1 = silents st.1 ∧
      silents (composeWith r₁ st n).2 = silents st.2 := by
  cases hr₂ : st.1[n]? with
  | none =>
      rw [composeWith_of_none (by rw [hr₂]; rfl)]
      exact ⟨rfl, rfl⟩
  | some r₂ =>
      cases hc : r₁.compose r₂ with
      | none =>
          rw [composeWith_of_none (by rw [hr₂]; exact hc)]
          exact ⟨rfl, rfl⟩
      | some c =>
          rw [composeWith_eq_putIn hr₂ hc]
          exact silents_putIn_of_port (by rw [port_of_compose hc]; exact h r₂ hr₂) st

/-! ## Rules that do not compose -/

/-- Neither of two rules can follow the other. -/
def Apart (a b : RbpaRule) : Prop := a.compose b = none ∧ b.compose a = none

theorem Apart.symm {a b : RbpaRule} (h : Apart a b) : Apart b a := ⟨h.2, h.1⟩

/-- What nothing silent composes with leaves without a trace among the silent
rules. -/
theorem silents_rounds_of_none {r₁ : RbpaRule} {rest : List RbpaRule}
    (h : ∀ r ∈ silents rest, r₁.compose r = none) (n : Nat) :
    silents (rounds r₁ rest n).1 = silents rest ∧ silents (rounds r₁ rest n).2 = [] := by
  induction n with
  | zero => exact ⟨rfl, rfl⟩
  | succ n ih =>
      rw [rounds_succ]
      by_cases hport : ∀ r₂, (rounds r₁ rest n).1[n]? = some r₂ → r₂.port ≠ none
      · obtain ⟨h₁, h₂⟩ := silents_composeWith_of_port r₁ hport
        exact ⟨h₁.trans ih.1, h₂.trans ih.2⟩
      · simp only [not_forall, not_not] at hport
        obtain ⟨r₂, hr₂, hnone⟩ := hport
        have hmem : r₂ ∈ silents rest :=
          ih.1 ▸ mem_silents.2 ⟨List.mem_of_getElem? hr₂, hnone⟩
        rw [composeWith_of_none (by rw [hr₂]; exact h r₂ hmem)]
        exact ih

theorem silents_eliminate_of_none {r₁ : RbpaRule} {rest : List RbpaRule}
    (h : ∀ r ∈ silents rest, r₁.compose r = none) :
    silents (eliminate r₁ rest) = silents rest := by
  obtain ⟨h₁, h₂⟩ := silents_rounds_of_none h rest.length
  rw [eliminate, silents_append, h₁, h₂, List.append_nil]

theorem ends_of_apart : ∀ {rules : List RbpaRule}, (silents rules).Pairwise Apart →
    Ends rules := by
  intro rules hapart
  induction hn : (silents rules).length using Nat.strongRecOn generalizing rules with
  | _ n ih =>
      cases htake : takeSilent rules with
      | none => exact ends_of_takeSilent_none htake
      | some taken =>
          obtain ⟨r₁, rest⟩ := taken
          obtain ⟨others, heq, hperm⟩ := silents_of_takeSilent htake
          rw [heq, List.pairwise_cons] at hapart
          have heliminate : silents (eliminate r₁ rest) = silents rest :=
            silents_eliminate_of_none fun r hr => (hapart.1 r (hperm.mem_iff.2 hr)).1
          have hapart' : (silents rest).Pairwise Apart := hperm.pairwise hapart.2 Apart.symm
          refine ends_of_eliminate htake (ih _ ?_ (heliminate ▸ hapart') rfl)
          rw [← hn, heq, heliminate, List.length_cons, hperm.length_eq]
          exact Nat.lt_succ_self _

/-! ## Rules with one guard -/

/-- Two rules with the same guard, which is the same lookups. -/
def SameGuard (a b : RbpaRule) : Prop := ∀ k, a.guard.lookup k = b.guard.lookup k

section SameGuard

variable {a b c f : RbpaRule}

theorem SameGuard.symm (h : SameGuard a b) : SameGuard b a := fun k => (h k).symm

theorem SameGuard.trans (h : SameGuard a b) (h' : SameGuard b c) : SameGuard a c :=
  fun k => (h k).trans (h' k)

theorem SameGuard.compose (h : SameGuard a b) (hc : a.compose b = some c) : SameGuard c b := by
  obtain ⟨g, as, hcomp⟩ := composed_of_compose hc
  intro k
  rw [hcomp.guard_eq, hcomp.guard, h k, Option.or_self, ite_self]

/-- Fusing two rules with one guard leaves that guard. -/
theorem SameGuard.fuse (h : SameGuard a b) (hf : a.fuse b = some f) : SameGuard f a := by
  obtain ⟨g, hfused⟩ := fused_of_fuse hf
  intro k
  rw [hfused.rule]
  show (fusedGuard a b g).lookup k = _
  have hrel := hfused.related
  cases g with
  | identical | leftSubsumes => rfl
  | rightSubsumes => exact (h k).symm
  | partitionAt id =>
      obtain ⟨⟨v, ha, hb⟩, -⟩ := hrel
      rw [h id, hb] at ha
      cases v <;> cases ha

/-- The loop over the guards finds nothing. -/
theorem SameGuard.nextCase (h : SameGuard a b) : ∀ ids : List LocId,
    ids.foldlM (nextCase a b) .identical = some .identical
  | [] => rfl
  | id :: ids => by
      have hround : RbpaRule.nextCase a b .identical id = some .identical := by
        unfold RbpaRule.nextCase
        rw [h id]
        cases b.guard.lookup id with
        | none => rfl
        | some v => exact if_neg (not_not.2 rfl)
      rw [List.foldlM_cons, hround]
      exact SameGuard.nextCase h ids

/-- What a rule guards and assigns is what a composition with it assigns
there. -/
theorem outcome_of_compose {k : LocId} (hc : a.compose b = some c) (h : SameGuard b c)
    (hk : b.guard.lookup k ≠ none) : b.outcome k = c.outcome k := by
  obtain ⟨g, as, hcomp⟩ := composed_of_compose hc
  obtain ⟨x, hx⟩ := Option.ne_none_iff_exists'.1 hk
  have hguard : g.lookup k = some x := by rw [← hcomp.guard_eq, ← h k, hx]
  have hassign : as.lookup k = b.assign.lookup k := by
    rw [hcomp.assign, if_neg fun hcon => hk hcon.1]
  rw [RbpaRule.outcome, RbpaRule.outcome, ← h k, hx, hcomp.lookup_assign, hassign, hguard]
  cases hy : b.assign.lookup k with
  | none => rfl
  | some y =>
      by_cases hxy : x = y
      · rw [Option.filter_some, hxy, bne_self_eq_false]
        rfl
      · rw [Option.filter_some, if_pos (by simpa using hxy)]

/-- A composition with the guard of the second rule fuses with it. -/
theorem SameGuard.fuse_compose (hc : a.compose b = some c) (h : SameGuard b c) :
    (b.fuse c).isSome = true := by
  have hany : ((guardIds b c).any fun id => b.outcome id != c.outcome id) = false := by
    rw [List.any_eq_false]
    intro k hk
    have hguard : b.guard.lookup k ≠ none := by
      rcases mem_guardIds.1 hk with hk | hk
      · exact hk
      · rwa [h k]
    rw [outcome_of_compose hc h hguard, bne_self_eq_false]
    exact Bool.false_ne_true
  rw [RbpaRule.fuse, if_neg (not_not.2 (port_of_compose hc).symm), SameGuard.nextCase h]
  dsimp only
  rw [hany]
  rfl

end SameGuard

/-! ## Two silent rules -/

/-- Indices at which a rule with a port stands leave the silent rules alone. -/
theorem silents_rounds_of_port (r₁ : RbpaRule) (rest : List RbpaRule) {m n : Nat} (hmn : m ≤ n)
    (h : ∀ j, m ≤ j → j < n → ∀ r, rest[j]? = some r → r.port ≠ none) :
    silents (rounds r₁ rest n).1 = silents (rounds r₁ rest m).1 ∧
      silents (rounds r₁ rest n).2 = silents (rounds r₁ rest m).2 := by
  induction n, hmn using Nat.le_induction with
  | base => exact ⟨rfl, rfl⟩
  | succ n hmn ih =>
      obtain ⟨ih₁, ih₂⟩ := ih fun j hm hj => h j hm (Nat.lt_succ_of_lt hj)
      have hport : ∀ r₂, (rounds r₁ rest n).1[n]? = some r₂ → r₂.port ≠ none := by
        intro r₂ hr₂
        have hports := congrArg (·[n]?) (ports_rounds r₁ rest n)
        simp only [List.getElem?_map, hr₂, Option.map_some] at hports
        obtain ⟨r, hr, hrport⟩ := Option.map_eq_some_iff.1 hports.symm
        rw [← hrport]
        exact h n hmn (Nat.lt_succ_self n) r hr
      obtain ⟨h₁, h₂⟩ := silents_composeWith_of_port r₁ hport
      rw [rounds_succ]
      exact ⟨h₁.trans ih₁, h₂.trans ih₂⟩

/-- What taking out `u` makes of the one other silent rule. -/
def pairRound (u v : RbpaRule) : List RbpaRule :=
  match u.compose v with
  | none => [v]
  | some c =>
      match v.fuse c with
      | some f => [f]
      | none => [v, c]

theorem silents_eliminate_of_single (u : RbpaRule) {v : RbpaRule} {rest : List RbpaRule}
    (h : silents rest = [v]) : silents (eliminate u rest) = pairRound u v := by
  obtain ⟨pre, post, rfl, hpre, hv, hpost⟩ := List.filter_eq_cons_iff.1 h
  have hpost' := List.filter_eq_nil_iff.1 hpost
  have hvport : v.port = none := Option.isNone_iff_eq_none.1 hv
  -- up to the index of `v`, and from behind it on, there is no silent rule
  have hbefore := silents_rounds_of_port u (pre ++ v :: post)
    (Nat.zero_le pre.length) fun j _ hj r hr hport => by
      rw [List.getElem?_append_left hj] at hr
      exact hpre r (List.mem_of_getElem? hr) (by rw [hport]; rfl)
  have hlength : pre.length + 1 ≤ (pre ++ v :: post).length := by
    rw [List.length_append, List.length_cons]
    omega
  have hafter := silents_rounds_of_port u (pre ++ v :: post) hlength fun j hj _ r hr hport => by
      rw [List.getElem?_append_right (by omega), List.getElem?_cons, if_neg (by omega)] at hr
      exact hpost' r (List.mem_of_getElem? hr) (by rw [hport]; rfl)
  have hstart : silents (rounds u (pre ++ v :: post) pre.length).1 = [v] ∧
      silents (rounds u (pre ++ v :: post) pre.length).2 = [] :=
    ⟨hbefore.1.trans h, hbefore.2⟩
  generalize hst : rounds u (pre ++ v :: post) pre.length = st at hstart
  have hat : st.1[pre.length]? = some v := by
    have hports := congrArg (·[pre.length]?) (ports_rounds u (pre ++ v :: post) pre.length)
    simp only [hst, List.getElem?_map, List.getElem?_append_right (Nat.le_refl _), Nat.sub_self,
      List.getElem?_cons_zero, Option.map_some] at hports
    obtain ⟨r, hr, hrport⟩ := Option.map_eq_some_iff.1 hports
    have hmem : r ∈ silents st.1 :=
      mem_silents.2 ⟨List.mem_of_getElem? hr, hrport.trans hvport⟩
    rw [hstart.1, List.mem_singleton] at hmem
    rw [hr, hmem]
  rw [eliminate, silents_append, hafter.1, hafter.2, rounds_succ, hst, pairRound]
  cases hc : u.compose v with
  | none =>
      rw [composeWith_of_none (by rw [hat]; exact hc), hstart.1, hstart.2]
      rfl
  | some c =>
      obtain ⟨h₁, h₂⟩ := silents_putIn_of_silent ((port_of_compose hc).trans hvport) st
      rw [composeWith_eq_putIn hat hc, h₁, h₂, hstart.1, hstart.2]
      dsimp only
      cases hf : v.fuse c with
      | none => simp [hf]
      | some f => simp [hf]

theorem ends_of_single {rules : List RbpaRule} {r : RbpaRule} (h : silents rules = [r]) :
    Ends rules := ends_of_apart (by rw [h]; exact List.pairwise_singleton Apart r)

/-- A pair is left behind by a round only where the two compose and do not
fuse. -/
theorem ends_of_pair {rules : List RbpaRule} {u v : RbpaRule} (h : silents rules = [u, v])
    (hnext : ∀ c rules', u.compose v = some c → v.fuse c = none → silents rules' = [v, c] →
      Ends rules') : Ends rules := by
  cases htake : takeSilent rules with
  | none => exact ends_of_takeSilent_none htake
  | some taken =>
      obtain ⟨r₁, rest⟩ := taken
      obtain ⟨others, heq, hperm⟩ := silents_of_takeSilent htake
      obtain ⟨rfl, rfl⟩ : u = r₁ ∧ [v] = others := List.cons_eq_cons.1 (h.symm.trans heq)
      have hrest : silents rest = [v] := List.perm_singleton.1 hperm.symm
      have hround := silents_eliminate_of_single u hrest
      refine ends_of_eliminate htake ?_
      rw [pairRound] at hround
      cases hc : u.compose v with
      | none =>
          rw [hc] at hround
          exact ends_of_single hround
      | some c =>
          rw [hc] at hround
          dsimp only at hround
          cases hf : v.fuse c with
          | some f =>
              rw [hf] at hround
              exact ends_of_single hround
          | none =>
              rw [hf] at hround
              exact hnext c _ hc hf hround

/-- What `normalize` leaves: nothing is assigned that is guarded already. -/
def Normal (r : RbpaRule) : Prop := ∀ k x, r.guard.lookup k = some x → r.assign.lookup k ≠ some x

/-- One guard asks for no less than the other. -/
def GuardLe (a b : RbpaRule) : Prop := ∀ k x, a.guard.lookup k = some x → b.guard.lookup k = some x

section Pair

variable {a b c d e f u v : RbpaRule}

theorem GuardLe.trans (h : GuardLe a b) (h' : GuardLe b c) : GuardLe a c :=
  fun k x hx => h' k x (h k x hx)

theorem GuardLe.antisymm (h : GuardLe a b) (h' : GuardLe b a) : SameGuard a b := by
  intro k
  apply Option.ext
  exact fun x => ⟨h k x, h' k x⟩

theorem normal_of_compose (hc : a.compose b = some c) : Normal c := by
  obtain ⟨g, as, hcomp⟩ := composed_of_compose hc
  intro k x hx hassign
  rw [hcomp.guard_eq] at hx
  rw [hcomp.lookup_assign, Option.filter_eq_some_iff, hx, bne_self_eq_false] at hassign
  exact Bool.false_ne_true hassign.2

theorem guardLe_of_compose (hc : a.compose b = some c) : GuardLe a c := by
  obtain ⟨g, as, hcomp⟩ := composed_of_compose hc
  intro k x hx
  have hout : a.outcome k ≠ none := by
    rw [outcome, hx]
    cases a.assign.lookup k <;> simp
  rw [hcomp.guard_eq, hcomp.guard, if_neg hout, hx]

/-- A location none of the two guards. -/
theorem guard_of_compose_none (hc : a.compose b = some c) {k : LocId}
    (ha : a.guard.lookup k = none) (hb : b.guard.lookup k = none) : c.guard.lookup k = none := by
  obtain ⟨g, as, hcomp⟩ := composed_of_compose hc
  rw [hcomp.guard_eq, hcomp.guard, ha, hb, Option.or_none, ite_self]

/-- Guards that have stopped growing. If `v` guards what `u` does not, so does
every second rule from `v` on, and never one of the others; which then have to
assign it, and can have it from `v` only. -/
theorem guardLe_of_stable (hv : Normal v) (hc : u.compose v = some c) (hcu : SameGuard c u)
    (hdv : SameGuard d v) (he : c.compose d = some e) (hec : SameGuard e c) : GuardLe v u := by
  obtain ⟨g, as, hcomp⟩ := composed_of_compose hc
  obtain ⟨g', as', hcomp'⟩ := composed_of_compose he
  intro k x hx
  have hd : d.guard.lookup k = some x := (hdv k).trans hx
  rw [← hcu k]
  cases hout : c.outcome k with
  | none =>
      have heguard : e.guard.lookup k = some x := by
        rw [hcomp'.guard_eq, hcomp'.guard, if_pos hout, hd, Option.some_or]
      rw [← hec k, heguard]
  | some w =>
      obtain rfl : w = x := hcomp'.free k x hd w hout
      have hassign : c.assign.lookup k = none := by
        cases ha : c.assign.lookup k with
        | none => rfl
        | some y =>
            obtain rfl : y = w := by
              rw [outcome, ha, Option.some_or] at hout
              exact Option.some.inj hout
            rw [hcomp.lookup_assign, Option.filter_eq_some_iff, hcomp.assign,
              if_neg (fun hcon => by rw [hx] at hcon; cases hcon.1)] at ha
            exact absurd ha.1 (hv k y hx)
      rwa [outcome, hassign, Option.none_or] at hout

/-- Four rounds that leave the guards as they were cannot all go without a
fusion. -/
theorem false_of_stable (hv : Normal v) (hc : u.compose v = some c) (hvc : v.fuse c = none)
    (hd : v.compose c = some d) (he : c.compose d = some e) (hf : d.compose e = some f)
    (hcu : SameGuard c u) (hdv : SameGuard d v) (hec : SameGuard e c) (hfd : SameGuard f d) :
    False := by
  have hvu : GuardLe v u := guardLe_of_stable hv hc hcu hdv he hec
  have hcv : GuardLe c v := guardLe_of_stable (normal_of_compose hc) hd hdv hec hf hfd
  have huc : GuardLe u c := guardLe_of_compose hc
  have hfuses := (hvu.trans huc).antisymm hcv |>.fuse_compose hc
  rw [hvc] at hfuses
  cases hfuses

end Pair

/-! ## Room in a guard -/

/-- The locations of `ids` that a rule does not guard. -/
def room (ids : Finset LocId) (r : RbpaRule) : Finset LocId :=
  ids.filter fun k => r.guard.lookup k = none

section Room

variable {ids : Finset LocId} {a b : RbpaRule}

theorem room_subset (ids : Finset LocId) (h : GuardLe a b) : room ids b ⊆ room ids a := by
  intro k hk
  obtain ⟨hmem, hnone⟩ := Finset.mem_filter.1 hk
  refine Finset.mem_filter.2 ⟨hmem, ?_⟩
  cases ha : a.guard.lookup k with
  | none => rfl
  | some x => rw [h k x ha] at hnone; cases hnone

/-- A guard that has grown and has as much room as before has not grown. -/
theorem sameGuard_of_room (h : GuardLe a b) (hids : ∀ k ∉ ids, b.guard.lookup k = none)
    (hroom : (room ids a).card ≤ (room ids b).card) : SameGuard b a := by
  have hsame : room ids b = room ids a := Finset.eq_of_subset_of_card_le (room_subset ids h) hroom
  refine GuardLe.antisymm (fun k x hx => ?_) h
  cases ha : a.guard.lookup k with
  | some y =>
      rw [h k y ha] at hx
      exact hx
  | none =>
      have hmem : k ∈ room ids a := by
        refine Finset.mem_filter.2 ⟨?_, ha⟩
        by_contra hk
        rw [hids k hk] at hx
        cases hx
      rw [← hsame] at hmem
      rw [(Finset.mem_filter.1 hmem).2] at hx
      cases hx

end Room

theorem ends_of_normalPair (ids : Finset LocId) : ∀ {rules : List RbpaRule} {u v : RbpaRule},
    (∀ k ∉ ids, u.guard.lookup k = none) → (∀ k ∉ ids, v.guard.lookup k = none) → Normal v →
      silents rules = [u, v] → Ends rules := by
  intro rules u v hu hv hnormal h
  induction hn : (room ids u).card + (room ids v).card using Nat.strongRecOn
    generalizing rules u v with
  | _ n ih =>
      refine ends_of_pair h fun c _ hc hvc hrules => ?_
      refine ends_of_pair hrules fun d _ hd _ hrules => ?_
      refine ends_of_pair hrules fun e _ he _ hrules => ?_
      refine ends_of_pair hrules fun f _ hf _ hrules => ?_
      have hcids := fun k hk => guard_of_compose_none hc (hu k hk) (hv k hk)
      have hdids := fun k hk => guard_of_compose_none hd (hv k hk) (hcids k hk)
      have heids := fun k hk => guard_of_compose_none he (hcids k hk) (hdids k hk)
      have hfids := fun k hk => guard_of_compose_none hf (hdids k hk) (heids k hk)
      have huc := guardLe_of_compose hc
      have hvd := guardLe_of_compose hd
      have hce := guardLe_of_compose he
      have hdf := guardLe_of_compose hf
      have h₁ := Finset.card_le_card (room_subset ids huc)
      have h₂ := Finset.card_le_card (room_subset ids hvd)
      have h₃ := Finset.card_le_card (room_subset ids hce)
      have h₄ := Finset.card_le_card (room_subset ids hdf)
      by_cases hless : (room ids e).card + (room ids f).card < n
      · exact ih _ hless heids hfids (normal_of_compose hf) hrules rfl
      · exact (false_of_stable hnormal hc hvc hd he hf
          (sameGuard_of_room huc hcids (by omega)) (sameGuard_of_room hvd hdids (by omega))
          (sameGuard_of_room hce heids (by omega)) (sameGuard_of_room hdf hfids (by omega))).elim

theorem ends_of_two {rules : List RbpaRule} {u v : RbpaRule} (h : silents rules = [u, v]) :
    Ends rules := by
  refine ends_of_pair h fun c rules' hc _ hrules => ?_
  let ids : Finset LocId := (v.guard.keys ++ c.guard.keys).toFinset
  have hkeys : ∀ k ∉ ids, v.guard.lookup k = none ∧ c.guard.lookup k = none := by
    intro k hk
    rw [List.mem_toFinset, List.mem_append, not_or] at hk
    exact ⟨AList.lookup_eq_none.2 hk.1, AList.lookup_eq_none.2 hk.2⟩
  exact ends_of_normalPair ids (fun k hk => (hkeys k hk).1) (fun k hk => (hkeys k hk).2)
    (normal_of_compose hc) hrules

theorem ends_of_length_le_two {rules : List RbpaRule} (h : (silents rules).length ≤ 2) :
    Ends rules := by
  match hs : silents rules with
  | [] => exact ends_of_apart (by rw [hs]; exact List.Pairwise.nil)
  | [r] => exact ends_of_single hs
  | [u, v] => exact ends_of_two hs
  | _ :: _ :: _ :: _ =>
      rw [hs] at h
      simp only [List.length_cons] at h
      omega

end Rbpa

end ReoRs
