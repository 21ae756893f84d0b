import ReoRs.Lib.Descent
import ReoRs.Proofs.Elimination

/-!
# Whether the silent rules run out

Nothing in `Rbpa::normalize` remembers what was taken out, and `swap_remove`
keeps some rules from ever being first; so with three silent rules the loop can
go round in a circle. The list at the end is one.

The silent rules do run out when there is a rank of rules that goes down. A
round takes one rule out and puts compositions in, each of which is to be lower
than the rule taken out, unless it fuses with the rule it was made from. There
may be any number of them. A fusion changes a rule that is there, and it may not
raise it.

All rules with one guard have such a rank: each composition fuses. So have the
silent rules of most definitions. If each of them flips the last location it
mentions, in an order of the locations, and a location is always flipped the
same way, then a composition does too. It flips the later of the two. The rank
looks at the locations in this order. It is not a rank of the states that the
rule leads to, as `compose` forgets assignments: what counts is that it only
forgets them at locations before the one flipped.
-/

namespace ReoRs

open RbpaRule Rbpa

namespace Rbpa

/-! ## A rank of rules -/

/-- A composition of two rules of the set fuses with the second, or is one of
the set and lower than the first. Fusing with it raises no rule of the set. -/
structure Descends (K : RbpaRule → Prop) (rank : RbpaRule → Nat) : Prop where
  compose : ∀ {r₁ r₂ c}, K r₁ → K r₂ → r₁.compose r₂ = some c →
    (r₂.fuse c).isSome = true ∨ K c ∧ rank c < rank r₁
  fuse : ∀ {r₁ r₂ c r f}, K r₁ → K r₂ → r₁.compose r₂ = some c → K r → r.fuse c = some f →
    K f ∧ rank f ≤ rank r

section Descends

variable {K : RbpaRule → Prop} {rank : RbpaRule → Nat} {r₁ : RbpaRule} {rest : List RbpaRule}

/-- What the inner loop keeps: the silent rules that were there have not risen,
and those that wait in the buffer are lower than the one taken out. -/
structure Lowered (K : RbpaRule → Prop) (rank : RbpaRule → Nat) (r₁ : RbpaRule)
    (rest : List RbpaRule) (st : List RbpaRule × List RbpaRule) : Prop where
  kept : List.Forall₂ (fun r r' => rank r ≤ rank r') (silents st.1) (silents rest)
  added : ∀ r ∈ silents st.2, rank r < rank r₁
  inside : ∀ r ∈ silents st.1 ++ silents st.2, K r

theorem Lowered.step (hK : Descends K rank) (hr₁ : K r₁) {st : List RbpaRule × List RbpaRule}
    (h : Lowered K rank r₁ rest st) (n : Nat) : Lowered K rank r₁ rest (composeWith r₁ st n) := by
  by_cases hport : ∀ r₂, st.1[n]? = some r₂ → r₂.port ≠ none
  · obtain ⟨h₁, h₂⟩ := silents_composeWith_of_port r₁ hport
    exact ⟨by rw [h₁]; exact h.kept, by rw [h₂]; exact h.added, by rw [h₁, h₂]; exact h.inside⟩
  · simp only [not_forall, not_not] at hport
    obtain ⟨r₂, hr₂, hnone⟩ := hport
    have hmem : r₂ ∈ silents st.1 := mem_silents.2 ⟨List.mem_of_getElem? hr₂, hnone⟩
    cases hc : r₁.compose r₂ with
    | none =>
        rw [composeWith_of_none (by rw [hr₂]; exact hc)]
        exact h
    | some c =>
        have hKr₂ := h.inside r₂ (List.mem_append_left _ hmem)
        obtain ⟨h₁, h₂⟩ := silents_putIn_of_silent ((port_of_compose hc).trans hnone) st
        have hfused : ∀ r ∈ silents st.1,
            K ((r.fuse c).getD r) ∧ rank ((r.fuse c).getD r) ≤ rank r := by
          intro r hr
          have hKr := h.inside r (List.mem_append_left _ hr)
          cases hf : r.fuse c with
          | none => exact ⟨hKr, Nat.le_refl _⟩
          | some f => exact hK.fuse hr₁ hKr₂ hc hKr hf
        have hbuf : ∀ r ∈ silents (putIn c st).2, r ∈ silents st.2 ∨ K r ∧ rank r < rank r₁ := by
          intro r hr
          rw [h₂] at hr
          split at hr
          · exact .inl hr
          · next hany =>
              refine (List.mem_append.1 hr).imp_right fun hr => ?_
              rw [List.mem_singleton.1 hr]
              refine (hK.compose hr₁ hKr₂ hc).resolve_left fun hf => hany ?_
              exact List.any_eq_true.2 ⟨r₂, hmem, hf⟩
        rw [composeWith_eq_putIn hr₂ hc]
        refine ⟨?_, fun r hr => ?_, fun r hr => ?_⟩
        · rw [h₁, List.forall₂_map_left_iff]
          refine ((List.forall₂_and_left _ _).2 ⟨hfused, h.kept⟩).imp ?_
          exact fun _ _ h => Nat.le_trans h.1.2 h.2
        · exact (hbuf r hr).elim (h.added r) And.right
        · rcases List.mem_append.1 hr with hr | hr
          · rw [h₁] at hr
            obtain ⟨r', hr', rfl⟩ := List.mem_map.1 hr
            exact (hfused r' hr').1
          · exact (hbuf r hr).elim (fun hr => h.inside r (List.mem_append_right _ hr)) And.left

theorem lowered_rounds (hK : Descends K rank) (hr₁ : K r₁) (hrest : ∀ r ∈ silents rest, K r)
    (n : Nat) : Lowered K rank r₁ rest (rounds r₁ rest n) := by
  induction n with
  | zero =>
      exact ⟨List.forall₂_same.2 fun _ _ => Nat.le_refl _, fun r hr => absurd hr List.not_mem_nil,
        fun r hr => (List.mem_append.1 hr).elim (hrest r) fun hr => absurd hr List.not_mem_nil⟩
  | succ n ih =>
      rw [rounds_succ]
      exact ih.step hK hr₁ n

theorem ends_of_descends (hK : Descends K rank) : ∀ {rules : List RbpaRule},
    (∀ r ∈ silents rules, K r) → Ends rules := by
  intro rules hrules
  generalize hm : (((silents rules).map rank : List Nat) : Multiset Nat) = m
  induction m using (Descent.wellFounded_below (α := Nat)).induction generalizing rules with
  | _ m ih =>
      cases htake : takeSilent rules with
      | none => exact ends_of_takeSilent_none htake
      | some taken =>
          obtain ⟨r₁, rest⟩ := taken
          obtain ⟨others, heq, hperm⟩ := silents_of_takeSilent htake
          have hr₁ : K r₁ := hrules r₁ (by rw [heq]; exact List.mem_cons_self)
          have hrest : ∀ r ∈ silents rest, K r := by
            intro r hr
            exact hrules r (by rw [heq]; exact List.mem_cons_of_mem _ (hperm.mem_iff.2 hr))
          have hlow := lowered_rounds hK hr₁ hrest rest.length
          have hround : silents (eliminate r₁ rest) =
              silents (rounds r₁ rest rest.length).1 ++ silents (rounds r₁ rest rest.length).2 := by
            rw [eliminate, silents_append]
          refine ends_of_eliminate htake (ih _ ?_ (hround ▸ hlow.inside) rfl)
          have hkept : List.Forall₂ (· ≤ ·) ((silents (rounds r₁ rest rest.length).1).map rank)
              ((silents rest).map rank) := by
            rw [List.forall₂_map_left_iff, List.forall₂_map_right_iff]
            exact hlow.kept
          have hadded : ∀ n ∈ (silents (rounds r₁ rest rest.length).2).map rank, n < rank r₁ := by
            intro n hn
            obtain ⟨r, hr, rfl⟩ := List.mem_map.1 hn
            exact hlow.added r hr
          have hperm' : (((silents rules).map rank : List Nat) : Multiset Nat) =
              (rank r₁ :: (silents rest).map rank : List Nat) := by
            rw [heq, List.map_cons]
            exact Multiset.coe_eq_coe.2 ((hperm.map rank).cons _)
          rw [← hm, hperm', hround, List.map_append]
          exact Descent.below_of_step hkept hadded

end Descends

/-- Rules with one guard have a rank, as no composition stays by itself. -/
theorem descends_of_sameGuard (r : RbpaRule) : Descends (SameGuard r) fun _ => 0 where
  compose := by
    intro r₁ r₂ c h₁ h₂ hc
    have hsame := (h₁.symm.trans h₂).compose hc
    exact .inl (hsame.symm.fuse_compose hc)
  fuse := by
    intro r₁ r₂ c r₃ f h₁ h₂ hc h₃ hf
    have hsame := (h₁.symm.trans h₂).compose hc
    have hfuse := (h₃.symm.trans (h₂.trans hsame.symm)).fuse hf
    exact ⟨h₃.trans hfuse.symm, Nat.le_refl _⟩

/-! ## Flipping the last location -/

def Mentions (r : RbpaRule) (k : LocId) : Prop :=
  r.guard.lookup k ≠ none ∨ r.assign.lookup k ≠ none

/-- Of what the rule mentions `l` is the last, and the rule takes it to
`down l`. -/
structure LastAt (order : List LocId) (down : LocId → Bool) (r : RbpaRule) (l : LocId) : Prop where
  guard : r.guard.lookup l = some (!down l)
  assign : r.assign.lookup l = some (down l)
  last : ∃ low high, order = low ++ l :: high ∧ ∀ k, Mentions r k → k ∈ l :: low

/-- A rule that flips the last location it mentions. -/
def FlipsLast (order : List LocId) (down : LocId → Bool) (r : RbpaRule) : Prop :=
  ∃ l, LastAt order down r l

/-- How far a location is from being flipped for good. Composing with a rule
that flips it leads down, and so does losing a guard. -/
def levelOf (down : Bool) : (guard assign : Option Bool) → Nat
  | none, none => 2
  | none, some v => if v = down then 0 else 1
  | some _, none => 3
  | some u, some v => if v = u then 3 else if v = down then 1 else 4

def level (down : LocId → Bool) (r : RbpaRule) (k : LocId) : Nat :=
  levelOf (down k) (r.guard.lookup k) (r.assign.lookup k)

def levels (order : List LocId) (down : LocId → Bool) (r : RbpaRule) : Nat :=
  Nat.ofDigits 5 (order.map (level down r))

section FlipsLast

variable {order : List LocId} {down : LocId → Bool} {r r₁ r₂ c f : RbpaRule} {p q : LocId}

theorem levelOf_lt : ∀ (d : Bool) (g a : Option Bool), levelOf d g a < 5 := by decide

/-- An assignment the guard makes idle does not count. -/
theorem levelOf_normalize : ∀ (d : Bool) (g a : Option Bool),
    levelOf d g (a.filter (g != some ·)) = levelOf d g a := by decide

theorem levelOf_unguarded : ∀ (d : Bool) (g a : Option Bool), levelOf d none a ≤ levelOf d g a := by
  decide

/-- Where a location is not down yet, and is taken down. -/
theorem levelOf_flip : ∀ (d : Bool) (g a : Option Bool), (∀ w, a.or g = some w → w = !d) →
    levelOf d (if a.or g = none then some !d else g)
      ((some d).filter ((if a.or g = none then some !d else g) != some ·)) < levelOf d g a := by
  decide

/-- Of two locations of the order one comes first. -/
theorem before_or_after (hnodup : order.Nodup) {low low' high high' : List LocId}
    (h : order = low ++ p :: high) (h' : order = low' ++ q :: high') :
    p = q ∨ (p :: low ⊆ low' ∧ q ∉ p :: low) ∨ (q :: low' ⊆ low ∧ p ∉ q :: low') := by
  rcases List.append_eq_append_iff.1 (h.symm.trans h') with ⟨a, rfl, ha⟩ | ⟨a, rfl, ha⟩
  · cases a with
    | nil => exact .inl (List.cons.inj ha).1
    | cons x a =>
        obtain ⟨rfl, -⟩ := List.cons.inj ha
        have hsub : p :: low ⊆ low ++ p :: a := by simp
        refine .inr (.inl ⟨hsub, fun hq => ?_⟩)
        rw [h', List.nodup_append] at hnodup
        exact hnodup.2.2 q (hsub hq) q List.mem_cons_self rfl
  · cases a with
    | nil => exact .inl (List.cons.inj ha).1.symm
    | cons x a =>
        obtain ⟨rfl, -⟩ := List.cons.inj ha
        have hsub : q :: low' ⊆ low' ++ q :: a := by simp
        refine .inr (.inr ⟨hsub, fun hp => ?_⟩)
        rw [h, List.nodup_append] at hnodup
        exact hnodup.2.2 p (hsub hp) p List.mem_cons_self rfl

/-- Each of two rules mentions what the other flips only if they flip the
same. -/
theorem LastAt.eq_of_mentions (hnodup : order.Nodup) (h : LastAt order down r p)
    (h' : LastAt order down c q) (hr : Mentions r q) (hc : Mentions c p) : p = q := by
  obtain ⟨low, high, horder, hlast⟩ := h.last
  obtain ⟨low', high', horder', hlast'⟩ := h'.last
  rcases before_or_after hnodup horder horder' with heq | ⟨-, hq⟩ | ⟨-, hp⟩
  · exact heq
  · exact absurd (hlast q hr) hq
  · exact absurd (hlast' p hc) hp

theorem mentions_of_compose {k : LocId} (hc : r₁.compose r₂ = some c) (h : Mentions c k) :
    Mentions r₁ k ∨ Mentions r₂ k := by
  obtain ⟨g, a, hcomp⟩ := composed_of_compose hc
  by_contra hnot
  simp only [Mentions, not_or, not_not] at hnot
  obtain ⟨⟨hg₁, ha₁⟩, hg₂, ha₂⟩ := hnot
  have hguard : c.guard.lookup k = none := guard_of_compose_none hc hg₁ hg₂
  have hassign : c.assign.lookup k = none := by
    rw [hcomp.lookup_assign, hcomp.assign, ha₁, ha₂, Option.or_none, ite_self, Option.filter_none]
  exact h.elim (absurd hguard) (absurd hassign)

/-- Where the second rule says nothing the composition is like the first. -/
theorem lookups_of_compose {k : LocId} (hc : r₁.compose r₂ = some c) (hk : ¬ Mentions r₂ k) :
    c.guard.lookup k = r₁.guard.lookup k ∧
      c.assign.lookup k = (r₁.assign.lookup k).filter (r₁.guard.lookup k != some ·) := by
  obtain ⟨g, a, hcomp⟩ := composed_of_compose hc
  simp only [Mentions, not_or, not_not] at hk
  have hguard : g.lookup k = r₁.guard.lookup k := by
    rw [hcomp.guard, hk.1, Option.none_or, ite_self]
  rw [hcomp.guard_eq, hcomp.lookup_assign, hcomp.assign, if_pos hk, hk.2, Option.or_none, hguard]
  exact ⟨rfl, rfl⟩

theorem level_of_compose {k : LocId} (hc : r₁.compose r₂ = some c) (hk : ¬ Mentions r₂ k) :
    level down c k = level down r₁ k := by
  obtain ⟨hguard, hassign⟩ := lookups_of_compose hc hk
  rw [level, level, hguard, hassign, levelOf_normalize]

/-- The second rule flips what it flips. -/
theorem level_of_compose_flip (hc : r₁.compose r₂ = some c) (h : LastAt order down r₂ q) :
    level down c q < level down r₁ q := by
  obtain ⟨g, a, hcomp⟩ := composed_of_compose hc
  have hguard : g.lookup q = if r₁.outcome q = none then some !down q else r₁.guard.lookup q := by
    rw [hcomp.guard, h.guard, Option.some_or]
  have hassign : c.assign.lookup q = (some (down q)).filter (g.lookup q != some ·) := by
    rw [hcomp.lookup_assign, hcomp.assign, if_neg (by simp [h.assign]), h.assign]
  rw [level, level, hassign, hcomp.guard_eq, hguard]
  exact levelOf_flip (down q) (r₁.guard.lookup q) (r₁.assign.lookup q) (hcomp.free q _ h.guard)

theorem levels_of_compose (hnodup : order.Nodup) (hc : r₁.compose r₂ = some c)
    (h : LastAt order down r₂ q) : levels order down c < levels order down r₁ := by
  obtain ⟨low, high, rfl, hlast⟩ := h.last
  have hhigh : high.map (level down c) = high.map (level down r₁) := by
    refine List.map_congr_left fun k hk => level_of_compose hc fun hmen => ?_
    rw [List.nodup_append, List.nodup_cons] at hnodup
    rcases List.mem_cons.1 (hlast k hmen) with rfl | hlow
    · exact hnodup.2.1.1 hk
    · exact hnodup.2.2 k hlow k (List.mem_cons_of_mem _ hk) rfl
  rw [levels, levels, List.map_append, List.map_append, List.map_cons, List.map_cons, hhigh]
  refine Descent.ofDigits_lt (by decide) (fun d hd => ?_) (by simp) (level_of_compose_flip hc h)
  obtain ⟨k, -, rfl⟩ := List.mem_map.1 hd
  exact levelOf_lt _ _ _

/-- A composition flips the later of the two. -/
theorem FlipsLast.compose (hnodup : order.Nodup) (h₁ : FlipsLast order down r₁)
    (h₂ : FlipsLast order down r₂) (hc : r₁.compose r₂ = some c) : FlipsLast order down c := by
  obtain ⟨p, hp⟩ := h₁
  obtain ⟨q, hq⟩ := h₂
  obtain ⟨g, a, hcomp⟩ := composed_of_compose hc
  obtain ⟨low, high, horder, hlast⟩ := hp.last
  obtain ⟨low', high', horder', hlast'⟩ := hq.last
  rcases before_or_after hnodup horder horder' with rfl | ⟨hsub, hq₁⟩ | ⟨hsub, hp₂⟩
  · -- what the first rule has flipped the second cannot flip
    have hclash := hcomp.free p _ hq.guard (down p) (by rw [RbpaRule.outcome, hp.assign]; rfl)
    cases hd : down p <;> simp [hd] at hclash
  · have hnone : r₁.guard.lookup q = none ∧ r₁.assign.lookup q = none := by
      simpa [Mentions] using mt (hlast q) hq₁
    have hguard : g.lookup q = some !down q := by
      rw [hcomp.guard, RbpaRule.outcome, hnone.1, hnone.2, Option.or_none, if_pos rfl, hq.guard]
      rfl
    refine ⟨q, hcomp.guard_eq ▸ hguard, ?_, low', high', horder', fun k hk => ?_⟩
    · rw [hcomp.lookup_assign, hcomp.assign, if_neg (by simp [hq.assign]), hq.assign, hguard]
      simp
    · rcases mentions_of_compose hc hk with hk | hk
      · exact List.mem_cons_of_mem _ (hsub (hlast k hk))
      · exact hlast' k hk
  · obtain ⟨hguard, hassign⟩ := lookups_of_compose hc (mt (hlast' p) hp₂)
    refine ⟨p, by rw [hguard, hp.guard], ?_, low, high, horder, fun k hk => ?_⟩
    · rw [hassign, hp.guard, hp.assign]
      simp
    · rcases mentions_of_compose hc hk with hk | hk
      · exact hlast k hk
      · exact List.mem_cons_of_mem _ (hsub (hlast' k hk))

/-! ## Fusing keeps what is flipped -/

/-- A fused guard is the first rule's, less what it is fused at. -/
theorem guard_of_fuse {g : FuseCase} (h : Fused r c f g) (k : LocId) :
    f.guard.lookup k = none ∨ f.guard.lookup k = r.guard.lookup k := by
  have hrel := h.related
  rw [h.rule]
  show (fusedGuard r c g).lookup k = none ∨ (fusedGuard r c g).lookup k = _
  cases g with
  | identical | leftSubsumes => exact .inr rfl
  | rightSubsumes =>
      have hids := lookups_of_guardIds hrel fun k _ hb => .inl hb
      exact (hids k).imp_right Eq.symm
  | partitionAt id =>
      by_cases hk : k = id
      · rw [fusedGuard, hk]
        exact .inl (AList.lookup_erase _ _)
      · rw [fusedGuard, AList.lookup_erase_ne hk]
        exact .inr rfl

theorem assign_of_fuse {g : FuseCase} (h : Fused r c f g) (k : LocId) :
    f.assign.lookup k = (r.assign.lookup k).filter (f.guard.lookup k != some ·) := by
  rw [h.rule]
  exact HashMap.lookup_retain _ _ _

theorem level_of_fuse {g : FuseCase} (h : Fused r c f g) (k : LocId) :
    level down f k ≤ level down r k := by
  rw [level, level, assign_of_fuse h k, levelOf_normalize]
  rcases guard_of_fuse h k with hk | hk
  · rw [hk]
    exact levelOf_unguarded _ _ _
  · rw [hk]

/-- What the rule flips stays in its guard. -/
theorem LastAt.guard_of_fuse {g : FuseCase} (hnodup : order.Nodup) (h : LastAt order down r p)
    (hq : LastAt order down c q) (hf : Fused r c f g) : f.guard.lookup p = some !down p := by
  have hrel := hf.related
  have hdown : c.outcome p = some (down p) := by
    rw [← hf.outcome p (.inl (by simp [h.guard])), RbpaRule.outcome, h.assign, Option.some_or]
  rw [hf.rule]
  show (fusedGuard r c g).lookup p = _
  cases g with
  | identical | leftSubsumes => exact h.guard
  | rightSubsumes =>
      have hids := lookups_of_guardIds hrel fun k _ hb => .inl hb
      rcases hids p with hnone | heq
      · -- then the composition assigns it, and the rule has what that one flips
        rw [RbpaRule.outcome, hnone, Option.or_none] at hdown
        have heq : r.guard.lookup q = c.guard.lookup q :=
          (hids q).resolve_left (by simp [hq.guard])
        have hpq := h.eq_of_mentions hnodup hq (.inl (by simp [heq, hq.guard]))
          (.inr (by simp [hdown]))
        rw [hpq, hq.guard] at hnone
        cases hnone
      · rw [fusedGuard, ← heq, h.guard]
  | partitionAt id =>
      obtain ⟨⟨v, hr, hc⟩, hids⟩ := hrel
      have hne : p ≠ id := by
        rintro rfl
        -- the composition asks for it to be down, so it flips something else
        obtain rfl : v = !down p := Option.some.inj (hr.symm.trans h.guard)
        rw [Bool.not_not] at hc
        have hqp : q ≠ p := by
          rintro rfl
          rw [hq.guard] at hc
          cases hd : down q <;> simp [hd] at hc
        have heq := lookups_of_guardIds hids (fun k ha hb _ => ha.trans hb.symm) q hqp
        exact hqp (h.eq_of_mentions hnodup hq (.inl (by simp [heq, hq.guard]))
          (.inl (by simp [hc]))).symm
      rw [fusedGuard, AList.lookup_erase_ne hne, h.guard]

theorem FlipsLast.fuse (hnodup : order.Nodup) (h : FlipsLast order down r)
    (hc : FlipsLast order down c) (hf : r.fuse c = some f) : FlipsLast order down f := by
  obtain ⟨p, hp⟩ := h
  obtain ⟨q, hq⟩ := hc
  obtain ⟨g, hfused⟩ := fused_of_fuse hf
  obtain ⟨low, high, horder, hlast⟩ := hp.last
  have hguard := hp.guard_of_fuse hnodup hq hfused
  refine ⟨p, hguard, ?_, low, high, horder, fun k hk => hlast k ?_⟩
  · rw [assign_of_fuse hfused, hguard, hp.assign]
    simp
  · rcases hk with hk | hk
    · exact .inl fun hnone => hk ((guard_of_fuse hfused k).elim id fun heq => heq.trans hnone)
    · exact .inr fun hnone => hk (by rw [assign_of_fuse hfused, hnone, Option.filter_none])

theorem levels_of_fuse (hf : r.fuse c = some f) : levels order down f ≤ levels order down r := by
  obtain ⟨g, hfused⟩ := fused_of_fuse hf
  refine Descent.ofDigits_le ?_
  rw [List.forall₂_map_left_iff, List.forall₂_map_right_iff]
  exact List.forall₂_same.2 fun k _ => level_of_fuse hfused k

/-- Rules that flip the last location they mention have a rank. -/
theorem descends_of_flipsLast (hnodup : order.Nodup) :
    Descends (FlipsLast order down) (levels order down) where
  compose := by
    intro r₁ r₂ c h₁ h₂ hc
    obtain ⟨q, hq⟩ := h₂
    exact .inr ⟨h₁.compose hnodup ⟨q, hq⟩ hc, levels_of_compose hnodup hc hq⟩
  fuse := by
    intro r₁ r₂ c r f h₁ h₂ hc hr hf
    exact ⟨hr.fuse hnodup (h₁.compose hnodup h₂ hc) hf, levels_of_fuse hf⟩

end FlipsLast

/-! ## When the loop ends -/

/-- `normalize` ends if at most two rules are silent, if no silent rule follows
another, if all the silent rules have one guard, if they have a rank, or if each
flips the last location it mentions. -/
theorem normalize_ends (rules : List RbpaRule)
    (h : (silents rules).length ≤ 2 ∨ (silents rules).Pairwise Apart ∨
      (∀ a ∈ silents rules, ∀ b ∈ silents rules, SameGuard a b) ∨
      (∃ K rank, Descends K rank ∧ ∀ r ∈ silents rules, K r) ∨
      ∃ order down, order.Nodup ∧ ∀ r ∈ silents rules, FlipsLast order down r) :
    ∃ fuel result, Rbpa.normalize fuel rules = some result := by
  have hends : Ends rules := by
    rcases h with h | h | h | ⟨K, rank, hK, h⟩ | ⟨order, down, hnodup, h⟩
    · exact ends_of_length_le_two h
    · exact ends_of_apart h
    · cases hs : silents rules with
      | nil => exact ends_of_apart (by rw [hs]; exact List.Pairwise.nil)
      | cons r rest => exact ends_of_descends (descends_of_sameGuard r) (h r (by simp [hs]))
    · exact ends_of_descends hK h
    · exact ends_of_descends (descends_of_flipsLast hnodup) h
  obtain ⟨fuel, result, hresult⟩ := hends
  exact ⟨fuel, dedup result, by rw [Rbpa.normalize, hresult, Option.map_some]⟩

/-! ## A chain of four cells -/

/-- The rule that hands the datum of one cell on to another. -/
def handsOn (src dst : LocId) : RbpaRule :=
  ⟨none, ((∅ : StatePred).insert src true).insert dst false,
    ((∅ : StatePred).insert src false).insert dst true⟩

/-- Four cells between two ports. -/
def fourCells : List RbpaRule :=
  [⟨some 4, (∅ : StatePred).insert 0 false, (∅ : StatePred).insert 0 true⟩,
    handsOn 0 1, handsOn 1 2, handsOn 2 3,
    ⟨some 5, (∅ : StatePred).insert 3 true, (∅ : StatePred).insert 3 false⟩]

theorem lastAt_handsOn (low high : List LocId) {src dst : LocId} (hne : src ≠ dst)
    (hdst : dst ∈ low) :
    LastAt (low ++ src :: high) (fun _ => false) (handsOn src dst) src where
  guard := by simp [handsOn, AList.lookup_insert_ne hne, -AList.insert_empty]
  assign := by simp [handsOn, AList.lookup_insert_ne hne, -AList.insert_empty]
  last := by
    refine ⟨low, high, rfl, fun k hk => ?_⟩
    by_contra hnot
    have hksrc : k ≠ src := fun h => hnot (h ▸ List.mem_cons_self)
    have hkdst : k ≠ dst := fun h => hnot (h ▸ List.mem_cons_of_mem _ hdst)
    simp [Mentions, handsOn, AList.lookup_insert_ne hksrc, AList.lookup_insert_ne hkdst,
      -AList.insert_empty] at hk

/-- Data only ever move on, and the first of two cells is emptied. -/
theorem normalize_ends_fourCells :
    ∃ fuel result, Rbpa.normalize fuel fourCells = some result := by
  refine normalize_ends fourCells (.inr (.inr (.inr (.inr ⟨[3, 2, 1, 0], fun _ => false,
    by decide, ?_⟩))))
  have hsilents : silents fourCells = [handsOn 0 1, handsOn 1 2, handsOn 2 3] := rfl
  rw [hsilents, List.forall_mem_cons, List.forall_mem_cons, List.forall_mem_singleton]
  exact ⟨⟨0, lastAt_handsOn [3, 2, 1] [] (by decide) (by decide)⟩,
    ⟨1, lastAt_handsOn [3, 2] [0] (by decide) (by decide)⟩,
    ⟨2, lastAt_handsOn [3] [1, 0] (by decide) (by decide)⟩⟩

/-! ## A circle of three

One rule asks for cell 0 to be empty, one for nothing, and one for it to be
full; none of them changes anything. Taking out the first brings the last to the
front. The first then composes with the rule that asks for nothing, which gives
the first again, at the end of the list. Two rounds later the list is what it
was.
-/

def keepsEmpty : RbpaRule := ⟨none, (∅ : StatePred).insert 0 false, ∅⟩

def idles : RbpaRule := ⟨none, ∅, ∅⟩

def keepsFull : RbpaRule := ⟨none, (∅ : StatePred).insert 0 true, ∅⟩

theorem eliminateAll_circle : ∀ fuel,
    eliminateAll fuel [keepsEmpty, idles, keepsFull] = none ∧
      eliminateAll fuel [keepsFull, idles, keepsEmpty] = none
  | 0 => ⟨rfl, rfl⟩
  | fuel + 1 => by
      obtain ⟨h, h'⟩ := eliminateAll_circle fuel
      exact ⟨h', h⟩

theorem normalize_not_ends :
    ¬ ∃ fuel result, Rbpa.normalize fuel [keepsEmpty, idles, keepsFull] = some result := by
  intro ⟨fuel, result, h⟩
  rw [Rbpa.normalize, (eliminateAll_circle fuel).1] at h
  cases h

end Rbpa

end ReoRs
