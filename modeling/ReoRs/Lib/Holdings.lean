import Mathlib.Algebra.Order.Group.Multiset
import Mathlib.Data.Multiset.Filter
import Mathlib.Data.Multiset.Range
import Mathlib.Logic.Equiv.Basic
import Mathlib.Tactic.Abel

/-!
# What many places hold together

Places are numbered, and each holds one thing or nothing. The whole is a
multiset, so that nothing can be in two places without being counted twice. It
changes with the one place that changes, and not at all if things only change
places.
-/

namespace Holdings

variable {α β : Type*} {n p q : ℕ} {f g : ℕ → Option α}

/-- What the places below `n` hold. -/
def total (n : ℕ) (f : ℕ → Option α) : Multiset α := (Multiset.range n).filterMap f

/-- What one place holds. -/
def one (o : Option α) : Multiset α := (o.map ({·})).getD 0

@[simp] theorem one_none : one (none : Option α) = 0 := rfl

@[simp] theorem one_some (a : α) : one (some a) = {a} := rfl

theorem mem_total {a : α} : a ∈ total n f ↔ ∃ l < n, f l = some a := by
  rw [total, Multiset.mem_filterMap]
  simp only [Multiset.mem_range]

theorem filterMap_congr {s : Multiset ℕ} (h : ∀ l ∈ s, f l = g l) :
    s.filterMap f = s.filterMap g := by
  induction s using Quotient.inductionOn with
  | _ l => exact congrArg _ (List.filterMap_congr h)

theorem total_congr (h : ∀ l < n, f l = g l) : total n f = total n g :=
  filterMap_congr fun l hl => h l (Multiset.mem_range.1 hl)

/-- Only one place changes. -/
theorem total_update (hp : p < n) (h : ∀ l, l ≠ p → g l = f l) :
    total n g + one (f p) = total n f + one (g p) := by
  have hrange : Multiset.range n = p ::ₘ (Multiset.range n).erase p :=
    (Multiset.cons_erase (Multiset.mem_range.2 hp)).symm
  have hrest : ((Multiset.range n).erase p).filterMap g =
      ((Multiset.range n).erase p).filterMap f := by
    refine filterMap_congr fun l hl => h l ?_
    exact ((Multiset.nodup_range n).mem_erase_iff.1 hl).1
  rw [total, total, hrange, Multiset.filterMap_cons, Multiset.filterMap_cons, hrest, one, one]
  abel

/-- Two places exchange what they hold. -/
theorem total_swap (hp : p < n) (hq : q < n) (hgp : g p = f q) (hgq : g q = f p)
    (h : ∀ l, l ≠ p → l ≠ q → g l = f l) : total n g = total n f := by
  have hg : g = f ∘ Equiv.swap p q := by
    funext l
    by_cases hlp : l = p
    · rw [hlp, Function.comp_apply, Equiv.swap_apply_left, hgp]
    · by_cases hlq : l = q
      · rw [hlq, Function.comp_apply, Equiv.swap_apply_right, hgq]
      · rw [Function.comp_apply, Equiv.swap_apply_of_ne_of_ne hlp hlq, h l hlp hlq]
  have hperm : (Multiset.range n).map (Equiv.swap p q) = Multiset.range n := by
    refine (Multiset.Nodup.ext ?_ (Multiset.nodup_range n)).2 fun l => ?_
    · exact (Multiset.nodup_range n).map (Equiv.swap p q).injective
    · have hlt : ∀ l, Equiv.swap p q l < n ↔ l < n := by
        intro l
        by_cases hlp : l = p
        · rw [hlp, Equiv.swap_apply_left]
          exact iff_of_true hq hp
        · by_cases hlq : l = q
          · rw [hlq, Equiv.swap_apply_right]
            exact iff_of_true hp hq
          · rw [Equiv.swap_apply_of_ne_of_ne hlp hlq]
      simp only [Multiset.mem_map, Multiset.mem_range]
      constructor
      · rintro ⟨k, hk, rfl⟩
        exact (hlt k).2 hk
      · exact fun hl => ⟨Equiv.swap p q l, (hlt l).2 hl, Equiv.swap_apply_self p q l⟩
  rw [total, hg, ← Multiset.filterMap_map, hperm, total]

/-- Many pairs of places do, no two of which have a place in common. -/
theorem total_exchange : ∀ {pairs : List (ℕ × ℕ)} {f g : ℕ → Option α},
    pairs.Pairwise (fun x y => x.1 ≠ y.1 ∧ x.1 ≠ y.2 ∧ x.2 ≠ y.1 ∧ x.2 ≠ y.2) →
      (∀ x ∈ pairs, x.1 < n ∧ x.2 < n ∧ g x.1 = f x.2 ∧ g x.2 = f x.1) →
        (∀ l, (∀ x ∈ pairs, l ≠ x.1 ∧ l ≠ x.2) → g l = f l) → total n g = total n f
  | [], f, g, _, _, hothers => total_congr fun l _ => hothers l fun x hx => by cases hx
  | (p, q) :: pairs, f, g, hapart, hpairs, hothers => by
      obtain ⟨hfirst, hrest⟩ := List.pairwise_cons.1 hapart
      obtain ⟨hp, hq, hgp, hgq⟩ := hpairs (p, q) List.mem_cons_self
      -- the first pair has changed places, the others are yet to
      have hswapped : ∀ l, l ≠ p → l ≠ q → (f ∘ Equiv.swap p q) l = f l := fun l hlp hlq => by
        rw [Function.comp_apply, Equiv.swap_apply_of_ne_of_ne hlp hlq]
      have hmid : total n (f ∘ Equiv.swap p q) = total n f := by
        refine total_swap hp hq ?_ ?_ hswapped
        · rw [Function.comp_apply, Equiv.swap_apply_left]
        · rw [Function.comp_apply, Equiv.swap_apply_right]
      rw [← hmid]
      refine total_exchange hrest (fun x hx => ?_) fun l hl => ?_
      · obtain ⟨h₁, h₂, h₃, h₄⟩ := hfirst x hx
        obtain ⟨hx₁, hx₂, hg₁, hg₂⟩ := hpairs x (List.mem_cons_of_mem _ hx)
        exact ⟨hx₁, hx₂, hg₁.trans (hswapped _ (Ne.symm h₂) (Ne.symm h₄)).symm,
          hg₂.trans (hswapped _ (Ne.symm h₁) (Ne.symm h₃)).symm⟩
      · by_cases hlp : l = p
        · rw [hlp, hgp, Function.comp_apply, Equiv.swap_apply_left]
        · by_cases hlq : l = q
          · rw [hlq, hgq, Function.comp_apply, Equiv.swap_apply_right]
          · rw [hswapped l hlp hlq]
            refine hothers l fun x hx => ?_
            rcases List.mem_cons.1 hx with rfl | hx
            · exact ⟨hlp, hlq⟩
            · exact hl x hx

/-- What is behind the things held. -/
theorem filterMap_total (r : α → Option β) :
    (total n f).filterMap r = total n fun l => (f l).bind r := by
  rw [total, Multiset.filterMap_filterMap, total]

/-- What a collection and one thing more bring. -/
theorem filterMap_cons (r : α → Option β) (a : α) (m : Multiset α) :
    (a ::ₘ m).filterMap r = one (r a) + m.filterMap r := by
  rw [Multiset.filterMap_cons, one]

/-- A thing put where another may be. If there is at most one thing in all,
nothing was there. -/
theorem one_or_add {o e : Option α} {m : Multiset α}
    (h : Multiset.card (one e + (one o + m)) ≤ 1) :
    one (o.or e) + m = one e + (one o + m) := by
  cases o with
  | none => rw [Option.none_or, one_none, zero_add]
  | some a =>
      cases e with
      | none => rw [Option.some_or, one_none, zero_add]
      | some b =>
          rw [one_some, one_some, Multiset.card_add, Multiset.card_add, Multiset.card_singleton,
            Multiset.card_singleton] at h
          omega

theorem card_one_le (o : Option α) : Multiset.card (one o) ≤ 1 := by
  cases o with
  | none => exact Nat.zero_le 1
  | some a => rw [one_some, Multiset.card_singleton]

/-- One place and many others hold at most one thing: it is here, or there. -/
theorem eq_or_of_one_add {o e : Option α} {m : Multiset α} (h : one e + m = one o) :
    (e = o ∧ m = 0) ∨ (e = none ∧ m = one o) := by
  cases e with
  | none => exact .inr ⟨rfl, by rwa [one_none, zero_add] at h⟩
  | some a =>
      have hcard := congrArg Multiset.card h
      have hle := card_one_le o
      rw [Multiset.card_add, one_some, Multiset.card_singleton] at hcard
      obtain rfl : m = 0 := Multiset.card_eq_zero.1 (by omega)
      rw [add_zero] at h
      cases o with
      | none => exact absurd h.symm (Multiset.zero_ne_singleton a)
      | some b => exact .inl ⟨congrArg some (Multiset.singleton_inj.1 h), rfl⟩

/-- Places that hold different things hold no thing twice. -/
theorem nodup_total (h : ∀ p q a, f p = some a → f q = some a → p = q) : (total n f).Nodup :=
  Multiset.Nodup.filterMap f (fun p q a hp hq => h p q a hp hq) (Multiset.nodup_range n)

/-- What a log brings, of which its newest entry brings one. -/
theorem coe_filterMap_cons {γ : Type*} (f : γ → Option α) (a : γ) (l : List γ) :
    (((a :: l).filterMap f : List α) : Multiset α) =
      one (f a) + ((l.filterMap f : List α) : Multiset α) := by
  cases h : f a with
  | none =>
      rw [List.filterMap_cons_none h, one_none, zero_add]
  | some b =>
      rw [List.filterMap_cons_some h, one_some, ← Multiset.cons_coe, Multiset.singleton_add]

end Holdings
