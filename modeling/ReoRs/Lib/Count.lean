import Mathlib.Data.List.Count
import Mathlib.Algebra.BigOperators.Group.List.Basic
import Mathlib.Algebra.Ring.Nat
import Mathlib.Tactic.Common

/-!
# Counting the entries of a list that is updated in place

Concurrent invariants are balances: so many threads at such a point, so much
in a counter. A step of one thread rewrites one entry of the list of threads,
and what it does to a count is the difference that one entry makes. Stated
additively, so that `omega` can use it, that is `countP_set_add`.
-/

namespace Count

variable {α : Type*} {p : α → Bool}

theorem countP_set_add {xs : List α} {i : Nat} {x : α} (hx : xs[i]? = some x) (y : α) :
    (xs.set i y).countP p + (p x).toNat = xs.countP p + (p y).toNat := by
  induction xs generalizing i with
  | nil => simp at hx
  | cons z zs ih =>
      cases i with
      | zero =>
          obtain rfl : z = x := by simpa using hx
          simp only [List.set_cons_zero, List.countP_cons]
          cases p z <;> cases p y <;> simp
      | succ i =>
          have hx' : zs[i]? = some x := by simpa using hx
          have := ih hx'
          simp only [List.set_cons_succ, List.countP_cons]
          omega

theorem countP_pos_of_getElem? {xs : List α} {i : Nat} {x : α} (hx : xs[i]? = some x)
    (hp : p x = true) : 0 < xs.countP p :=
  List.countP_pos_iff.2 ⟨x, List.mem_of_getElem? hx, hp⟩

theorem exists_getElem?_of_countP_pos {xs : List α} (h : 0 < xs.countP p) :
    ∃ (i : Nat) (x : α), xs[i]? = some x ∧ p x = true := by
  obtain ⟨x, hx, hp⟩ := List.countP_pos_iff.1 h
  obtain ⟨i, hi⟩ := List.getElem?_of_mem hx
  exact ⟨i, x, hi, hp⟩

/-- Of the entries a count of one allows, two are the same. -/
theorem eq_of_countP_le_one {xs : List α} (h : xs.countP p ≤ 1) {i j : Nat} {x y : α}
    (hx : xs[i]? = some x) (hy : xs[j]? = some y) (hpx : p x = true) (hpy : p y = true) :
    i = j := by
  induction xs generalizing i j with
  | nil => simp at hx
  | cons z zs ih =>
      rw [List.countP_cons] at h
      cases i with
      | zero =>
          cases j with
          | zero => rfl
          | succ j =>
              obtain rfl : z = x := by simpa using hx
              have := countP_pos_of_getElem? (p := p) (show zs[j]? = some y by simpa using hy) hpy
              rw [if_pos hpx] at h
              omega
      | succ i =>
          have hx' : zs[i]? = some x := by simpa using hx
          cases j with
          | zero =>
              obtain rfl : z = y := by simpa using hy
              have := countP_pos_of_getElem? (p := p) hx' hpx
              rw [if_pos hpy] at h
              omega
          | succ j =>
              rw [ih (by omega) hx' (by simpa using hy)]

/-- And a count of two makes two different ones. -/
theorem exists_two_of_two_le_countP {xs : List α} (h : 2 ≤ xs.countP p) :
    ∃ (i j : Nat) (x y : α), i ≠ j ∧ xs[i]? = some x ∧ xs[j]? = some y ∧ p x = true ∧
      p y = true := by
  induction xs with
  | nil => simp at h
  | cons z zs ih =>
      rw [List.countP_cons] at h
      by_cases hz : p z = true
      · rw [if_pos hz] at h
        obtain ⟨j, y, hy, hpy⟩ := exists_getElem?_of_countP_pos (show 0 < zs.countP p by omega)
        exact ⟨0, j + 1, z, y, by omega, rfl, by simpa using hy, hz, hpy⟩
      · rw [if_neg hz] at h
        obtain ⟨i, j, x, y, hij, hx, hy, hpx, hpy⟩ := ih h
        exact ⟨i + 1, j + 1, x, y, by omega, by simpa using hx, by simpa using hy, hpx, hpy⟩

/-- The same for a sum over the entries. -/
theorem sum_map_set_add {f : α → Nat} {xs : List α} {i : Nat} {x : α} (hx : xs[i]? = some x)
    (y : α) : ((xs.set i y).map f).sum + f x = (xs.map f).sum + f y := by
  induction xs generalizing i with
  | nil => simp at hx
  | cons z zs ih =>
      cases i with
      | zero =>
          obtain rfl : z = x := by simpa using hx
          simp only [List.set_cons_zero, List.map_cons, List.sum_cons]
          omega
      | succ i =>
          have := ih (show zs[i]? = some x by simpa using hx)
          simp only [List.set_cons_succ, List.map_cons, List.sum_cons]
          omega

/-- An update that a function of the entry does not see. -/
theorem map_set_of_eq {β : Type*} {f : α → β} {xs : List α} {i : Nat} {x y : α}
    (hx : xs[i]? = some x) (h : f y = f x) : (xs.set i y).map f = xs.map f := by
  obtain ⟨hi, rfl⟩ := List.getElem?_eq_some_iff.1 hx
  rw [List.map_set, h, ← List.getElem_map f (h := by simpa using hi), List.set_getElem_self]

/-- A property of every entry survives an update by an entry that has it. -/
theorem forall_mem_set {P : α → Prop} {xs : List α} {i : Nat} {y : α}
    (h : ∀ x ∈ xs, P x) (hy : P y) : ∀ x ∈ xs.set i y, P x := by
  intro x hx
  rcases List.mem_or_eq_of_mem_set hx with hmem | rfl
  · exact h x hmem
  · exact hy

/-! ## Counting indices

The entries may as well be the values of a function on an initial segment of
the numbers, with the function updated at one of them. -/

section UpTo

variable {n : Nat} {f g : Nat → Bool}

def upTo (n : Nat) (f : Nat → Bool) : Nat := (List.range n).countP f

theorem upTo_succ (n : Nat) (f : Nat → Bool) : upTo (n + 1) f = upTo n f + (f n).toNat := by
  rw [upTo, List.range_succ, List.countP_append, List.countP_singleton]
  cases f n <;> rfl

theorem upTo_congr (h : ∀ i, i < n → f i = g i) : upTo n f = upTo n g :=
  List.countP_congr fun i hi => by rw [h i (List.mem_range.1 hi)]

theorem upTo_update {i : Nat} (hi : i < n) (h : ∀ j, j ≠ i → g j = f j) :
    upTo n g + (f i).toNat = upTo n f + (g i).toNat := by
  induction n with
  | zero => omega
  | succ n ih =>
      rw [upTo_succ, upTo_succ]
      by_cases hn : n = i
      · subst hn
        rw [upTo_congr (f := g) (g := f) fun j hj => h j (Nat.ne_of_lt hj)]
        omega
      · have := ih (by omega)
        rw [h n hn]
        omega

theorem upTo_eq_zero : upTo n f = 0 ↔ ∀ i, i < n → f i = false := by
  rw [upTo, List.countP_eq_zero]
  exact ⟨fun h i hi => Bool.eq_false_iff.2 (h i (List.mem_range.2 hi)),
    fun h i hi => Bool.eq_false_iff.1 (h i (List.mem_range.1 hi))⟩

theorem upTo_pos {i : Nat} (hi : i < n) (h : f i = true) : 0 < upTo n f :=
  List.countP_pos_iff.2 ⟨i, List.mem_range.2 hi, h⟩

/-- What only loses members, and one at least, gets smaller. -/
theorem upTo_lt_upTo (hsub : ∀ i, g i = true → f i = true) {i : Nat} (hi : i < n)
    (hf : f i = true) (hg : g i = false) : upTo n g < upTo n f := by
  have hupdate := upTo_update (f := f) (g := Function.update f i false) hi
    fun j hj => Function.update_of_ne hj false f
  rw [Function.update_self, hf] at hupdate
  have hle : upTo n g ≤ upTo n (Function.update f i false) := by
    refine List.countP_mono_left fun j _ hj => ?_
    by_cases hji : j = i
    · rw [hji, hg] at hj
      cases hj
    · rw [Function.update_of_ne hji]
      exact hsub j hj
  have hlt : upTo n (Function.update f i false) < upTo n f := by
    simp only [Bool.toNat_true, Bool.toNat_false] at hupdate
    omega
  exact Nat.lt_of_le_of_lt hle hlt

theorem exists_of_upTo_pos (h : 0 < upTo n f) : ∃ i, i < n ∧ f i = true := by
  obtain ⟨i, hi, hf⟩ := List.countP_pos_iff.1 h
  exact ⟨i, List.mem_range.1 hi, hf⟩

theorem eq_of_upTo_le_one (h : upTo n f ≤ 1) {i j : Nat} (hi : i < n) (hj : j < n)
    (hfi : f i = true) (hfj : f j = true) : i = j :=
  eq_of_countP_le_one h (List.getElem?_range hi) (List.getElem?_range hj) hfi hfj

/-- Counting the members of a list without repetition. -/
theorem upTo_eq_length {xs : List Nat} (hnd : xs.Nodup) (hlt : ∀ x ∈ xs, x < n)
    (h : ∀ i, f i = true ↔ i ∈ xs) : upTo n f = xs.length := by
  rw [upTo, List.countP_eq_length_filter]
  refine List.Perm.length_eq ((List.perm_ext_iff_of_nodup (List.nodup_range.filter _) hnd).2 ?_)
  intro i
  rw [List.mem_filter, List.mem_range, h]
  exact ⟨fun hi => hi.2, fun hi => ⟨hlt i hi, hi⟩⟩

end UpTo

/-! ## Summing over indices

And an update at one index changes a sum by what that index has. -/

section SumTo

variable {n : Nat} {f g : Nat → Nat}

def sumTo (n : Nat) (f : Nat → Nat) : Nat := ((List.range n).map f).sum

theorem sumTo_succ (n : Nat) (f : Nat → Nat) : sumTo (n + 1) f = sumTo n f + f n := by
  rw [sumTo, List.range_succ, List.map_append, List.sum_append, List.map_singleton,
    List.sum_singleton]
  rfl

theorem sumTo_update {i : Nat} (hi : i < n) (h : ∀ j, j ≠ i → g j = f j) :
    sumTo n g + f i = sumTo n f + g i := by
  induction n with
  | zero => omega
  | succ n ih =>
      rw [sumTo_succ, sumTo_succ]
      by_cases hn : n = i
      · subst hn
        have hbelow : sumTo n g = sumTo n f := by
          rw [sumTo, sumTo, List.map_congr_left]
          exact fun j hj => h j (Nat.ne_of_lt (List.mem_range.1 hj))
        omega
      · have := ih (by omega)
        rw [h n hn]
        omega

/-- A sum is no more than its largest term as often as there are terms. -/
theorem sumTo_le_mul_upTo {k : Nat} {p : Nat → Bool} (h : ∀ i, f i ≤ k * (p i).toNat) :
    sumTo n f ≤ k * upTo n p := by
  induction n with
  | zero => exact Nat.zero_le _
  | succ n ih =>
      rw [sumTo_succ, upTo_succ, Nat.mul_add]
      exact Nat.add_le_add ih (h n)

end SumTo

end Count
