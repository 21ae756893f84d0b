import Mathlib.Data.Nat.Digits.Lemmas
import ReoRs.Tokens

/-!
# What a nesting of digit types denotes

A nesting of digits has to stand for one port and no other, for the number it
carries is all that `match_head` looks at. The macro adds a digit to the number
of what is inside without multiplying that by ten, in either order of reading.
So `N` is the sum of the digits. It is the number that was written only where
the digits other than the unit are zero, and even then it is not alone: the
same digits the other way round have the same sum.

What remains are the single digits, which have no other order, and the zeroes.
-/

namespace ReoRs

namespace Decimal

/-! ## Digits -/

theorem N_eq_sum : ∀ p : Decimal, p.N = (p.digits.map Fin.val).sum
  | .e digit => (Nat.add_zero _).symm
  | .d digit inner => by rw [N, digits, List.map_cons, List.sum_cons, N_eq_sum inner, Nat.add_comm]

theorem digits_ne_nil : ∀ p : Decimal, p.digits ≠ []
  | .e _ => List.cons_ne_nil _ _
  | .d _ _ => List.cons_ne_nil _ _

theorem digits_injective : ∀ {p q : Decimal}, p.digits = q.digits → p = q
  | .e _, .e _, h => by rw [(List.cons.inj h).1]
  | .e _, .d _ inner, h => absurd (List.cons.inj h).2.symm inner.digits_ne_nil
  | .d _ inner, .e _, h => absurd (List.cons.inj h).2 inner.digits_ne_nil
  | .d _ p, .d _ q, h => by rw [(List.cons.inj h).1, digits_injective (List.cons.inj h).2]

/-- Every sequence of digits but the empty one is a nesting. -/
theorem exists_digits : ∀ {ds : List (Fin 10)}, ds ≠ [] → ∃ p : Decimal, p.digits = ds
  | [], h => absurd rfl h
  | [digit], _ => ⟨.e digit, rfl⟩
  | digit :: next :: ds, _ => by
      obtain ⟨p, hp⟩ := exists_digits (List.cons_ne_nil next ds)
      exact ⟨.d digit p, by rw [digits, hp]⟩

/-! ## Two directions -/

/-- Which digit is the unit. -/
inductive Direction where
  | outermostFirst
  | innermostFirst

/-- The digits from the unit on. -/
def fromUnit (p : Decimal) : Direction → List (Fin 10)
  | .outermostFirst => p.digits.reverse
  | .innermostFirst => p.digits

/-- The number that is written. In the first direction the outermost digit is
the leading one. -/
def read (p : Decimal) (dir : Direction) : Nat := Nat.ofDigits 10 ((p.fromUnit dir).map Fin.val)

theorem N_eq_sum_fromUnit (p : Decimal) (dir : Direction) :
    p.N = ((p.fromUnit dir).map Fin.val).sum := by
  rw [N_eq_sum]
  cases dir with
  | outermostFirst => rw [fromUnit, List.map_reverse, List.sum_reverse]
  | innermostFirst => rfl

theorem mem_fromUnit (p : Decimal) (dir : Direction) (digit : Fin 10) :
    digit ∈ p.fromUnit dir ↔ digit ∈ p.digits := by
  cases dir with
  | outermostFirst => exact List.mem_reverse
  | innermostFirst => exact Iff.rfl

theorem length_fromUnit (p : Decimal) (dir : Direction) :
    (p.fromUnit dir).length = p.digits.length := by
  cases dir with
  | outermostFirst => exact List.length_reverse
  | innermostFirst => rfl

theorem exists_unit (p : Decimal) (dir : Direction) :
    ∃ unit rest, p.fromUnit dir = unit :: rest := by
  refine List.exists_cons_of_ne_nil fun hnil => p.digits_ne_nil ?_
  rw [← List.length_eq_zero_iff, ← length_fromUnit p dir, hnil]
  rfl

/-- The sum of the digits is the number itself if only the unit counts. -/
theorem sum_eq_ofDigits_iff (unit : Nat) (rest : List Nat) :
    (unit :: rest).sum = Nat.ofDigits 10 (unit :: rest) ↔ ∀ digit ∈ rest, digit = 0 := by
  have hle := Nat.sum_le_ofDigits (p := 10) rest (by decide)
  rw [List.sum_cons, Nat.ofDigits_cons, ← List.sum_eq_zero_iff_forall_eq_nat]
  constructor
  · intro h
    have hten : rest.sum = 10 * Nat.ofDigits 10 rest := Nat.add_left_cancel h
    omega
  · intro hsum
    have hzero : ∀ digit ∈ rest, digit = 0 := List.sum_eq_zero_iff_forall_eq_nat.1 hsum
    rw [hsum, List.eq_replicate_of_mem hzero, Nat.ofDigits_replicate_zero]

/-- `N` is the number that is written if and only if all digits but the unit
are zero. -/
theorem N_eq_read_iff {p : Decimal} {dir : Direction} {unit : Fin 10} {rest : List (Fin 10)}
    (h : p.fromUnit dir = unit :: rest) : p.N = p.read dir ↔ ∀ digit ∈ rest, digit = 0 := by
  rw [N_eq_sum_fromUnit p dir, read, h, List.map_cons, sum_eq_ofDigits_iff, List.forall_mem_map]
  exact forall₂_congr fun digit _ => Fin.val_eq_zero_iff

/-! ## One port -/

/-- The coupon for a port is handed out where its number is found. -/
theorem matchHead_eq_ok {b n : Branch} {rest : List Branch} {self : Discerned2 (b :: n :: rest)}
    {c : Coupon b.port b.state} (h : self.matchHead = some (.ok c)) :
    ∃ x, self.data = some (b.port.N, x) := by
  rw [Discerned2.matchHead] at h
  cases hd : self.data with
  | none =>
      simp only [hd] at h
      cases h
  | some d =>
      simp only [hd] at h
      split at h
      · next hmatch => exact ⟨d.2, by rw [hmatch.1]⟩
      · cases h

/-- The nesting `p`, read in one direction, stands for one port. -/
structure DenotesPort (dir : Direction) (p : Decimal) : Prop where
  value : p.N = p.read dir
  unique : ∀ q : Decimal, q.digits.length = p.digits.length → q.N = p.N → q = p
  selects : ∀ {b n : Branch} {rest : List Branch} (self : Discerned2 (b :: n :: rest))
    (c : Coupon b.port b.state), b.port = p → self.matchHead = some (.ok c) →
      ∃ x, self.data = some (p.read dir, x)

/-- A nesting that has its number for itself reads the same from either end. -/
theorem DenotesPort.palindrome {dir : Direction} {p : Decimal} (h : DenotesPort dir p) :
    p.digits.reverse = p.digits := by
  have hne : p.digits.reverse ≠ [] := fun hnil => p.digits_ne_nil (List.reverse_eq_nil_iff.1 hnil)
  obtain ⟨q, hq⟩ := exists_digits hne
  have hsum : q.N = p.N := by
    rw [N_eq_sum, N_eq_sum, hq, List.map_reverse, List.sum_reverse]
  rw [← hq, h.unique q (by rw [hq, List.length_reverse]) hsum]

theorem eq_zero_of_N_eq_zero {p : Decimal} (h : p.N = 0) : ∀ digit ∈ p.digits, digit = 0 := by
  intro digit hdigit
  rw [N_eq_sum, List.sum_eq_zero_iff_forall_eq_nat] at h
  exact Fin.val_eq_zero_iff.1 (h digit (List.mem_map_of_mem hdigit))

/-- Nestings of zeroes are told apart by their lengths. -/
theorem unique_of_zeroes {p : Decimal} (hzero : ∀ digit ∈ p.digits, digit = 0) (q : Decimal)
    (hlen : q.digits.length = p.digits.length) (hN : q.N = p.N) : q = p := by
  have hp : p.N = 0 := by
    rw [N_eq_sum, List.sum_eq_zero_iff_forall_eq_nat, List.forall_mem_map]
    exact fun digit hdigit => Fin.val_eq_zero_iff.2 (hzero digit hdigit)
  have hq := eq_zero_of_N_eq_zero (hN.trans hp)
  refine digits_injective ?_
  rw [List.eq_replicate_of_mem hzero, List.eq_replicate_of_mem hq, hlen]

/-- A single digit is told apart by its value. -/
theorem unique_of_length_eq_one {p : Decimal} (h : p.digits.length = 1) (q : Decimal)
    (hlen : q.digits.length = p.digits.length) (hN : q.N = p.N) : q = p := by
  obtain ⟨i, hi⟩ := List.length_eq_one_iff.1 h
  obtain ⟨j, hj⟩ := List.length_eq_one_iff.1 (hlen.trans h)
  rw [N_eq_sum, N_eq_sum, hi, hj, List.map_singleton, List.map_singleton, List.sum_singleton,
    List.sum_singleton] at hN
  exact digits_injective (by rw [hi, hj, Fin.ext hN])

/-- From the other end the unit is another digit, unless there is one digit
only. -/
theorem DenotesPort.single_or_zeroes {dir : Direction} {p : Decimal} (h : DenotesPort dir p) :
    p.digits.length = 1 ∨ ∀ digit ∈ p.digits, digit = 0 := by
  obtain ⟨unit, rest, hfrom⟩ := p.exists_unit dir
  have hrest := (N_eq_read_iff hfrom).1 h.value
  have hpal : (unit :: rest).reverse = unit :: rest := by
    rw [← hfrom]
    cases dir with
    | outermostFirst => rw [fromUnit, h.palindrome, h.palindrome]
    | innermostFirst => exact h.palindrome
  rw [← length_fromUnit p dir, hfrom]
  cases rest with
  | nil => exact .inl rfl
  | cons next rest =>
      refine .inr fun digit hdigit => ?_
      have hunit : unit ∈ next :: rest := by
        have hlast := congrArg List.head? hpal
        rw [List.head?_reverse, List.getLast?_cons_cons, List.head?_cons] at hlast
        exact List.mem_of_getLast? hlast
      rw [← mem_fromUnit p dir, hfrom] at hdigit
      rcases List.mem_cons.1 hdigit with rfl | hdigit
      · exact hrest _ hunit
      · exact hrest _ hdigit

theorem N_eq_read_of_single_or_zeroes {p : Decimal} (dir : Direction)
    (h : p.digits.length = 1 ∨ ∀ digit ∈ p.digits, digit = 0) : p.N = p.read dir := by
  obtain ⟨unit, rest, hfrom⟩ := p.exists_unit dir
  refine (N_eq_read_iff hfrom).2 fun digit hdigit => ?_
  rcases h with hone | hzero
  · rw [← length_fromUnit p dir, hfrom, List.length_cons, Nat.succ_inj,
      List.length_eq_zero_iff] at hone
    rw [hone] at hdigit
    cases hdigit
  · refine hzero digit ((mem_fromUnit p dir digit).1 ?_)
    rw [hfrom]
    exact List.mem_cons_of_mem unit hdigit

/-- In either direction of reading, a nesting denotes a port if and only if it
is a single digit, or its digits are all zero. -/
theorem denotesPort_iff (dir : Direction) (p : Decimal) :
    DenotesPort dir p ↔ p.digits.length = 1 ∨ ∀ digit ∈ p.digits, digit = 0 := by
  refine ⟨DenotesPort.single_or_zeroes, fun h => ?_⟩
  have hvalue := N_eq_read_of_single_or_zeroes dir h
  refine ⟨hvalue, h.elim unique_of_length_eq_one unique_of_zeroes, ?_⟩
  rintro b n rest self c rfl hmatch
  rw [← hvalue]
  exact matchHead_eq_ok hmatch

/-- `D1<E2>` and `D2<E1>` have the number 3, which neither of them is. -/
theorem not_denotesPort_twelve :
    (Decimal.d 1 (.e 2)).N = 3 ∧ (Decimal.d 2 (.e 1)).N = 3 ∧
      ∀ dir, ¬ DenotesPort dir (.d 1 (.e 2)) := by
  refine ⟨rfl, rfl, fun dir h => ?_⟩
  have hsame := h.unique (.d 2 (.e 1)) rfl rfl
  exact absurd hsame (by decide)

end Decimal

end ReoRs
