import Mathlib.Data.List.Basic
import Mathlib.Tactic.Common

/-!
# Sets of naturals packed into machine words

A list of `w`-bit words, read as the set of the positions of its one bits:
bit `k` of word `n` stands for `n * w + k`. Positions past the last word are
simply absent, so a list and the same list with zero words appended denote the
same set.

Everything that happens to such a list in place is one of three things: one
word is rewritten, zero words are appended, or the list is rewritten word by
word against another list for as long as both last. The lemmas below say what
each of the three does to membership.
-/

namespace Words

variable {w : Nat}

/-- Membership: the bit of position `i`, false past the end. -/
def mem (xs : List (BitVec w)) (i : Nat) : Bool := (xs.getD (i / w) 0).getLsbD (i % w)

/-- The one-bit word a position's chunk is masked with. -/
def bit (w i : Nat) : BitVec w := 1#w <<< (i % w)

theorem bit_eq_twoPow (w i : Nat) : bit w i = BitVec.twoPow w (i % w) := rfl

@[simp] theorem mem_nil (i : Nat) : mem ([] : List (BitVec w)) i = false := by
  simp [mem]

theorem mem_of_getElem? {xs : List (BitVec w)} {i : Nat} {c : BitVec w}
    (h : xs[i / w]? = some c) : mem xs i = c.getLsbD (i % w) := by
  simp [mem, List.getD_eq_getElem?_getD, h]

theorem mem_of_length_le {xs : List (BitVec w)} {i : Nat} (h : xs.length ≤ i / w) :
    mem xs i = false := by
  simp [mem, List.getD_eq_getElem?_getD, List.getElem?_eq_none h]

theorem lt_length_of_mem {xs : List (BitVec w)} {i : Nat} (h : mem xs i = true) :
    i / w < xs.length := by
  by_contra hle
  rw [mem_of_length_le (Nat.le_of_not_lt hle)] at h
  cases h

/-- Two positions share a chunk and a bit only if they are the same. -/
theorem eq_of_div_mod {i j : Nat} (hd : i / w = j / w) (hm : i % w = j % w) : i = j := by
  rw [← Nat.div_add_mod i w, ← Nat.div_add_mod j w, hd, hm]

/-! ## One word -/

/-- Testing a chunk against a position's mask reads that position's bit. -/
theorem and_bit_ne_zero (hw : 0 < w) (c : BitVec w) (i : Nat) :
    ((c &&& bit w i) != 0#w) = c.getLsbD (i % w) := by
  have hlt : i % w < w := Nat.mod_lt i hw
  rw [bit_eq_twoPow, BitVec.and_twoPow]
  cases hb : c.getLsbD (i % w) with
  | false => simp
  | true =>
      have hne : BitVec.twoPow w (i % w) ≠ 0#w := by
        intro h0
        have := congrArg (fun b => b.getLsbD (i % w)) h0
        simp [hlt] at this
      simp [hne]

theorem getLsbD_or_bit (c : BitVec w) (i : Nat) {k : Nat} (hk : k < w) :
    (c ||| bit w i).getLsbD k = (c.getLsbD k || decide (k = i % w)) := by
  rw [bit_eq_twoPow, BitVec.getLsbD_or, BitVec.getLsbD_twoPow]
  by_cases h : k = i % w
  · simp [← h, hk]
  · simp [h, Ne.symm h]

theorem getLsbD_and_not_bit (c : BitVec w) (i : Nat) {k : Nat} (hk : k < w) :
    (c &&& ~~~ bit w i).getLsbD k = (c.getLsbD k && !decide (k = i % w)) := by
  rw [bit_eq_twoPow, BitVec.getLsbD_and, BitVec.getLsbD_not, BitVec.getLsbD_twoPow]
  by_cases h : k = i % w
  · simp [← h, hk]
  · simp [h, Ne.symm h, hk]

/-- Rewriting the chunk of a position touches the positions of that chunk
alone. -/
theorem mem_set {xs : List (BitVec w)} {n : Nat} (hn : n < xs.length) (c : BitVec w)
    (j : Nat) : mem (xs.set n c) j = if j / w = n then c.getLsbD (j % w) else mem xs j := by
  unfold mem
  rw [List.getD_eq_getElem?_getD, List.getElem?_set]
  by_cases h : j / w = n
  · simp [h, hn]
  · simp [h, Ne.symm h, List.getD_eq_getElem?_getD]

theorem mem_set_or_bit (hw : 0 < w) {xs : List (BitVec w)} {i : Nat} {c : BitVec w}
    (hc : xs[i / w]? = some c) (j : Nat) :
    mem (xs.set (i / w) (c ||| bit w i)) j = (mem xs j || decide (j = i)) := by
  obtain ⟨hlt, -⟩ := List.getElem?_eq_some_iff.1 hc
  rw [mem_set hlt]
  by_cases hd : j / w = i / w
  · rw [if_pos hd, getLsbD_or_bit c i (Nat.mod_lt j hw), mem_of_getElem? (hd ▸ hc)]
    congr 1
    exact decide_eq_decide.2 ⟨fun hm => eq_of_div_mod hd hm, fun h => by rw [h]⟩
  · have hne : j ≠ i := fun h => hd (by rw [h])
    simp [hd, hne]

theorem mem_set_and_not_bit (hw : 0 < w) {xs : List (BitVec w)} {i : Nat} {c : BitVec w}
    (hc : xs[i / w]? = some c) (j : Nat) :
    mem (xs.set (i / w) (c &&& ~~~ bit w i)) j = (mem xs j && !decide (j = i)) := by
  obtain ⟨hlt, -⟩ := List.getElem?_eq_some_iff.1 hc
  rw [mem_set hlt]
  by_cases hd : j / w = i / w
  · rw [if_pos hd, getLsbD_and_not_bit c i (Nat.mod_lt j hw), mem_of_getElem? (hd ▸ hc)]
    congr 2
    exact decide_eq_decide.2 ⟨fun hm => eq_of_div_mod hd hm, fun h => by rw [h]⟩
  · have hne : j ≠ i := fun h => hd (by rw [h])
    simp [hd, hne]

/-! ## Zero words at the end -/

theorem mem_append_zeros (xs : List (BitVec w)) (n i : Nat) :
    mem (xs ++ List.replicate n 0#w) i = mem xs i := by
  unfold mem
  rw [List.getD_eq_getElem?_getD, List.getD_eq_getElem?_getD]
  by_cases h : i / w < xs.length
  · rw [List.getElem?_append_left h]
  · have hle : xs.length ≤ i / w := Nat.le_of_not_lt h
    rw [List.getElem?_append_right hle, List.getElem?_eq_none hle]
    by_cases h' : i / w - xs.length < n <;> simp [h']

theorem mem_take (xs : List (BitVec w)) (n i : Nat) :
    mem (xs.take n) i = (decide (i / w < n) && mem xs i) := by
  unfold mem
  rw [List.getD_eq_getElem?_getD, List.getD_eq_getElem?_getD, List.getElem?_take]
  by_cases h : i / w < n <;> simp [h]

/-- A list after another: its positions are counted from the end of the first. -/
theorem mem_append (xs ys : List (BitVec w)) (i : Nat) :
    mem (xs ++ ys) i =
      if i / w < xs.length then mem xs i else mem ys (i - w * xs.length) := by
  unfold mem
  simp only [List.getD_eq_getElem?_getD]
  split
  · next h => rw [List.getElem?_append_left h]
  · next h =>
      have hle : w * xs.length ≤ i := by
        calc w * xs.length ≤ w * (i / w) := Nat.mul_le_mul_left w (Nat.le_of_not_lt h)
          _ ≤ i := Nat.mul_div_le i w
      rw [List.getElem?_append_right (Nat.le_of_not_lt h), Nat.sub_mul_div i w xs.length,
        Nat.sub_mul_mod hle]

/-- A bit of a word is a member, by its place in the list. -/
theorem getLsbD_of_getElem? {xs : List (BitVec w)} {n k : Nat} {c : BitVec w}
    (hc : xs[n]? = some c) (hk : k < w) : c.getLsbD k = mem xs (w * n + k) := by
  have hdiv : (w * n + k) / w = n := by
    rw [Nat.mul_add_div (by omega), Nat.div_eq_of_lt hk, Nat.add_zero]
  have hmod : (w * n + k) % w = k := by rw [Nat.mul_add_mod, Nat.mod_eq_of_lt hk]
  rw [mem_of_getElem? (by rw [hdiv]; exact hc), hmod]

/-! ## One list for each set

The last word may be zero, so that a set has many lists. It has one whose last
word is not. -/

/-- A word other than zero has a bit. -/
theorem exists_getLsbD_of_ne_zero {c : BitVec w} (h : c ≠ 0#w) :
    ∃ k, k < w ∧ c.getLsbD k = true := by
  by_contra hno
  refine h (BitVec.eq_of_getLsbD_eq fun k hk => ?_)
  rw [BitVec.getLsbD_zero]
  cases hb : c.getLsbD k with
  | false => rfl
  | true => exact absurd ⟨k, hk, hb⟩ hno

/-- The last word, if there is one, has a member. -/
def Trimmed (xs : List (BitVec w)) : Prop :=
  ∀ n, xs.length = n + 1 → ∃ i, i / w = n ∧ mem xs i = true

theorem trimmed_nil : Trimmed ([] : List (BitVec w)) := by
  intro n h
  cases h

theorem trimmed_concat (xs : List (BitVec w)) {c : BitVec w} (h : c ≠ 0#w) :
    Trimmed (xs ++ [c]) := by
  intro n hn
  obtain ⟨k, hk, hbit⟩ := exists_getLsbD_of_ne_zero h
  have hlen : xs.length = n := by simpa using hn
  refine ⟨w * n + k, ?_, ?_⟩
  · rw [Nat.mul_add_div (Nat.zero_lt_of_lt hk), Nat.div_eq_of_lt hk, Nat.add_zero]
  · rw [← getLsbD_of_getElem? (c := c) (by rw [← hlen]; simp) hk, hbit]

theorem Trimmed.length_le {xs ys : List (BitVec w)} (hx : Trimmed xs)
    (hmem : ∀ i, mem xs i = true → mem ys i = true) : xs.length ≤ ys.length := by
  cases hn : xs.length with
  | zero => exact Nat.zero_le _
  | succ n =>
      obtain ⟨i, hi, hbit⟩ := hx n hn
      have := lt_length_of_mem (hmem i hbit)
      rw [hi] at this
      exact this

/-- Trimmed lists of the same set are equal. -/
theorem Trimmed.ext {xs ys : List (BitVec w)} (hx : Trimmed xs) (hy : Trimmed ys)
    (hmem : ∀ i, mem xs i = mem ys i) : xs = ys := by
  have hlen : xs.length = ys.length :=
    Nat.le_antisymm (hx.length_le fun i h => hmem i ▸ h) (hy.length_le fun i h => (hmem i).symm ▸ h)
  refine List.ext_getElem hlen fun n hn hn' => ?_
  refine BitVec.eq_of_getLsbD_eq fun k hk => ?_
  rw [getLsbD_of_getElem? (List.getElem?_eq_getElem hn) hk,
    getLsbD_of_getElem? (List.getElem?_eq_getElem hn') hk, hmem]

/-! ## Word by word against another list -/

variable {α : Type*}

/-- The list rewritten in place against another, word by word, until either
runs out; what is left of the first list stays. -/
def zipInto (f : BitVec w → α → BitVec w) : List (BitVec w) → List α → List (BitVec w)
  | x :: xs, y :: ys => f x y :: zipInto f xs ys
  | xs, _ => xs

@[simp] theorem zipInto_nil_left (f : BitVec w → α → BitVec w) (ys : List α) :
    zipInto f [] ys = [] := rfl

@[simp] theorem zipInto_nil_right (f : BitVec w → α → BitVec w) (xs : List (BitVec w)) :
    zipInto f xs [] = xs := by cases xs <;> rfl

@[simp] theorem length_zipInto (f : BitVec w → α → BitVec w) :
    ∀ (xs : List (BitVec w)) (ys : List α), (zipInto f xs ys).length = xs.length
  | [], _ => rfl
  | _ :: _, [] => rfl
  | _ :: xs, _ :: ys => by simp [zipInto, length_zipInto f xs ys]

theorem getElem?_zipInto (f : BitVec w → α → BitVec w) :
    ∀ (xs : List (BitVec w)) (ys : List α) (n : Nat),
      (zipInto f xs ys)[n]? = xs[n]?.map fun x => (ys[n]?.map (f x)).getD x
  | [], _, n => by simp
  | x :: xs, [], n => by cases h : (x :: xs)[n]? <;> simp [h]
  | x :: xs, y :: ys, 0 => by simp [zipInto]
  | x :: xs, y :: ys, n + 1 => by
      simp only [zipInto, List.getElem?_cons_succ]
      exact getElem?_zipInto f xs ys n

/-- Clearing, word by word, every bit of another list clears that list's
members: what the other list has past the end of the first was never there. -/
theorem mem_zipInto_andNot (xs ys : List (BitVec w)) (i : Nat) (hw : 0 < w) :
    mem (zipInto (fun x y => x &&& ~~~ y) xs ys) i = (mem xs i && !mem ys i) := by
  have hk : i % w < w := Nat.mod_lt i hw
  unfold mem
  simp only [List.getD_eq_getElem?_getD, getElem?_zipInto]
  cases xs[i / w]? with
  | none => simp
  | some x =>
      cases ys[i / w]? with
      | none => simp
      | some y => simp [hk]

/-- Adding, word by word, the bits of another list adds that list's members as
far as the first one reaches. -/
theorem mem_zipInto_or (xs ys : List (BitVec w)) (i : Nat) :
    mem (zipInto (fun x y => x ||| y) xs ys) i =
      (mem xs i || (decide (i / w < xs.length) && mem ys i)) := by
  unfold mem
  simp only [List.getD_eq_getElem?_getD, getElem?_zipInto]
  cases hx : xs[i / w]? with
  | none =>
      have hlen : ¬ i / w < xs.length := fun h => by
        rw [List.getElem?_eq_getElem h] at hx
        cases hx
      simp [hlen]
  | some x =>
      obtain ⟨hlen, -⟩ := List.getElem?_eq_some_iff.1 hx
      cases ys[i / w]? with
      | none => simp
      | some y => simp [hlen]

end Words
