import Mathlib.Data.List.Range
import ReoRs.Lib.Words

/-!
# Scanning packed words, bit by bit

An iterator over the one bits of a sequence of words keeps a cursor: the
number of a word, the word itself, and the number of the bit that is looked at
next. A round of its loop moves on to the next word if the last one is used
up, and then looks at one bit. It returns on a one bit, goes round again on a
zero bit, and ends when there is no further word.

The words come from a function, so that they may be computed on the way (the
conjunction of two vectors, say), and what is returned for a bit is a function
of the two numbers after the increment. Whatever the two are, a scan goes
through the one bits in order: `left` are the positions still to come, and
`next` takes the first of them.
-/

namespace Words

variable {w : Nat}

/-- Words by number, as many as there are and none after them. -/
structure Source (w : Nat) where
  fetch : Nat → Option (BitVec w)
  len : Nat
  isSome_iff : ∀ i, (fetch i).isSome = true ↔ i < len
  width : 0 < w

/-- Where a scan stands. The word is the one that was fetched. -/
structure Cursor (src : Source w) where
  n : Option (BitVec w)
  maj : Nat
  min : Nat
  cached : n = src.fetch maj
  within : min ≤ w

namespace Source

variable (src : Source w)

/-- The cursor at the first bit of a word. -/
def word (maj : Nat) : Cursor src := ⟨src.fetch maj, maj, 0, rfl, Nat.zero_le w⟩

/-- The bit at a position. -/
def bit (p : Nat) : Bool := (src.fetch (p / w)).any (·.getLsbD (p % w))

theorem lt_of_bit {p : Nat} (h : src.bit p = true) : p < src.len * w := by
  have hsome : (src.fetch (p / w)).isSome = true := by
    rw [bit] at h
    cases hx : src.fetch (p / w) with
    | none =>
        rw [hx] at h
        cases h
    | some x => rfl
  exact (Nat.div_lt_iff_lt_mul src.width).1 ((src.isSome_iff _).1 hsome)

end Source

variable {src : Source w}

namespace Cursor

/-- The position of the bit that is looked at next. -/
def pos (c : Cursor src) : Nat := c.maj * w + c.min

/-- The positions of the one bits that are still to come. -/
def left (c : Cursor src) : List Nat :=
  (List.range' c.pos (src.len * w - c.pos)).filter src.bit

/-- A word that is used up is replaced by the next one. -/
def settle (c : Cursor src) : Cursor src := if c.min = w then src.word (c.maj + 1) else c

theorem settle_min_lt (c : Cursor src) : c.settle.min < w := by
  rw [settle]
  split
  · exact src.width
  · next h => exact Nat.lt_of_le_of_ne c.within h

/-- The end of one word is the beginning of the next. -/
theorem pos_settle (c : Cursor src) : c.settle.pos = c.pos := by
  rw [settle]
  split
  · next h =>
      show (c.maj + 1) * w + 0 = c.maj * w + c.min
      rw [h, Nat.succ_mul, Nat.add_zero]
  · rfl

/-- The cursor one bit on. -/
def advance (c : Cursor src) (h : c.min < w) : Cursor src :=
  { c with min := c.min + 1, within := h }

theorem pos_advance (c : Cursor src) (h : c.min < w) : (c.advance h).pos = c.pos + 1 := rfl

theorem pos_lt_of_some {c : Cursor src} {x : BitVec w} (hx : c.n = some x) (h : c.min < w) :
    c.pos < src.len * w := by
  have hmaj : c.maj < src.len := (src.isSome_iff _).1 (by rw [← c.cached, hx]; rfl)
  calc c.maj * w + c.min < c.maj * w + w := Nat.add_lt_add_left h _
    _ = (c.maj + 1) * w := (Nat.succ_mul _ _).symm
    _ ≤ src.len * w := Nat.mul_le_mul_right w hmaj

/-- The loop of `next`, on a word width and a source of words. `report` is
what is returned for a one bit, from the cursor after the increment. -/
def next (report : Nat → Nat → Nat) (c : Cursor src) : Option Nat × Cursor src :=
  match h : c.settle.n with
  | none => (none, c.settle)
  | some x =>
      have : c.pos < src.len * w := c.pos_settle ▸ pos_lt_of_some h c.settle_min_lt
      let after := c.settle.advance c.settle_min_lt
      if ((1#w <<< c.settle.min) &&& x) != 0#w then (some (report after.maj after.min), after)
      else next report after
termination_by src.len * w - c.pos
decreasing_by
  rw [pos_advance, pos_settle]
  omega

/-! ## One bit -/

section

variable (c : Cursor src)

theorem left_settle : c.settle.left = c.left := by
  rw [left, left, pos_settle]

theorem left_of_none (hn : c.n = none) : c.left = [] := by
  have hlen : src.len ≤ c.maj := by
    by_contra hlt
    have hsome := (src.isSome_iff c.maj).2 (Nat.lt_of_not_le hlt)
    rw [← c.cached, hn] at hsome
    cases hsome
  have hpos : src.len * w ≤ c.pos :=
    Nat.le_trans (Nat.mul_le_mul_right w hlen) (Nat.le_add_right _ _)
  rw [left, Nat.sub_eq_zero_of_le hpos]
  rfl

variable {c}

theorem bit_pos {x : BitVec w} (hx : c.n = some x) (h : c.min < w) :
    src.bit c.pos = (((1#w <<< c.min) &&& x) != 0#w) := by
  have hdiv : c.pos / w = c.maj := by
    rw [pos, Nat.mul_comm, Nat.mul_add_div src.width, Nat.div_eq_of_lt h, Nat.add_zero]
  have hmod : c.pos % w = c.min := by
    rw [pos, Nat.mul_comm, Nat.mul_add_mod, Nat.mod_eq_of_lt h]
  have hmask : 1#w <<< c.min = Words.bit w c.pos := by rw [Words.bit, hmod]
  rw [hmask, BitVec.and_comm, and_bit_ne_zero src.width, Source.bit, hdiv, ← c.cached, hx]
  rfl

/-- What is left shrinks by the bit that was looked at, if it is a one. -/
theorem left_of_some {x : BitVec w} (hx : c.n = some x) (h : c.min < w) :
    c.left = if src.bit c.pos then c.pos :: (c.advance h).left else (c.advance h).left := by
  have hlt := pos_lt_of_some hx h
  have hrest : src.len * w - c.pos = (src.len * w - (c.pos + 1)) + 1 := by omega
  rw [left, hrest, List.range'_succ, List.filter_cons]
  rfl

end

/-- What is returned for the one bit at a position. -/
def reportAt (w : Nat) (report : Nat → Nat → Nat) (p : Nat) : Nat := report (p / w) (p % w + 1)

theorem report_advance (report : Nat → Nat → Nat) {c : Cursor src} (h : c.min < w) :
    report (c.advance h).maj (c.advance h).min = reportAt w report c.pos := by
  rw [reportAt, pos, Nat.mul_comm, Nat.mul_add_div src.width, Nat.div_eq_of_lt h, Nat.mul_add_mod,
    Nat.mod_eq_of_lt h]
  rfl

/-- A call of `next` takes the first of the positions that are left. -/
theorem next_eq (report : Nat → Nat → Nat) (c : Cursor src) :
    (c.next report).1 = c.left.head?.map (reportAt w report) ∧
      (c.next report).2.left = c.left.tail := by
  fun_induction next report c with
  | case1 c hn =>
      have hnil : c.left = [] := by rw [← left_settle, left_of_none _ hn]
      rw [left_settle, hnil]
      exact ⟨rfl, rfl⟩
  | case2 c x hx _ after hbit =>
      have hleft := left_of_some hx c.settle_min_lt
      rw [if_pos (by rw [bit_pos hx c.settle_min_lt, hbit]), left_settle] at hleft
      rw [hleft]
      exact ⟨congrArg some (report_advance report c.settle_min_lt), rfl⟩
  | case3 c x hx _ after hbit ih =>
      have hleft := left_of_some hx c.settle_min_lt
      rw [if_neg (by rw [bit_pos hx c.settle_min_lt]; exact hbit), left_settle] at hleft
      rw [hleft]
      exact ih

/-! ## All of them -/

/-- A call that returns a bit leaves one less. -/
theorem left_of_next {report : Nat → Nat → Nat} {c c' : Cursor src} {i : Nat}
    (h : c.next report = (some i, c')) :
    ∃ p, c.left = p :: c'.left ∧ i = reportAt w report p := by
  obtain ⟨hhead, htail⟩ := next_eq report c
  rw [h] at hhead htail
  cases hleft : c.left with
  | nil =>
      rw [hleft] at hhead
      cases hhead
  | cons p rest =>
      rw [hleft] at hhead htail
      exact ⟨p, by rw [htail, List.tail_cons], Option.some.inj hhead⟩

theorem length_left_of_next {report : Nat → Nat → Nat} {c c' : Cursor src} {i : Nat}
    (h : c.next report = (some i, c')) : c'.left.length < c.left.length := by
  obtain ⟨p, hleft, -⟩ := left_of_next h
  rw [hleft]
  exact Nat.lt_succ_self _

theorem left_of_next_none {report : Nat → Nat → Nat} {c c' : Cursor src}
    (h : c.next report = (none, c')) : c.left = [] := by
  have hhead := (next_eq report c).1
  rw [h] at hhead
  exact List.head?_eq_none_iff.1 (Option.map_eq_none_iff.1 hhead.symm)

/-- What is yielded until `next` ends. -/
def drain (report : Nat → Nat → Nat) (c : Cursor src) : List Nat :=
  match h : c.next report with
  | (some i, c') =>
      have : c'.left.length < c.left.length := length_left_of_next h
      i :: drain report c'
  | (none, _) => []
termination_by c.left.length

/-- Draining yields what is left. -/
theorem drain_eq (report : Nat → Nat → Nat) (c : Cursor src) :
    c.drain report = c.left.map (reportAt w report) := by
  fun_induction drain report c with
  | case1 c i c' h hlt ih =>
      obtain ⟨p, hleft, hi⟩ := left_of_next h
      rw [ih, hleft, List.map_cons, hi]
  | case2 c c' h => rw [left_of_next_none h, List.map_nil]

end Cursor

namespace Source

/-- The one bits from the start, in order. -/
theorem left_word_zero : (src.word 0).left = (List.range (src.len * w)).filter src.bit := by
  have hpos : (src.word 0).pos = 0 := Nat.zero_mul w
  rw [Cursor.left, hpos, Nat.sub_zero, List.range_eq_range']

theorem left_pairwise : (src.word 0).left.Pairwise (· < ·) := by
  rw [left_word_zero]
  exact List.pairwise_lt_range.filter _

theorem mem_left {p : Nat} : p ∈ (src.word 0).left ↔ src.bit p = true := by
  rw [left_word_zero, List.mem_filter, List.mem_range]
  exact and_iff_right_of_imp src.lt_of_bit

/-- What is to be returned, from the start to the end. -/
theorem map_left_word_zero (report : Nat → Nat → Nat) :
    (src.word 0).left.map (Cursor.reportAt w report) = (List.range (src.len * w)).filterMap
      fun p => if src.bit p then some (report (p / w) (p % w + 1)) else none := by
  rw [left_word_zero, ← List.filterMap_eq_filter, List.map_filterMap]
  refine List.filterMap_congr fun p _ => ?_
  rw [Option.guard]
  split <;> rfl

end Source

/-- A loop over the words with a loop over the bits of a word in it goes
through the positions in order. -/
theorem flatMap_range_filterMap {α : Type*} (f : Nat → Nat → Option α) (hw : 0 < w) :
    ∀ n, ((List.range n).flatMap fun maj => (List.range w).filterMap (f maj)) =
      (List.range (n * w)).filterMap fun p => f (p / w) (p % w)
  | 0 => by
      rw [Nat.zero_mul]
      rfl
  | n + 1 => by
      have hword : ∀ k ∈ List.range w, f n k = f ((n * w + k) / w) ((n * w + k) % w) := by
        intro k hk
        have hlt := List.mem_range.1 hk
        rw [Nat.mul_comm, Nat.mul_add_div hw, Nat.div_eq_of_lt hlt, Nat.add_zero, Nat.mul_add_mod,
          Nat.mod_eq_of_lt hlt]
      rw [List.range_succ, List.flatMap_append, flatMap_range_filterMap f hw n, Nat.succ_mul,
        List.range_add, List.filterMap_append, List.filterMap_map, List.flatMap_singleton]
      congr 1
      exact List.filterMap_congr hword

end Words
