import Mathlib.Logic.Basic
import Mathlib.Logic.Function.Basic
import Mathlib.Data.Set.Defs
import Mathlib.Tactic.Common

/-!
# Partial maps that agree

A function extends a partial map if it has all its values. Maps that have an
extension in common agree where two of them speak, and that is all it takes:
any number of maps of which no two disagree has one. So to go through maps and
gather what they say, only pairs have to be compared.
-/

namespace PartialMap

variable {A B : Type*}

def Extends (f : A → B) (m : A → Option B) : Prop := ∀ a b, m a = some b → f a = b

/-- No value of the one is not the value of the other. -/
def Compatible (m n : A → Option B) : Prop := ∀ a b c, m a = some b → n a = some c → b = c

/-- What the one says, and the other where it says nothing. -/
def join (m n : A → Option B) : A → Option B := fun a => (m a).or (n a)

variable {f : A → B} {m n p : A → Option B}

theorem Compatible.symm (h : Compatible m n) : Compatible n m :=
  fun a b c hb hc => (h a c b hc hb).symm

theorem Compatible.refl (m : A → Option B) : Compatible m m := by
  intro a b c hb hc
  rw [hb] at hc
  exact Option.some.inj hc

theorem Extends.compatible (hm : Extends f m) (hn : Extends f n) : Compatible m n :=
  fun a b c hb hc => (hm a b hb).symm.trans (hn a c hc)

/-- A set of maps has a common extension iff no two of them disagree. -/
theorem exists_extends_iff [Nonempty B] (ms : Set (A → Option B)) :
    (∃ f : A → B, ∀ m ∈ ms, Extends f m) ↔ ∀ m ∈ ms, ∀ n ∈ ms, Compatible m n := by
  constructor
  · rintro ⟨f, hf⟩ m hm n hn
    exact (hf m hm).compatible (hf n hn)
  · intro h
    refine ⟨fun a => Classical.epsilon fun b => ∃ m ∈ ms, m a = some b, fun m hm a b hb => ?_⟩
    have hex : ∃ b, ∃ m ∈ ms, m a = some b := ⟨b, m, hm, hb⟩
    obtain ⟨n, hn, hc⟩ := Classical.epsilon_spec hex
    exact h n hn m hm a _ b hc hb

/-! ## Joins -/

theorem join_eq_some_left {a : A} {b : B} (h : m a = some b) : join m n a = some b := by
  rw [join, h, Option.some_or]

theorem Compatible.join_eq_some_right (h : Compatible m n) {a : A} {b : B} (hb : n a = some b) :
    join m n a = some b := by
  rw [join]
  cases hm : m a with
  | none => rw [Option.none_or, hb]
  | some c => rw [Option.some_or, h a c b hm hb]

/-- A join says nothing of its own. -/
theorem of_join_eq_some {a : A} {b : B} (h : join m n a = some b) : m a = some b ∨ n a = some b := by
  rw [join, Option.or_eq_some_iff] at h
  exact h.imp_right And.right

/-- To extend the join of maps that agree is to extend both. -/
theorem Compatible.extends_join_iff (h : Compatible m n) :
    Extends f (join m n) ↔ Extends f m ∧ Extends f n := by
  constructor
  · intro hf
    exact ⟨fun a b hb => hf a b (join_eq_some_left hb),
      fun a b hb => hf a b (h.join_eq_some_right hb)⟩
  · rintro ⟨hm, hn⟩ a b hb
    exact (of_join_eq_some hb).elim (hm a b) (hn a b)

/-- A third map agrees with the join iff it agrees with both. -/
theorem Compatible.join_iff (h : Compatible m n) :
    Compatible (join m n) p ↔ Compatible m p ∧ Compatible n p := by
  constructor
  · intro hp
    exact ⟨fun a b c hb hc => hp a b c (join_eq_some_left hb) hc,
      fun a b c hb hc => hp a b c (h.join_eq_some_right hb) hc⟩
  · rintro ⟨hm, hn⟩ a b c hb hc
    exact (of_join_eq_some hb).elim (fun hb => hm a b c hb hc) fun hb => hn a b c hb hc

/-! ## One value -/

section Single

variable [DecidableEq A]

def single (a : A) (b : B) : A → Option B := fun k => if k = a then some b else none

theorem compatible_single_iff {a : A} {b : B} :
    Compatible m (single a b) ↔ ∀ c, m a = some c → c = b := by
  constructor
  · intro h c hc
    exact h a c b hc (if_pos rfl)
  · intro h k c d hc hd
    rw [single] at hd
    split at hd
    · next hk =>
        subst hk
        rw [h c hc, Option.some.inj hd]
    · cases hd

end Single

end PartialMap
