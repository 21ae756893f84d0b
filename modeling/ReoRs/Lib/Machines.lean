import Mathlib.Logic.Basic
import Mathlib.Tactic.TypeStar

/-!
# Machines that answer

A machine takes operations one at a time and answers each. Two machines that
take the same operations are compared by a relation between their states: the
one follows the other through a program if the relation holds all along and
the answers are the same.

Where one operation keeps them together exactly if a condition holds, a
program does exactly if the condition holds at each of its operations, and so
it is never an earlier slip that makes up for a later one.
-/

namespace Machine

variable {O S T A C : Type*}

/-- What is left of a state after a program, and the answers to it. -/
def run (m : O → S → S × A) : List O → S → S × List A
  | [], s => (s, [])
  | o :: os, s => ((run m os (m o s).1).1, (m o s).2 :: (run m os (m o s).1).2)

/-- A condition on operations that holds each time. -/
def Along (m : O → S → S × A) (P : O → S → Prop) : List O → S → Prop
  | [], _ => True
  | o :: os, s => P o s ∧ Along m P os (m o s).1

/-- Two machines that stay together. -/
def Follows (m : O → S → S × A) (n : O → T → T × A) (R : S → T → Prop) : List O → S → T → Prop
  | [], s, t => R s t
  | o :: os, s, t => R s t ∧ (m o s).2 = (n o t).2 ∧ Follows m n R os (m o s).1 (n o t).1

variable {m : O → S → S × A} {n : O → T → T × A} {R : S → T → Prop} {P : O → S → Prop}

theorem Follows.start {os : List O} {s : S} {t : T} (h : Follows m n R os s t) : R s t := by
  cases os with
  | nil => exact h
  | cons o os => exact h.1

theorem Follows.run {os : List O} {s : S} {t : T} (h : Follows m n R os s t) :
    R (run m os s).1 (run n os t).1 ∧ (run m os s).2 = (run n os t).2 := by
  induction os generalizing s t with
  | nil => exact ⟨h, rfl⟩
  | cons o os ih =>
      obtain ⟨-, hanswer, hrest⟩ := h
      obtain ⟨hstates, hanswers⟩ := ih hrest
      exact ⟨hstates, congrArg₂ List.cons hanswer hanswers⟩

/-- Programs, from operations. -/
theorem follows_iff_along
    (hstep : ∀ o s t, R s t → (P o s ↔ R (m o s).1 (n o t).1 ∧ (m o s).2 = (n o t).2))
    {os : List O} {s : S} {t : T} (h : R s t) : Follows m n R os s t ↔ Along m P os s := by
  induction os generalizing s t with
  | nil => exact iff_of_true h trivial
  | cons o os ih =>
      constructor
      · rintro ⟨-, hanswer, hrest⟩
        have hstates := hrest.start
        exact ⟨(hstep o s t h).2 ⟨hstates, hanswer⟩, (ih hstates).1 hrest⟩
      · rintro ⟨hone, hrest⟩
        obtain ⟨hstates, hanswer⟩ := (hstep o s t h).1 hone
        exact ⟨h, hanswer, (ih hstates).2 hrest⟩

/-! ## Analyses

What is known about a state before a program is run, and what of it an
operation leaves.
-/

/-- An invariant of a machine under an analysis of its programs. -/
theorem invariant_run {I : S → C → Prop} {f : C → O → C}
    (hstep : ∀ o s c, I s c → I (m o s).1 (f c o)) {os : List O} {s : S} {c : C} (h : I s c) :
    I (run m os s).1 (os.foldl f c) := by
  induction os generalizing s c with
  | nil => exact h
  | cons o os ih => exact ih (hstep o s c h)

/-- A condition that the analysis can see. -/
def Passes (f : C → O → C) (Q : O → C → Prop) : List O → C → Prop
  | [], _ => True
  | o :: os, c => Q o c ∧ Passes f Q os (f c o)

theorem along_of_passes {I : S → C → Prop} {f : C → O → C} {Q : O → C → Prop}
    (hstep : ∀ o s c, I s c → I (m o s).1 (f c o)) (hQ : ∀ o s c, I s c → Q o c → P o s)
    {os : List O} {s : S} {c : C} (h : I s c) (hpasses : Passes f Q os c) : Along m P os s := by
  induction os generalizing s c with
  | nil => trivial
  | cons o os ih => exact ⟨hQ o s c h hpasses.1, ih (hstep o s c h) hpasses.2⟩

end Machine
