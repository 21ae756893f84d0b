import ReoRs.Proto.Network
import ReoRs.Sessions

/-!
# Networks of automata

A network with an automaton in the place of every instance. Instances have
nothing to do with each other but through the threads, and a thread is at one
call at a time. So the steps of a network commute as those of its automata do,
and a network of protocols without conflicts comes to one end.
-/

namespace ReoRs

variable {ι τ D R : Type}

/-- No call of the program is timed, whatever it is answered. -/
inductive Program.Untimed : Program ι D R → Prop where
  | done {r : R} : Untimed (.done r)
  | call {i : ι} {p : LocId} {c : PortCall D} {next : Answer D → Program ι D R}
      (hc : c.timed = false) (hnext : ∀ a, (next a).Untimed) : Untimed (.call i p c next)

/-- The program after the call it is at. -/
def Program.resume (a : Answer D) : Program ι D R → Program ι D R
  | .call _ _ _ next => next a
  | .done r => .done r

structure Automata (ι τ D R : Type) where
  automata : ι → Automaton D
  programs : τ → Program ι D R

namespace Automata

open Automaton

def start (program : τ → Program ι D R) : Automata ι τ D R := ⟨fun _ => .start, program⟩

section

variable (owner : ι → LocId → τ) (programs : τ → Program ι D R) (i : ι)

/-- The owner of the port is at a call there. -/
def Offers : Act D → Prop
  | .call p c => ∃ next, programs (owner i p) = .call i p c next
  | .ret p _ => ∃ c next, programs (owner i p) = .call i p c next
  | .fire _ => True

def after [DecidableEq τ] : Act D → τ → Program ι D R
  | .ret p a => Function.update programs (owner i p) ((programs (owner i p)).resume a)
  | .call _ _ | .fire _ => programs

end

section Owner

variable {owner : ι → LocId → τ} {programs : τ → Program ι D R} {i j : ι} {a b : Act D}

/-- Whoever is at one call is not at another. -/
theorem owner_ne {p q : LocId} {c d : PortCall D} {next next' : Answer D → Program ι D R}
    (hp : programs (owner i p) = .call i p c next) (hq : programs (owner j q) = .call j q d next')
    (hpq : i = j → p ≠ q) : owner j q ≠ owner i p := by
  intro heq
  rw [heq, hp] at hq
  injection hq with hij hport
  exact hpq hij hport

section Apart

variable [DecidableEq τ] (hapart : i = j → ∀ p, a.port = some p → b.port ≠ some p)
include hapart

theorem offers_after (ha : Offers owner programs i a) (hb : Offers owner programs j b) :
    Offers owner (after owner programs i a) j b := by
  cases a with
  | call _ _ | fire _ => exact hb
  | ret p x =>
      obtain ⟨c, next, hp⟩ := ha
      cases b with
      | fire _ => trivial
      | call q d =>
          obtain ⟨next', hq⟩ := hb
          have hne := owner_ne hp hq fun hij heq => hapart hij p rfl (congrArg some heq.symm)
          exact ⟨next', (Function.update_of_ne hne _ programs).trans hq⟩
      | ret q y =>
          obtain ⟨d, next', hq⟩ := hb
          have hne := owner_ne hp hq fun hij heq => hapart hij p rfl (congrArg some heq.symm)
          exact ⟨d, next', (Function.update_of_ne hne _ programs).trans hq⟩

theorem after_comm (ha : Offers owner programs i a) (hb : Offers owner programs j b) :
    after owner (after owner programs i a) j b = after owner (after owner programs j b) i a := by
  cases a with
  | call _ _ | fire _ => rfl
  | ret p x =>
      cases b with
      | call _ _ | fire _ => rfl
      | ret q y =>
          obtain ⟨c, next, hp⟩ := ha
          obtain ⟨d, next', hq⟩ := hb
          have hne := owner_ne hp hq fun hij heq => hapart hij p rfl (congrArg some heq.symm)
          rw [after, after, after, after, Function.update_of_ne hne,
            Function.update_of_ne (Ne.symm hne), Function.update_comm (Ne.symm hne)]

end Apart

end Owner

section Steps

variable [DecidableEq ι] [DecidableEq τ]

inductive Step (P : ι → Proto D) (owner : ι → LocId → τ) (s : Automata ι τ D R) :
    ι × Act D → Automata ι τ D R → Prop where
  | mk {i : ι} {a : Act D} {B : Automaton D} (hnext : Offers owner s.programs i a)
      (hmove : Move (P i) (s.automata i) a B) :
      Step P owner s (i, a) ⟨Function.update s.automata i B, after owner s.programs i a⟩

theorem commuting {P : ι → Proto D} {owner : ι → LocId → τ} (hfree : ∀ i, ConflictFree (P i)) :
    Run.Commuting (Step (R := R) P owner) := by
  intro s t u x y ht hu
  cases ht with
  | @mk i a B hnext hmove =>
      cases hu with
      | @mk j b C hnext' hmove' =>
          by_cases hij : i = j
          · subst hij
            have hcalls : ∀ p c d, a = .call p c → b = .call p d → c = d := by
              rintro p c d rfl rfl
              obtain ⟨next, hc⟩ := hnext
              obtain ⟨next', hd⟩ := hnext'
              cases hc.symm.trans hd
              rfl
            rcases hmove.commute (hfree i) hcalls hmove' with ⟨rfl, rfl⟩ | ⟨hapart, E, hE, hE'⟩
            · exact .inl ⟨rfl, rfl⟩
            · have hapart' : i = i → ∀ p, b.port = some p → a.port ≠ some p :=
                fun _ p hb ha => hapart p ha hb
              have hB : Move (P i) (Function.update s.automata i B i) b E := by
                rwa [Function.update_self]
              have hC : Move (P i) (Function.update s.automata i C i) a E := by
                rwa [Function.update_self]
              have hsame : Function.update (Function.update s.automata i B) i E =
                  Function.update (Function.update s.automata i C) i E := by
                rw [Function.update_idem, Function.update_idem]
              refine .inr ⟨_, .mk (offers_after (fun _ => hapart) hnext hnext') hB, ?_⟩
              dsimp only
              rw [after_comm (fun _ => hapart) hnext hnext', hsame]
              exact .mk (offers_after hapart' hnext' hnext) hC
          · have hapart : i = j → ∀ p, a.port = some p → b.port ≠ some p :=
              fun heq => absurd heq hij
            have hapart' : j = i → ∀ p, b.port = some p → a.port ≠ some p :=
              fun heq => absurd heq.symm hij
            have hB : Move (P j) (Function.update s.automata i B j) b C := by
              rwa [Function.update_of_ne (Ne.symm hij)]
            have hC : Move (P i) (Function.update s.automata j C i) a B := by
              rwa [Function.update_of_ne hij]
            refine .inr ⟨_, .mk (offers_after hapart hnext hnext') hB, ?_⟩
            dsimp only
            rw [after_comm hapart hnext hnext', Function.update_comm hij]
            exact .mk (offers_after hapart' hnext' hnext) hC

end Steps

/-! ## Whose calls are in progress -/

/-- A call in progress is the one its port's owner is at, and is not timed. -/
structure Orderly (owner : ι → LocId → τ) (s : Automata ι τ D R) : Prop where
  untimed : ∀ k, (s.programs k).Untimed
  pending : ∀ i p c, (s.automata i).ports p = .pending c → c.timed = false
  busy : ∀ i p, (s.automata i).ports p ≠ .idle →
    ∃ c next, s.programs (owner i p) = .call i p c next

section Orderly

variable {P : ι → Proto D} {owner : ι → LocId → τ} {s t : Automata ι τ D R} {i : ι}

theorem orderly_start {program : τ → Program ι D R} (huntimed : ∀ k, (program k).Untimed) :
    Orderly owner (start program) where
  untimed := huntimed
  pending := fun _ _ _ hp => by cases hp
  busy := fun _ _ hp => absurd rfl hp

variable [DecidableEq ι]

/-- A step at one instance, seen at any port of any instance. -/
theorem Orderly.of_ports (h : Orderly owner s) {B : Automaton D} {programs : τ → Program ι D R}
    (huntimed : ∀ k, (programs k).Untimed)
    (hpending : ∀ p c, B.ports p = .pending c → c.timed = false)
    (hbusy : ∀ p, B.ports p ≠ .idle → ∃ c next, programs (owner i p) = .call i p c next)
    (hothers : ∀ j p, j ≠ i → (s.automata j).ports p ≠ .idle →
      programs (owner j p) = s.programs (owner j p)) :
    Orderly owner ⟨Function.update s.automata i B, programs⟩ := by
  refine ⟨huntimed, fun j p c hp => ?_, fun j p hp => ?_⟩ <;> dsimp only at hp
  · by_cases hji : j = i
    · subst hji
      rw [Function.update_self] at hp
      exact hpending p c hp
    · rw [Function.update_of_ne hji] at hp
      exact h.pending j p c hp
  · by_cases hji : j = i
    · subst hji
      rw [Function.update_self] at hp
      exact hbusy p hp
    · rw [Function.update_of_ne hji] at hp
      obtain ⟨c, next, hc⟩ := h.busy j p hp
      exact ⟨c, next, (hothers j p hji hp).trans hc⟩

variable [DecidableEq τ]

theorem Step.orderly {x : ι × Act D} (hstep : Step P owner s x t) (h : Orderly owner s) :
    Orderly owner t := by
  cases hstep with
  | @mk i a B hnext hmove =>
      cases hmove with
      | @call p c hidle _ =>
          obtain ⟨next, hprogram⟩ := hnext
          refine h.of_ports h.untimed (fun q d hq => ?_) (fun q hq => ?_) fun _ _ _ _ => rfl
          · by_cases hqp : q = p
            · rw [hqp, setPort_self] at hq
              cases hq
              have huntimed := h.untimed (owner i p)
              rw [hprogram] at huntimed
              cases huntimed with
              | call hc _ => exact hc
            · rw [setPort_ne _ hqp] at hq
              exact h.pending i q d hq
          · by_cases hqp : q = p
            · rw [hqp]
              exact ⟨c, next, hprogram⟩
            · rw [setPort_ne _ hqp] at hq
              exact h.busy i q hq
      | @fire r rule _ _ =>
          refine h.of_ports h.untimed (fun q d hq => ?_) (fun q hq => ?_) fun _ _ _ _ => rfl
          · rcases fire_ports_cases (P i).typelessProtoDef.locKinds (s.automata i) rule.actions q
              with hsame | ⟨_, _, _, hsettled, _⟩
            · exact h.pending i q d (hsame.symm.trans hq)
            · cases hsettled.symm.trans hq
          · exact h.busy i q fun hidle => hq (fire_ports_idle hidle)
      | @ret p y hsettled =>
          obtain ⟨c, next, hprogram⟩ := hnext
          have hother : ∀ j q, (j = i → q ≠ p) → (s.automata j).ports q ≠ .idle →
              after owner s.programs i (.ret p y) (owner j q) = s.programs (owner j q) := by
            intro j q hjq hbusy
            obtain ⟨d, next', hd⟩ := h.busy j q hbusy
            exact Function.update_of_ne
              (owner_ne hprogram hd fun hij => Ne.symm (hjq hij.symm)) _ _
          refine h.of_ports (fun k => ?_) (fun q d hq => ?_) (fun q hq => ?_)
            fun j q hji hbusy => hother j q (fun hcon => absurd hcon hji) hbusy
          · rw [after]
            by_cases hk : k = owner i p
            · have huntimed := h.untimed (owner i p)
              rw [hk, Function.update_self]
              rw [hprogram] at huntimed ⊢
              cases huntimed with
              | call _ hnext => exact hnext y
            · rw [Function.update_of_ne hk]
              exact h.untimed k
          · by_cases hqp : q = p
            · rw [hqp, setPort_self] at hq
              cases hq
            · rw [setPort_ne _ hqp] at hq
              exact h.pending i q d hq
          · by_cases hqp : q = p
            · rw [hqp, setPort_self] at hq
              exact absurd rfl hq
            · rw [setPort_ne _ hqp] at hq
              obtain ⟨d, next', hd⟩ := h.busy i q hq
              exact ⟨d, next', (hother i q (fun _ => hqp) hq).trans hd⟩

end Orderly

end Automata

end ReoRs
