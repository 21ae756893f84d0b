import ReoRs.Lib.Components
import ReoRs.Networks
import ReoRs.Proofs.Scripts

/-!
# One interleaving says what all do

Every run of a network of instances is a run of its automata, as far as the
calls, the firings and the answers go. The automata of protocols without
conflicts commute, so that all their runs lead to the one end there is. To know
what the threads of a network come to in any interleaving it is enough to have
taken the automata through one. And since a call is at most sixteen steps at
the instance it is made at, this also says how long they may take.
-/

namespace ReoRs

variable {ι τ D R : Type}

open ProtoAll Coordination

/-! ## The automaton after a history -/

namespace Automaton

variable {P : Proto D} {A B C : Automaton D}

theorem Step.eq_of_ret {p : LocId} {x : Answer D} (h : Step P A (.ret p x) B) :
    B = A.setPort p .idle := by
  cases h with
  | ret _ | timeout _ _ => rfl

theorem Step.unique {a : Act D} (hB : Step P A a B) (hC : Step P A a C) : B = C := by
  cases a with
  | call p c =>
      cases hB with
      | call _ _ =>
          cases hC with
          | call _ _ => rfl
  | fire i =>
      cases hB with
      | fire hr _ =>
          cases hC with
          | fire hr' _ =>
              cases hr.symm.trans hr'
              rfl
  | ret p x => exact hB.eq_of_ret.trans hC.eq_of_ret.symm

theorem reach_unique {k : List (Act D)} (hB : Run.Reach (Step P) A k B)
    (hC : Run.Reach (Step P) A k C) : B = C := by
  induction hB generalizing C with
  | refl =>
      cases hC
      rfl
  | tail _ hstep ih =>
      cases hC with
      | tail hC hstep' =>
          obtain rfl := ih hC
          exact hstep.unique hstep'

def Act.isCall : Act D → Bool
  | .call _ _ => true
  | .fire _ | .ret _ _ => false

end Automaton

namespace Ports

variable {P : Proto D} {moves : Transfers D} {t : Ports D} {s₀ : ProtoAll D}

/-- A call is sixteen steps at most. -/
theorem length_le_of_reach {b b' : Build D} (hfin : (finish P).run b = .ok s₀ b')
    (hpos : 1 ≤ maxLocId P.typelessProtoDef) (hle : maxLocId P.typelessProtoDef ≤ 63)
    (hports : ∀ r ∈ P.typelessProtoDef.behaviour.rules,
      ∃ l, involved r.actions l ∧ isMemLoc P.typelessProtoDef.locKinds l = false)
    {h : List (Act D)} (hrun : Run.Reach (Step moves) (start s₀) h t) :
    h.length ≤ 16 * h.countP Act.isCall := by
  have hpaid : h.length + t.stepsLeft P ≤ 16 * h.countP Act.isCall := by
    refine hrun.invariant
      (P := fun h t => h.length + t.stepsLeft P ≤ 16 * h.countP Act.isCall) ?_ ?_
    · rw [Threads.stepsLeft_start hfin]
      exact Nat.zero_le _
    intro h t a u hrun ih hstep
    obtain ⟨infos, hseat⟩ := reach_seated hfin hpos hle hports hrun
    rw [List.length_cons, List.countP_cons]
    cases hcall : a.isCall with
    | true =>
        cases a with
        | call p c =>
            have hmore := (Threads.stepsLeft_call P hstep).2.2
            rw [if_pos rfl]
            omega
        | enter | fire | leave | panic | expire | late | receive | acquire | finalize | ret =>
            cases hcall
    | false =>
        have hless := (hstep.settles hpos hle hports hseat).2 (Act.ne_call_of_isCall hcall)
        rw [if_neg Bool.false_ne_true]
        omega
  exact Nat.le_trans (Nat.le_add_right _ _) hpaid

/-- What is observed of an act that is no call and no return. -/
theorem Act.observed_other {a : Act D} (hcall : ∀ p c, a ≠ .call p c)
    (hret : ∀ p x, a ≠ .ret p x) : a.observed = none ∨ ∃ i, a.observed = some (.fire i) := by
  cases a with
  | call p c => exact absurd rfl (hcall p c)
  | ret p x => exact absurd rfl (hret p x)
  | fire _ i => exact .inr ⟨i, rfl⟩
  | enter | leave | panic | expire | late | receive | acquire | finalize => exact .inl rfl

end Ports

namespace Network

/-- What is observed at an instance. -/
def observed (x : ι × Ports.Act D) : Option (ι × Automaton.Act D) := x.2.observed.map (x.1, ·)

/-- Calls are observed. -/
theorem countP_isCall (h : List (ι × Ports.Act D)) :
    (h.filterMap observed).countP (fun x => x.2.isCall) = h.countP fun x => x.2.isCall := by
  rw [List.countP_filterMap]
  refine List.countP_congr fun x _ => ?_
  obtain ⟨i, a⟩ := x
  cases a <;> simp [observed, Ports.Act.observed, Ports.Act.isCall, Automaton.Act.isCall]

variable [DecidableEq ι] [DecidableEq τ] {P : ι → Proto D} {owner : ι → LocId → τ}
  {moves : Transfers D} {s₀ : ι → ProtoAll D} {program : τ → Program ι D R}
  {t : Network ι τ D R} {h : List (ι × Ports.Act D)}

theorem reach_instance (hrun : Run.Reach (Step moves owner) (start s₀ program) h t) (i : ι) :
    Run.Reach (Ports.Step moves) (.start (s₀ i)) (Run.component i h) (t.instances i) := by
  induction hrun with
  | refl => exact .refl
  | @tail h t u x _ hstep ih =>
      have hone : ∃ v, u.instances = Function.update t.instances x.1 v ∧
          Ports.Step moves (t.instances x.1) x.2 v := by
        cases hstep with
        | call _ hstep | ret _ hstep | other _ _ hstep => exact ⟨_, rfl, hstep⟩
      obtain ⟨v, hu, hv⟩ := hone
      obtain ⟨j, a⟩ := x
      rw [hu]
      by_cases hji : j = i
      · subst hji
        rw [Run.component_cons_self, Function.update_self]
        exact ih.tail hv
      · rw [Run.component_cons_ne a h hji, Function.update_of_ne (Ne.symm hji)]
        exact ih

/-- The instances of a network are those of accepted protocols. -/
def Built (P : ι → Proto D) (s₀ : ι → ProtoAll D) : Prop :=
  ∀ i, ∃ heap b, (finish (P i)).run (.new heap) = .ok (s₀ i) b

/-- The state of the automata at some time of a run. -/
structure Follows (P : ι → Proto D) (owner : ι → LocId → τ) (program : τ → Program ι D R)
    (h : List (ι × Ports.Act D)) (t : Network ι τ D R) (U : Automata ι τ D R) : Prop where
  reach : Run.Reach (Automata.Step P owner) (.start program) (h.filterMap observed) U
  programs : U.programs = t.programs
  instances : ∀ i, Run.Reach (Automaton.Step (P i)) .start
    ((Run.component i h).filterMap Ports.Act.observed) (U.automata i)

theorem Follows.orderly {U : Automata ι τ D R} (hU : Follows P owner program h t U)
    (huntimed : ∀ k, (program k).Untimed) : Automata.Orderly owner U :=
  hU.reach.preserves (Automata.orderly_start huntimed) fun hs hstep => hstep.orderly hs

/-- The automaton of an instance makes the step that is observed. -/
theorem Follows.exists_step (hs₀ : Built P s₀) (hP : ∀ i, Ports.Plain (P i))
    (hrun : Run.Reach (Step .actual owner) (start s₀ program) h t) {U : Automata ι τ D R}
    (hU : Follows P owner program h t U) {i : ι} {a : Ports.Act D} {u : Ports D}
    (hstep : Ports.Step .actual (t.instances i) a u) {b : Automaton.Act D}
    (hb : a.observed = some b) : ∃ B, Automaton.Step (P i) (U.automata i) b B := by
  obtain ⟨heap, build, hfin⟩ := hs₀ i
  obtain ⟨_, _, B, hB, -⟩ :=
    Ports.reach_tracked (hP i) hfin ((reach_instance hrun i).tail hstep)
  rw [List.filterMap_cons_some hb] at hB
  cases hB with
  | tail hA hlast =>
      obtain rfl := Automaton.reach_unique hA (hU.instances i)
      exact ⟨B, hlast⟩

theorem reach_automata (hs₀ : Built P s₀) (hP : ∀ i, Ports.Plain (P i))
    (huntimed : ∀ k, (program k).Untimed)
    (hrun : Run.Reach (Step .actual owner) (start s₀ program) h t) :
    ∃ U, Follows P owner program h t U := by
  induction hrun with
  | refl => exact ⟨.start program, .refl, rfl, fun i => .refl⟩
  | @tail h t u x hrun hstep ih =>
      obtain ⟨U, hU⟩ := ih
      -- a step that is not observed changes no program
      have hquiet : ∀ i a, x = (i, a) → a.observed = none → u.programs = t.programs →
          ∃ U, Follows P owner program (x :: h) u U := by
        rintro i a rfl hnone hsame
        refine ⟨U, ?_, hU.programs.trans hsame.symm, fun j => ?_⟩
        · rw [List.filterMap_cons_none (by rw [observed, hnone]; rfl)]
          exact hU.reach
        · by_cases hij : i = j
          · subst hij
            rw [Run.component_cons_self, List.filterMap_cons_none hnone]
            exact hU.instances i
          · rw [Run.component_cons_ne a h hij]
            exact hU.instances j
      have hseen : ∀ i a v b, x = (i, a) → a.observed = some b →
          Ports.Step .actual (t.instances i) a v → Automata.Offers owner t.programs i b →
          u.programs = Automata.after owner t.programs i b →
          ∃ U, Follows P owner program (x :: h) u U := by
        rintro i a v b rfl hsome hv hoffers hprograms
        obtain ⟨B, hB⟩ := hU.exists_step hs₀ hP hrun hv hsome
        have hmove := hB.move fun p c hp => (hU.orderly huntimed).pending i p c hp
        rw [← hU.programs] at hoffers hprograms
        refine ⟨⟨Function.update U.automata i B, Automata.after owner U.programs i b⟩, ?_,
          hprograms.symm, fun j => ?_⟩
        · rw [List.filterMap_cons_some (show observed (i, a) = some (i, b) by
            rw [observed, hsome]; rfl)]
          exact hU.reach.tail (.mk hoffers hmove)
        · by_cases hij : i = j
          · subst hij
            rw [Run.component_cons_self, List.filterMap_cons_some hsome]
            show Run.Reach _ _ _ (Function.update U.automata i B i)
            rw [Function.update_self]
            exact (hU.instances i).tail hB
          · rw [Run.component_cons_ne a h hij]
            show Run.Reach _ _ _ (Function.update U.automata i B j)
            rw [Function.update_of_ne (Ne.symm hij)]
            exact hU.instances j
      cases hstep with
      | @call i p c next v hprogram hv =>
          exact hseen i _ v (.call p c) rfl rfl hv ⟨next, hprogram⟩ rfl
      | @ret i p c next y v hprogram hv =>
          refine hseen i _ v (.ret p y) rfl rfl hv ⟨c, next, hprogram⟩ ?_
          show Function.update t.programs (owner i p) (next y) = _
          rw [Automata.after, hprogram]
          rfl
      | @other i a v hcall hret hv =>
          rcases Ports.Act.observed_other hcall hret with hnone | ⟨r, hfire⟩
          · exact hquiet i a rfl hnone rfl
          · exact hseen i a v (.fire r) rfl hfire hv trivial rfl

/-! ## The end of a run -/

section End

variable {U : Automata ι τ D R}

/-- Where no thread of the network has a step to make, no instance has one. -/
theorem Follows.resting (hs₀ : Built P s₀) (hP : ∀ i, Ports.Plain (P i))
    (huntimed : ∀ k, (program k).Untimed)
    (hrun : Run.Reach (Step .actual owner) (start s₀ program) h t)
    (hU : Follows P owner program h t U) (hstuck : Run.Stuck (Step .actual owner) t) (i : ι) :
    Ports.Resting .actual (t.instances i) := by
  intro a u hstep
  by_contra hcall
  by_cases hret : ∃ p x, a = .ret p x
  · obtain ⟨p, x, rfl⟩ := hret
    obtain ⟨B, hB⟩ := hU.exists_step hs₀ hP hrun hstep rfl
    have hbusy : (U.automata i).ports p ≠ .idle := by
      intro hidle
      cases hB with
      | ret hsettled => cases hidle.symm.trans hsettled
      | timeout hpending _ => cases hidle.symm.trans hpending
    obtain ⟨c, next, hprogram⟩ := (hU.orderly huntimed).busy i p hbusy
    rw [hU.programs] at hprogram
    exact hstuck _ _ (.ret hprogram hstep)
  · refine hstuck _ _ (.other ?_ ?_ hstep)
    · exact Ports.Act.ne_call_of_isCall (Bool.eq_false_iff.2 hcall)
    · exact fun p x heq => hret ⟨p, x, heq⟩

theorem Follows.finished (hs₀ : Built P s₀) (hP : ∀ i, Ports.Plain (P i))
    (huntimed : ∀ k, (program k).Untimed)
    (hrun : Run.Reach (Step .actual owner) (start s₀ program) h t)
    (hU : Follows P owner program h t U) (hstuck : Run.Stuck (Step .actual owner) t) (i : ι) :
    (∃ infos, Standing (P i) infos (t.instances i).proto) ∧
      Ports.Finished (P i) (t.instances i) (U.automata i) := by
  obtain ⟨heap, b, hfin⟩ := hs₀ i
  obtain ⟨infos, owed, A, hA, ht⟩ := Ports.reach_tracked (hP i) hfin (reach_instance hrun i)
  obtain rfl := Automaton.reach_unique hA (hU.instances i)
  exact ⟨⟨infos, ht.standing⟩, ht.finished (hP i) (hU.resting hs₀ hP huntimed hrun hstuck i)⟩

/-- Then the automata have none either. -/
theorem Follows.stuck (hs₀ : Built P s₀) (hP : ∀ i, Ports.Plain (P i))
    (huntimed : ∀ k, (program k).Untimed) (hfree : ∀ i, ConflictFree (P i))
    (hrun : Run.Reach (Step .actual owner) (start s₀ program) h t)
    (hU : Follows P owner program h t U) (hstuck : Run.Stuck (Step .actual owner) t) :
    Run.Stuck (Automata.Step P owner) U := by
  rintro _ V ⟨hnext, hmove⟩
  rename_i i a B
  obtain ⟨⟨infos, hs⟩, hfinished⟩ := hU.finished hs₀ hP huntimed hrun hstuck i
  cases hmove with
  | @call p c hidle hkind =>
      obtain ⟨next, hprogram⟩ := hnext
      rw [hU.programs] at hprogram
      have hcalls : (t.instances i).calls p = none := by
        rcases hfinished.calls p with ⟨hnone, -⟩ | ⟨x, -, -, -, hp⟩
        · exact hnone
        · cases hidle.symm.trans hp
      cases hdatum : c.datum with
      | some v =>
          rw [hdatum] at hkind
          obtain ⟨sp, b, hsp, -⟩ := hs.shaped.isPutter hkind
          exact hstuck _ _ (.call hprogram (.callPut hcalls hsp hdatum))
      | none =>
          rw [hdatum] at hkind
          obtain ⟨b, hsp⟩ := hs.shaped.isGetter hkind
          exact hstuck _ _ (.call hprogram (.callGet hcalls hsp hdatum))
  | @fire r rule hr henabled =>
      have hmem := List.mem_of_getElem? hr
      refine hfinished.rules rule hmem ?_ henabled
      rw [(hfree i).unguarded rule hmem]
      rfl
  | @ret p x hsettled =>
      rcases hfinished.calls p with ⟨-, hp⟩ | ⟨y, -, -, -, hp⟩
      · cases hp.symm.trans hsettled
      · cases hp.symm.trans hsettled

end End

section OneRun

variable (hs₀ : Built P s₀) (hP : ∀ i, Ports.Plain (P i)) (hfree : ∀ i, ConflictFree (P i))
  (huntimed : ∀ k, (program k).Untimed) {g : List (ι × Automaton.Act D)} {U : Automata ι τ D R}
  (hone : Run.Reach (Automata.Step P owner) (.start program) g U)
  (hend : Run.Stuck (Automata.Step P owner) U)
  (hrun : Run.Reach (Step .actual owner) (start s₀ program) h t)
include hs₀ hP hfree huntimed hone hend hrun

theorem exists_perm : ∃ k, (k ++ h.filterMap observed).Perm g := by
  obtain ⟨V, hV⟩ := reach_automata hs₀ hP huntimed hrun
  obtain ⟨k, -, hperm⟩ := (Automata.commuting hfree).reach_of_stuck hV.reach hone hend
  exact ⟨k, hperm⟩

theorem length_le (hports : ∀ i, ∀ r ∈ (P i).typelessProtoDef.behaviour.rules,
      ∃ l, involved r.actions l ∧ isMemLoc (P i).typelessProtoDef.locKinds l = false) :
    h.length ≤ 16 * g.countP fun x => x.2.isCall := by
  obtain ⟨k, hperm⟩ := exists_perm hs₀ hP hfree huntimed hone hend hrun
  have hlen : h.length ≤ 16 * h.countP fun x => x.2.isCall := by
    refine Run.length_le_of_component fun i => ?_
    obtain ⟨heap, b, hfin⟩ := hs₀ i
    exact Ports.length_le_of_reach hfin (hP i).pos (hP i).le (hports i) (reach_instance hrun i)
  have hcalls := hperm.countP_eq fun x => x.2.isCall
  rw [List.countP_append, countP_isCall] at hcalls
  refine Nat.le_trans hlen (Nat.mul_le_mul_left 16 ?_)
  rw [← hcalls]
  exact Nat.le_add_left _ _

theorem ends_alike (hstuck : Run.Stuck (Step .actual owner) t) :
    t.programs = U.programs ∧ ∀ i, Ports.Finished (P i) (t.instances i) (U.automata i) := by
  obtain ⟨V, hV⟩ := reach_automata hs₀ hP huntimed hrun
  have hstuckV := hV.stuck hs₀ hP huntimed hfree hrun hstuck
  obtain ⟨rfl, -⟩ := (Automata.commuting hfree).eq_of_stuck hV.reach hone hstuckV hend
  exact ⟨hV.programs.symm, fun i => (hV.finished hs₀ hP huntimed hrun hstuck i).2⟩

end OneRun

/-- Where the automata of a network have one run to the end, every interleaving
of the threads does what it does, in some order, takes at most sixteen steps
for each of its calls, and ends where it ends. -/
theorem one_run (P : ι → Proto D) (owner : ι → LocId → τ) (hs₀ : Built P s₀)
    (hP : ∀ i, Ports.Plain (P i)) (hfree : ∀ i, ConflictFree (P i))
    (hports : ∀ i, ∀ r ∈ (P i).typelessProtoDef.behaviour.rules,
      ∃ l, involved r.actions l ∧ isMemLoc (P i).typelessProtoDef.locKinds l = false)
    (huntimed : ∀ k, (program k).Untimed) {g : List (ι × Automaton.Act D)} {U : Automata ι τ D R}
    (hone : Run.Reach (Automata.Step P owner) (.start program) g U)
    (hend : Run.Stuck (Automata.Step P owner) U)
    (hrun : Run.Reach (Step .actual owner) (start s₀ program) h t) :
    (∃ k, (k ++ h.filterMap observed).Perm g) ∧
      h.length ≤ 16 * g.countP (fun x => x.2.isCall) ∧
      (Run.Stuck (Step .actual owner) t → t.programs = U.programs ∧
        ∀ i, Ports.Finished (P i) (t.instances i) (U.automata i)) :=
  ⟨exists_perm hs₀ hP hfree huntimed hone hend hrun,
    length_le hs₀ hP hfree huntimed hone hend hrun hports,
    ends_alike hs₀ hP hfree huntimed hone hend hrun⟩

end Network

end ReoRs
