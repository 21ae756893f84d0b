import ReoRs.Automaton
import ReoRs.Lib.Run

/-!
# What a port has been told

The history of a run seen from one port: the calls it made and the answers it
got, in order. A port makes one call at a time, so the last call without an
answer is the current one, and a call that timed out has had no part in
anything and is left out.

Answers come back at any later time, and what a protocol does is best said of
the firings. `settledAt` has the calls of a port that a rule took part in,
whether their answers are back or not. It grows with a firing by the ports of
the rule and with nothing else, so what a protocol does to its ports over a
run is an induction over firings (`settled_of_reach`).
-/

namespace ReoRs

variable {D : Type}

theorem getElem?_of_initial {α : Type} {l l' : List α} {n : Nat} {x : α} (h : l <+: l')
    (hx : l[n]? = some x) : l'[n]? = some x := by
  obtain ⟨k, rfl⟩ := h
  rw [List.getElem?_append_left (List.getElem?_eq_some_iff.1 hx).1]
  exact hx

theorem getElem?_concat_cases {α : Type} {l : List α} {n : Nat} {x y : α}
    (hx : (l ++ [y])[n]? = some x) : l[n]? = some x ∨ n = l.length ∧ x = y := by
  have hlen := (List.getElem?_eq_some_iff.1 hx).1
  rw [List.length_append, List.length_singleton] at hlen
  rcases Nat.lt_succ_iff_lt_or_eq.1 hlen with hlt | heq
  · rw [List.getElem?_append_left hlt] at hx
    exact .inl hx
  · rw [heq, List.getElem?_concat_length] at hx
    exact .inr ⟨heq, (Option.some.inj hx).symm⟩

theorem exists_of_forall₂ {α β : Type} {R : α → β → Prop} {xs : List α} {ys : List β}
    (h : List.Forall₂ R xs ys) {n : Nat} {y : β} (hy : ys[n]? = some y) :
    ∃ x, xs[n]? = some x ∧ R x y := by
  induction h generalizing n with
  | nil => cases hy
  | @cons x y' xs ys hxy _ ih =>
      cases n with
      | zero =>
          cases hy
          exact ⟨x, rfl, hxy⟩
      | succ n => exact ih hy

theorem exists_of_map_fst {α β : Type} {l : List (α × β)} {xs : List α}
    (h : l.map Prod.fst = xs) {n : Nat} {x : α} (hx : xs[n]? = some x) :
    ∃ y, l[n]? = some (x, y) := by
  rw [← h, List.getElem?_map, Option.map_eq_some_iff] at hx
  obtain ⟨⟨x', y⟩, hy, rfl⟩ := hx
  exact ⟨y, hy⟩

def Answer.timedOut : Answer D → Bool
  | timeout _ => true
  | moved | observed _ | got _ => false

theorem PortCall.timedOut_putAnswer (c : PortCall D) (moved : Bool) :
    (c.putAnswer moved).timedOut = false := by
  cases moved with
  | true => simp [putAnswer, Answer.timedOut]
  | false => cases c <;> rfl

theorem PortCall.timedOut_timeoutAnswer (c : PortCall D) : c.timeoutAnswer.timedOut = true := by
  cases c <;> rfl

namespace Automaton

variable {P : Proto D} {A B : Automaton D} {h : List (Act D)} {p q : LocId} {c : PortCall D}
  {a : Answer D}

/-- The call of the port that has no answer yet, in a history with the newest
first. -/
def current (p : LocId) : List (Act D) → Option (PortCall D)
  | [] => none
  | .call q c :: h => if q = p then some c else current p h
  | .fire _ :: h => current p h
  | .ret q _ :: h => if q = p then none else current p h

/-- The calls of the port that have their answers, the oldest first. -/
def completed (p : LocId) : List (Act D) → List (PortCall D × Answer D)
  | [] => []
  | .call _ _ :: h | .fire _ :: h => completed p h
  | .ret q a :: h =>
      if q = p ∧ a.timedOut = false then completed p h ++ ((current p h).map (·, a)).toList
      else completed p h

/-- The calls of the port that did not time out. -/
def asked (p : LocId) (h : List (Act D)) : List (PortCall D) :=
  (completed p h).map Prod.fst ++ (current p h).toList

/-- All calls of the port. -/
def made (p : LocId) : List (Act D) → List (PortCall D)
  | [] => []
  | .call q c :: h => if q = p then made p h ++ [c] else made p h
  | .fire _ :: h | .ret _ _ :: h => made p h

/-- What the port is waiting to be told, if its call has been settled. -/
def untold (p : LocId) (h : List (Act D)) : PortState D → List (PortCall D × Answer D)
  | .settled a => ((current p h).map (·, a)).toList
  | .idle | .pending _ => []

/-- The calls of the port that a rule took part in. -/
def settledAt (p : LocId) (h : List (Act D)) (A : Automaton D) : List (PortCall D × Answer D) :=
  completed p h ++ untold p h (A.ports p)

/-- What becomes of a call between two states. -/
def settles : PortState D → PortState D → List (PortCall D × Answer D)
  | .pending c, .settled a => [(c, a)]
  | _, _ => []

theorem settles_self (x : PortState D) : settles x x = [] := by
  cases x <;> rfl

section

variable (h)

@[simp] theorem current_call_self : current p (.call p c :: h) = some c := if_pos rfl

@[simp] theorem current_call_ne (hqp : q ≠ p) : current p (.call q c :: h) = current p h :=
  if_neg hqp

@[simp] theorem current_ret_self : current p (.ret p a :: h) = none := if_pos rfl

@[simp] theorem current_ret_ne (hqp : q ≠ p) : current p (.ret q a :: h) = current p h :=
  if_neg hqp

@[simp] theorem completed_ret_self (ha : a.timedOut = false) :
    completed p (.ret p a :: h) = completed p h ++ ((current p h).map (·, a)).toList :=
  if_pos ⟨rfl, ha⟩

@[simp] theorem completed_ret_ne (hqp : q ≠ p) :
    completed p (.ret q a :: h) = completed p h :=
  if_neg fun hcon => hqp hcon.1

@[simp] theorem completed_timeout (q : LocId) (c : PortCall D) :
    completed p (.ret q c.timeoutAnswer :: h) = completed p h := by
  simp [completed, c.timedOut_timeoutAnswer]

@[simp] theorem made_call_self : made p (.call p c :: h) = made p h ++ [c] := if_pos rfl

@[simp] theorem made_call_ne (hqp : q ≠ p) : made p (.call q c :: h) = made p h := if_neg hqp

end

/-- The history has the call the port is in. -/
inductive Recorded (p : LocId) (h : List (Act D)) : PortState D → Prop where
  | idle (hnone : current p h = none) : Recorded p h .idle
  | pending {c : PortCall D} (hcall : current p h = some c) : Recorded p h (.pending c)
  | settled {c : PortCall D} {a : Answer D} (hcall : current p h = some c)
      (ha : a.timedOut = false) : Recorded p h (.settled a)

/-- A call that has its answer was settled. -/
theorem completed_prefix (p : LocId) (h : List (Act D)) (A : Automaton D) :
    completed p h <+: settledAt p h A :=
  List.prefix_append _ _

/-! ## A step -/

/-- A call that was settled has not timed out. -/
theorem Recorded.settledAt_prefix (hrec : Recorded p h (A.ports p)) :
    (settledAt p h A).map Prod.fst <+: asked p h := by
  rw [settledAt, asked, List.map_append]
  refine (List.prefix_append_right_inj _).2 ?_
  generalize A.ports p = x at hrec ⊢
  cases hrec with
  | idle _ | pending _ => exact List.nil_prefix
  | settled hcall _ =>
      rw [untold, hcall]
      exact List.prefix_refl _

theorem Recorded.asked_of_settled (hrec : Recorded p h (A.ports p)) {n : Nat}
    (hc : (settledAt p h A)[n]? = some (c, a)) : (asked p h)[n]? = some c := by
  refine getElem?_of_initial hrec.settledAt_prefix ?_
  rw [List.getElem?_map, hc]
  rfl

theorem settledAt_of_idle (hp : A.ports p = .idle) : settledAt p h A = completed p h := by
  rw [settledAt, hp, untold, List.append_nil]

/-- A port without a call has all its answers. -/
theorem Recorded.asked_of_idle (hrec : Recorded p h (A.ports p)) (hp : A.ports p = .idle) :
    asked p h = (settledAt p h A).map Prod.fst := by
  rw [settledAt_of_idle hp]
  rw [hp] at hrec
  cases hrec with
  | idle hnone => rw [asked, hnone, Option.toList_none, List.append_nil]

/-- The last call of a pending port has no answer yet. -/
theorem Recorded.asked_of_pending (hrec : Recorded p h (A.ports p))
    (hp : A.ports p = .pending c) : asked p h = (settledAt p h A).map Prod.fst ++ [c] := by
  rw [settledAt, hp, untold, List.append_nil]
  rw [hp] at hrec
  cases hrec with
  | pending hcall =>
      rw [asked, hcall]
      rfl

/-- A firing answers calls, and leaves the others. -/
theorem fire_ports_cases (locKinds : HashMap LocId LocKind) (A : Automaton D)
    (actions : List ActionDef) (p : LocId) :
    (A.fire locKinds actions).ports p = A.ports p ∨
      ∃ c a, A.ports p = .pending c ∧ (A.fire locKinds actions).ports p = .settled a ∧
        a.timedOut = false := by
  cases hp : A.ports p with
  | idle => exact .inl (fire_ports_idle hp)
  | settled a => exact .inl (by simp only [fire, hp])
  | pending c =>
      simp only [fire, hp]
      split
      · exact .inr ⟨c, _, rfl, rfl, c.timedOut_putAnswer _⟩
      · exact .inr ⟨c, _, rfl, rfl, rfl⟩
      · exact .inl rfl

theorem Recorded.fire (hrec : Recorded p h (A.ports p)) (i : RuleId)
    (locKinds : HashMap LocId LocKind) (actions : List ActionDef) :
    Recorded p (.fire i :: h) ((A.fire locKinds actions).ports p) ∧
      settledAt p (.fire i :: h) (A.fire locKinds actions) =
        settledAt p h A ++ settles (A.ports p) ((A.fire locKinds actions).ports p) := by
  rw [settledAt, settledAt]
  rcases fire_ports_cases locKinds A actions p with hsame | ⟨c, a, hp, hsettled, ha⟩
  · rw [hsame]
    generalize A.ports p = x at hrec ⊢
    cases hrec with
    | idle hnone => exact ⟨.idle hnone, by simp [completed, untold, settles]⟩
    | pending hcall => exact ⟨.pending hcall, by simp [completed, untold, settles]⟩
    | settled hcall ha =>
        exact ⟨.settled hcall ha, by simp [completed, untold, settles, current]⟩
  · rw [hp] at hrec ⊢
    rw [hsettled]
    cases hrec with
    | pending hcall =>
        exact ⟨.settled hcall ha, by simp [completed, untold, settles, current, hcall]⟩

/-- A step of another port. -/
theorem Recorded.other {b : Act D} (hrec : Recorded p h (A.ports p))
    (hcurrent : current p (b :: h) = current p h)
    (hcompleted : completed p (b :: h) = completed p h) (hports : B.ports p = A.ports p) :
    Recorded p (b :: h) (B.ports p) ∧ settledAt p (b :: h) B = settledAt p h A := by
  rw [settledAt, settledAt, hports, hcompleted]
  generalize A.ports p = x at hrec ⊢
  cases hrec with
  | idle hnone => exact ⟨.idle (hcurrent.trans hnone), rfl⟩
  | pending hcall => exact ⟨.pending (hcurrent.trans hcall), rfl⟩
  | settled hcall ha =>
      refine ⟨.settled (hcurrent.trans hcall) ha, ?_⟩
      rw [untold, untold, hcurrent]

/-- Nothing but a firing settles a call. -/
theorem Step.recorded_of_not_fire {b : Act D} (hstep : Step P A b B) (hb : ∀ i, b ≠ .fire i)
    (hrec : Recorded p h (A.ports p)) :
    Recorded p (b :: h) (B.ports p) ∧ settledAt p (b :: h) B = settledAt p h A := by
  cases hstep with
  | fire _ _ => exact absurd rfl (hb _)
  | @call q c hidle _ =>
      by_cases hqp : q = p
      · subst hqp
        rw [settledAt, settledAt, setPort_self, hidle]
        exact ⟨.pending (current_call_self h), rfl⟩
      · exact hrec.other (current_call_ne h hqp) rfl (setPort_ne _ (Ne.symm hqp))
  | @ret q a hsettled =>
      by_cases hqp : q = p
      · subst hqp
        rw [hsettled] at hrec
        cases hrec with
        | settled hcall ha =>
            rw [settledAt, settledAt, setPort_self, hsettled]
            exact ⟨.idle (current_ret_self h), by simp [ha, untold]⟩
      · exact hrec.other (current_ret_ne h hqp) (completed_ret_ne h hqp)
          (setPort_ne _ (Ne.symm hqp))
  | @timeout q c hpending _ =>
      by_cases hqp : q = p
      · subst hqp
        rw [settledAt, settledAt, setPort_self, hpending]
        exact ⟨.idle (current_ret_self h), by simp [untold]⟩
      · exact hrec.other (current_ret_ne h hqp) (completed_timeout h q c)
          (setPort_ne _ (Ne.symm hqp))

theorem Step.recorded {b : Act D} (hstep : Step P A b B) (hrec : Recorded p h (A.ports p)) :
    Recorded p (b :: h) (B.ports p) := by
  by_cases hb : ∃ i, b = .fire i
  · obtain ⟨i, rfl⟩ := hb
    cases hstep with
    | fire _ _ => exact (hrec.fire i _ _).1
  · exact (hstep.recorded_of_not_fire (fun i hi => hb ⟨i, hi⟩) hrec).1

/-! ## Runs -/

theorem recorded_of_reach (hrun : Run.Reach (Step P) .start h A) (p : LocId) :
    Recorded p h (A.ports p) :=
  hrun.invariant (P := fun h A => Recorded p h (A.ports p)) (.idle rfl)
    fun _ hrec hstep => hstep.recorded hrec

/-- What a protocol does to its ports over a run is an induction over the
firings. -/
theorem settled_of_reach
    {Q : (LocId → List (PortCall D × Answer D)) → (LocId → Option (Datum D)) → Prop}
    (hstart : Q (fun _ => []) fun _ => none)
    (hfire : ∀ {A : Automaton D} {S : LocId → List (PortCall D × Answer D)} {i : RuleId}
      {r : RuleDef}, P.typelessProtoDef.behaviour.rules[i]? = some r →
      A.Enabled P.typelessProtoDef.locKinds r.actions → Q S A.cells →
      Q (fun p => S p ++ settles (A.ports p)
        ((A.fire P.typelessProtoDef.locKinds r.actions).ports p))
        (A.fire P.typelessProtoDef.locKinds r.actions).cells)
    (hrun : Run.Reach (Step P) .start h A) :
    (∀ p, Recorded p h (A.ports p)) ∧ Q (fun p => settledAt p h A) A.cells := by
  refine ⟨recorded_of_reach hrun,
    hrun.invariant (P := fun h A => Q (fun p => settledAt p h A) A.cells) ?_ ?_⟩
  · exact hstart
  intro h A b B hA hQ hstep
  have hrec := recorded_of_reach hA
  by_cases hb : ∃ i, b = .fire i
  · obtain ⟨i, rfl⟩ := hb
    cases hstep with
    | @fire _ r hr henabled =>
        rw [funext fun p => ((hrec p).fire i P.typelessProtoDef.locKinds r.actions).2]
        exact hfire hr henabled hQ
  · rw [funext fun p => (hstep.recorded_of_not_fire (fun i hi => hb ⟨i, hi⟩) (hrec p)).2]
    have hcells : B.cells = A.cells := by
      cases hstep with
      | fire _ _ => exact absurd ⟨_, rfl⟩ hb
      | call _ _ | ret _ | timeout _ _ => rfl
    rw [hcells]
    exact hQ

/-- Where no call is timed all calls count. -/
theorem asked_of_untimed (hrun : Run.Reach (Step P) .start h A)
    (huntimed : ∀ c ∈ made p h, c.timed = false) : asked p h = made p h := by
  have hall := hrun.invariant (P := fun h _ => (∀ c ∈ made p h, c.timed = false) →
    asked p h = made p h ∧ ∀ c, current p h = some c → c.timed = false) ?_ ?_
  · exact (hall huntimed).1
  · exact fun _ => ⟨rfl, fun c hc => by cases hc⟩
  intro h A b B hA hasked hstep huntimed
  have hrec := recorded_of_reach hA p
  cases hstep with
  | fire _ _ => exact hasked huntimed
  | @call q c hidle _ =>
      by_cases hqp : q = p
      · subst hqp
        rw [hidle] at hrec
        cases hrec with
        | idle hnone =>
            simp only [made_call_self, List.mem_append, List.mem_singleton] at huntimed
            have hold := (hasked fun d hd => huntimed d (.inl hd)).1
            simp only [asked, hnone, Option.toList_none, List.append_nil] at hold
            simp [asked, completed, hold, huntimed]
      · simp only [made_call_ne h hqp] at huntimed
        simpa [asked, completed, hqp] using hasked huntimed
  | @ret q a hsettled =>
      obtain ⟨hold, htimed⟩ := hasked huntimed
      by_cases hqp : q = p
      · subst hqp
        rw [hsettled] at hrec
        cases hrec with
        | settled hcall ha =>
            simp only [asked, hcall] at hold
            simp [asked, made, ha, hcall, ← hold]
      · simpa [asked, made, hqp] using And.intro hold htimed
  | @timeout q c hpending htimed =>
      obtain ⟨hold, huntimed⟩ := hasked huntimed
      by_cases hqp : q = p
      · subst hqp
        rw [hpending] at hrec
        cases hrec with
        | pending hcall => cases (huntimed c hcall).symm.trans htimed
      · simpa [asked, made, hqp] using And.intro hold huntimed

end Automaton

end ReoRs
