import ReoRs.Proofs.RuleSets
import ReoRs.Proto.Ports

/-!
# The automaton of a protocol's rules

What a protocol is for, with nothing of how it is run. A cell has a value or
has none, and a port has a call or has none. A rule may fire when all its ports
have calls no rule has taken part in yet, the cells it takes from are full and
the cells it gives to are empty; and then every value is at once where it
goes, and every call of the rule has its answer.

There are no locks, bits, pointers or messages here, and a call's answer is
settled the moment its rule fires, however long the answer takes to get to the
caller. This is for actions with one getter.
-/

namespace ReoRs

variable {D : Type}

inductive PortState (D : Type) where
  | idle
  /-- in a call that no rule has taken part in -/
  | pending (c : PortCall D)
  | settled (a : Answer D)

structure Automaton (D : Type) where
  cells : LocId → Option (Datum D)
  ports : LocId → PortState D

namespace Automaton

inductive Act (D : Type) where
  | call (p : LocId) (c : PortCall D)
  | fire (i : RuleId)
  | ret (p : LocId) (a : Answer D)

def start : Automaton D := ⟨fun _ => none, fun _ => .idle⟩

section

variable (locKinds : HashMap LocId LocKind) (A : Automaton D)

/-- The value there is to take at a putter. -/
def offered (p : LocId) : Option (Datum D) :=
  if isMemLoc locKinds p then A.cells p
  else
    match A.ports p with
    | .pending c => c.datum
    | .idle | .settled _ => none

/-- There is room for a value, or a call for it. -/
def Accepts (g : LocId) : Prop :=
  if isMemLoc locKinds g then A.cells g = none else ∃ c, A.ports g = .pending c ∧ c.datum = none

/-- A value that goes to the getter is gone from the putter. -/
def takes (g : LocId) : Bool :=
  isMemLoc locKinds g ||
    match A.ports g with
    | .pending c => c.wantsData
    | .idle | .settled _ => false

def Enabled (actions : List ActionDef) : Prop :=
  ∀ a ∈ actions, A.offered locKinds a.putter ≠ none ∧ ∀ g ∈ a.getters, A.Accepts locKinds g

/-- All actions at once. -/
def fire (actions : List ActionDef) : Automaton D where
  cells l :=
    if isMemLoc locKinds l then
      match actions.find? fun a => decide (l ∈ a.getters) with
      | some a => A.offered locKinds a.putter
      | none => if actions.any (·.putter == l) then none else A.cells l
    else A.cells l
  ports l :=
    match A.ports l with
    | .pending c =>
        match actions.find? (·.putter == l), actions.find? fun a => decide (l ∈ a.getters) with
        | some a, _ => .settled (c.putAnswer (a.getters.any (A.takes locKinds)))
        | none, some a => .settled (.got (if c.wantsData then A.offered locKinds a.putter else none))
        | none, none => .pending c
    | .idle => .idle
    | .settled a => .settled a

end

def setPort (A : Automaton D) (p : LocId) (x : PortState D) : Automaton D :=
  { A with ports := Function.update A.ports p x }

inductive Step (P : Proto D) (A : Automaton D) : Act D → Automaton D → Prop where
  | call {p : LocId} {c : PortCall D} (hidle : A.ports p = .idle)
      (hkind : P.typelessProtoDef.locKinds.lookup p =
        some (if c.datum.isSome then .portPutter else .portGetter)) :
      Step P A (.call p c) (A.setPort p (.pending c))
  | fire {i : RuleId} {r : RuleDef} (hr : P.typelessProtoDef.behaviour.rules[i]? = some r)
      (henabled : A.Enabled P.typelessProtoDef.locKinds r.actions) :
      Step P A (.fire i) (A.fire P.typelessProtoDef.locKinds r.actions)
  | ret {p : LocId} {a : Answer D} (hsettled : A.ports p = .settled a) :
      Step P A (.ret p a) (A.setPort p .idle)
  | timeout {p : LocId} {c : PortCall D} (hpending : A.ports p = .pending c)
      (htimed : c.timed = true) : Step P A (.ret p c.timeoutAnswer) (A.setPort p .idle)

/-! ## One location after a firing -/

section

variable {locKinds : HashMap LocId LocKind} {A : Automaton D} {actions : List ActionDef}
  {a : ActionDef} {l : LocId} {c : PortCall D}

theorem offered_cell (hmem : isMemLoc locKinds l = true) : A.offered locKinds l = A.cells l := by
  rw [offered, if_pos hmem]

theorem offered_port (hmem : isMemLoc locKinds l = false) (hc : A.ports l = .pending c) :
    A.offered locKinds l = c.datum := by
  rw [offered, hmem, if_neg (by simp), hc]

/-- A port has something to offer only in a putting call. -/
theorem exists_of_offered (hmem : isMemLoc locKinds l = false)
    (h : A.offered locKinds l ≠ none) : ∃ c v, A.ports l = .pending c ∧ c.datum = some v := by
  cases hp : A.ports l with
  | pending c =>
      rw [offered_port hmem hp] at h
      obtain ⟨v, hv⟩ := Option.ne_none_iff_exists'.1 h
      exact ⟨c, v, rfl, hv⟩
  | idle | settled _ =>
      rw [offered, hmem, if_neg (by simp), hp] at h
      exact absurd rfl h

theorem accepts_cell (hmem : isMemLoc locKinds l = true) :
    A.Accepts locKinds l ↔ A.cells l = none := by
  rw [Accepts, if_pos hmem]

theorem accepts_port (hmem : isMemLoc locKinds l = false) :
    A.Accepts locKinds l ↔ ∃ c, A.ports l = .pending c ∧ c.datum = none := by
  rw [Accepts, hmem, if_neg (by simp)]

/-- An action is found by any of its locations. -/
theorem find?_eq_of_unique {p : ActionDef → Bool} (ha : a ∈ actions) (hp : p a = true)
    (hunique : ∀ b ∈ actions, p b = true → b = a) : actions.find? p = some a := by
  cases hfind : actions.find? p with
  | none => exact absurd hp (List.find?_eq_none.1 hfind a ha)
  | some b => rw [hunique b (List.mem_of_find?_eq_some hfind) (List.find?_some hfind)]

theorem find?_putter_eq_none (h : ∀ b ∈ actions, b.putter ≠ l) :
    actions.find? (·.putter == l) = none :=
  List.find?_eq_none.2 fun b hb hbl => h b hb (eq_of_beq hbl)

theorem find?_getter_eq_none (h : ∀ b ∈ actions, l ∉ b.getters) :
    actions.find? (fun b => decide (l ∈ b.getters)) = none :=
  List.find?_eq_none.2 fun b hb hbl => h b hb (of_decide_eq_true hbl)

section

variable (hmem : isMemLoc locKinds l = true)
include hmem

theorem fire_cells_getter (ha : a ∈ actions) (hg : l ∈ a.getters)
    (hunique : ∀ b ∈ actions, l ∈ b.getters → b = a) :
    (A.fire locKinds actions).cells l = A.offered locKinds a.putter := by
  simp only [fire, hmem, if_true]
  rw [find?_eq_of_unique ha (decide_eq_true hg) fun b hb hbl => hunique b hb (of_decide_eq_true hbl)]

theorem fire_cells_putter (ha : a ∈ actions) (hp : a.putter = l)
    (hnot : ∀ b ∈ actions, l ∉ b.getters) : (A.fire locKinds actions).cells l = none := by
  simp only [fire, hmem, if_true]
  rw [find?_getter_eq_none hnot]
  refine if_pos (List.any_eq_true.2 ⟨a, ha, ?_⟩)
  rw [hp, beq_self_eq_true]

end

theorem fire_cells_other (hnot : ∀ b ∈ actions, ¬ b.mentions l) :
    (A.fire locKinds actions).cells l = A.cells l := by
  simp only [fire]
  split
  · rw [find?_getter_eq_none fun b hb hbl => hnot b hb (.inr hbl)]
    refine if_neg fun hany => ?_
    obtain ⟨b, hb, hbl⟩ := List.any_eq_true.1 hany
    exact hnot b hb (.inl (eq_of_beq hbl).symm)
  · rfl

theorem fire_ports_putter (hc : A.ports l = .pending c) (ha : a ∈ actions) (hp : a.putter = l)
    (hunique : ∀ b ∈ actions, b.putter = l → b = a) : (A.fire locKinds actions).ports l =
      .settled (c.putAnswer (a.getters.any (A.takes locKinds))) := by
  simp only [fire, hc]
  have hat : (a.putter == l) = true := by rw [hp, beq_self_eq_true]
  rw [find?_eq_of_unique ha hat fun b hb hbl => hunique b hb (eq_of_beq hbl)]

theorem fire_ports_getter (hc : A.ports l = .pending c) (ha : a ∈ actions) (hg : l ∈ a.getters)
    (hnot : ∀ b ∈ actions, b.putter ≠ l) (hunique : ∀ b ∈ actions, l ∈ b.getters → b = a) :
    (A.fire locKinds actions).ports l =
      .settled (.got (if c.wantsData then A.offered locKinds a.putter else none)) := by
  simp only [fire, hc]
  rw [find?_putter_eq_none hnot,
    find?_eq_of_unique ha (decide_eq_true hg) fun b hb hbl => hunique b hb (of_decide_eq_true hbl)]

theorem fire_ports_other (hnot : ∀ b ∈ actions, ¬ b.mentions l) :
    (A.fire locKinds actions).ports l = A.ports l := by
  simp only [fire]
  rw [find?_putter_eq_none fun b hb hbl => hnot b hb (.inl hbl.symm),
    find?_getter_eq_none fun b hb hbl => hnot b hb (.inr hbl)]
  cases A.ports l <;> rfl

theorem fire_cells_port (hmem : isMemLoc locKinds l = false) :
    (A.fire locKinds actions).cells l = A.cells l := by
  simp only [fire, hmem, Bool.false_eq_true, if_false]

theorem fire_ports_idle (h : A.ports l = .idle) : (A.fire locKinds actions).ports l = .idle := by
  simp only [fire, h]

theorem setPort_self (p : LocId) (x : PortState D) : (A.setPort p x).ports p = x := by
  show Function.update A.ports p x p = x
  rw [Function.update_self]

theorem setPort_eq_self (A : Automaton D) (p : LocId) : A.setPort p (A.ports p) = A := by
  rw [setPort, Function.update_eq_self]

theorem setPort_ne {p : LocId} (x : PortState D) (h : l ≠ p) :
    (A.setPort p x).ports l = A.ports l := by
  show Function.update A.ports p x l = A.ports l
  rw [Function.update_of_ne h]

end

end Automaton

end ReoRs
