import Mathlib.Data.Finset.Basic
import ReoRs.Proto.Builder

/-!
# `rbpa.rs`: rule-based port automata

The rules of a protocol stripped to what they do to the memory: a guard and
an assignment, both partial maps from locations to whether the cell is full,
and the port the rule is labelled with, if any. `new_rbpa` reads them off the
rules of a definition, and `Rbpa::normalize` takes out the rules without a
port.

The maps are traversed in the order of their entries, which stands for any
order. That `compose` and `fuse` do not depend on it is in their lemmas, which
speak of lookups only.
-/

namespace ReoRs

/-- `HashMap::retain`. -/
def HashMap.retain {K V : Type} (m : HashMap K V) (p : K → V → Bool) : HashMap K V :=
  ⟨m.entries.filter fun e => p e.1 e.2, m.nodupKeys.sublist List.filter_sublist⟩

abbrev StatePred := HashMap LocId Bool

/-- Equality of hash maps, which is not one of traversals. -/
def StatePred.same (a b : StatePred) : Bool :=
  a.entries.all (fun e => b.lookup e.1 == some e.2) &&
    b.entries.all fun e => a.lookup e.1 == some e.2

structure RbpaRule where
  port : Option LocId
  guard : StatePred
  assign : StatePred

inductive FuseCase where
  | leftSubsumes
  | rightSubsumes
  | partitionAt (id : LocId)
  | identical
  deriving DecidableEq, Repr

namespace RbpaRule

/-- The loop of `constrain_guard`: the guard after it, and where it gave up. -/
def constrainGuardFrom : StatePred → List ((_ : LocId) × Bool) → StatePred × Except LocId Unit
  | guard, [] => (guard, .ok ())
  | guard, ⟨id, b⟩ :: rest =>
      if (orInsert guard id b).lookup id ≠ some b then (orInsert guard id b, .error id)
      else constrainGuardFrom (orInsert guard id b) rest

def constrainGuard (r : RbpaRule) (guard : StatePred) : StatePred × Except LocId Unit :=
  constrainGuardFrom guard r.guard.entries

def normalize (r : RbpaRule) : RbpaRule :=
  { r with assign := r.assign.retain fun k v => r.guard.lookup k != some v }

/-- The derived `PartialEq`. -/
def same (a b : RbpaRule) : Bool :=
  a.port == b.port && a.guard.same b.guard && a.assign.same b.assign

/-- `self.guard.keys().chain(other.guard.keys()).unique()`. -/
def guardIds (a b : RbpaRule) : List LocId := (a.guard.keys ++ b.guard.keys).eraseDups

/-- The round of the loop that finds the guards apart. -/
def disagreeAt (a b : RbpaRule) (id : LocId) : Bool :=
  match a.guard.lookup id, b.guard.lookup id with
  | some x, some y => x != y
  | _, _ => false

def isMutexWith (a b : RbpaRule) : Bool := (guardIds a b).any (disagreeAt a b)

def hasEffect (r : RbpaRule) : Bool := !r.assign.entries.isEmpty

/-- One round of the loop that finds out how the guards are related. -/
def nextCase (a b : RbpaRule) (gCase : FuseCase) (id : LocId) : Option FuseCase :=
  match a.guard.lookup id, b.guard.lookup id with
  | some _, none =>
      match gCase with
      | .rightSubsumes | .identical => some .rightSubsumes
      | _ => none
  | none, some _ =>
      match gCase with
      | .leftSubsumes | .identical => some .leftSubsumes
      | _ => none
  | some x, some y =>
      if x ≠ y then
        match gCase with
        | .identical => some (.partitionAt id)
        | _ => none
      else some gCase
  -- `unreachable!()`
  | none, none => some gCase

/-- `self.assign.get(id).or_else(|| self.guard.get(id))`. -/
def outcome (r : RbpaRule) (id : LocId) : Option Bool := (r.assign.lookup id).or (r.guard.lookup id)

def fusedGuard (a b : RbpaRule) : FuseCase → StatePred
  | .identical | .leftSubsumes => a.guard
  | .rightSubsumes => b.guard
  | .partitionAt id => a.guard.erase id

def fuse (a b : RbpaRule) : Option RbpaRule :=
  if a.port ≠ b.port then none
  else
    match (guardIds a b).foldlM (nextCase a b) .identical with
    | none => none
    | some gCase =>
        if (guardIds a b).any (fun id => a.outcome id != b.outcome id) then none
        else some (normalize ⟨a.port, fusedGuard a b gCase, a.assign⟩)

/-- One round of the loop over the second rule's guard. -/
def composeGuard (r₁ : RbpaRule) (guard : StatePred) (e : (_ : LocId) × Bool) : Option StatePred :=
  match r₁.guard.lookup e.1, r₁.assign.lookup e.1 with
  | none, none => some (guard.insert e.1 e.2)
  | some v₂, none => if v₂ ≠ e.2 then none else some guard
  | _, some v₂ => if v₂ ≠ e.2 then none else some guard

/-- One round of the loop over the first rule's assignment. -/
def composeAssign (r₂ : RbpaRule) (assign : StatePred) (e : (_ : LocId) × Bool) : StatePred :=
  match r₂.guard.lookup e.1, r₂.assign.lookup e.1 with
  | none, none => assign.insert e.1 e.2
  -- both branches of the `if` here are empty
  | _, _ => assign

def compose (r₁ r₂ : RbpaRule) : Option RbpaRule :=
  match r₂.guard.entries.foldlM (composeGuard r₁) r₁.guard with
  | none => none
  | some guard =>
      some (normalize ⟨r₂.port, guard, r₁.assign.entries.foldl (composeAssign r₂) r₂.assign⟩)

end RbpaRule

inductive RbpaBuildErr where
  | synchronousFiring (locIds : LocId × LocId) (ruleId : RuleId)
  deriving DecidableEq, Repr

/-! ## Reading the rules off a definition

The source asks whether a location is a port of a set `port_ids` that it no
longer binds: the line that did is a comment. Here it is an argument, beside
the set of ports to keep, `port_set`. -/

section Build

variable (portSet portIds : Finset LocId) (ruleId : RuleId)

/-- The closure `clos`: the port of the rule once `id` was met. -/
def replacePort (port : Option LocId) (id : LocId) : Except RbpaBuildErr (Option LocId) :=
  if id ∈ portSet then
    match port with
    | some was => .error (.synchronousFiring (was, id) ruleId)
    | none => .ok (some id)
  else .ok port

namespace RbpaRule

def addPutter (rule : RbpaRule) (putter : LocId) : RbpaRule :=
  if putter ∈ portIds then rule
  else
    { rule with guard := rule.guard.insert putter true, assign := rule.assign.insert putter false }

def addGetter (rule : RbpaRule) (getter : LocId) : RbpaRule :=
  if getter ∈ portIds then rule
  else
    { rule with
      guard := orInsert rule.guard getter false
      assign := rule.assign.insert getter true }

end RbpaRule

/-- The body of the loop over an action's getters. -/
def rbpaGetter (rule : RbpaRule) (getter : LocId) : Except RbpaBuildErr RbpaRule := do
  let port ← replacePort portSet ruleId rule.port getter
  pure ({ rule with port }.addGetter portIds getter)

/-- The body of the loop over a rule's actions. -/
def rbpaAction (rule : RbpaRule) (action : ActionDef) : Except RbpaBuildErr RbpaRule := do
  let port ← replacePort portSet ruleId rule.port action.putter
  action.getters.foldlM (rbpaGetter portSet portIds ruleId)
    ({ rule with port }.addPutter portIds action.putter)

def rbpaRule (ruleDef : RuleDef) : Except RbpaBuildErr RbpaRule := do
  let rule ← ruleDef.actions.foldlM (rbpaAction portSet portIds ruleId) ⟨none, ∅, ∅⟩
  pure rule.normalize

/-- The rules from the one with id `ruleId` on. -/
def newRbpaFrom (rules : List RbpaRule) : RuleId → List RuleDef → Except RbpaBuildErr (List RbpaRule)
  | _, [] => .ok rules
  | ruleId, ruleDef :: ruleDefs => do
      let rule ← rbpaRule portSet portIds ruleId ruleDef
      newRbpaFrom (if rules.any (·.same rule) then rules else rules ++ [rule]) (ruleId + 1) ruleDefs

def newRbpa (ruleDefs : List RuleDef) : Except RbpaBuildErr (List RbpaRule) :=
  newRbpaFrom portSet portIds [] 0 ruleDefs

end Build

namespace Rbpa

/-- `Vec::swap_remove`. -/
def swapRemove (rules : List RbpaRule) (i : Nat) : List RbpaRule :=
  match rules.getLast? with
  | some last => (rules.set i last).dropLast
  | none => []

/-- The first rule without a port, and the rules it is taken from. -/
def takeSilent (rules : List RbpaRule) : Option (RbpaRule × List RbpaRule) :=
  match rules.findIdx? (·.port.isNone) with
  | some i => (rules[i]?).map fun r₁ => (r₁, swapRemove rules i)
  | none => none

/-- One round of the inner loop: rules and `buf` after `r₁` was composed with
the rule at `rid2`. -/
def composeWith (r₁ : RbpaRule) (st : List RbpaRule × List RbpaRule) (rid2 : Nat) :
    List RbpaRule × List RbpaRule :=
  match (st.1[rid2]?).bind r₁.compose with
  | some c =>
      let didFuse := st.1.any fun r₃ => (r₃.fuse c).isSome
      (st.1.map fun r₃ => (r₃.fuse c).getD r₃, if didFuse then st.2 else st.2 ++ [c])
  | none => st

/-- The rules after the first `n` rounds of the inner loop. -/
def rounds (r₁ : RbpaRule) (rest : List RbpaRule) (n : Nat) : List RbpaRule × List RbpaRule :=
  (List.range n).foldl (composeWith r₁) (rest, [])

/-- One round of the outer loop. -/
def eliminate (r₁ : RbpaRule) (rest : List RbpaRule) : List RbpaRule :=
  (rounds r₁ rest rest.length).1 ++ (rounds r₁ rest rest.length).2

/-- The outer loop, if it ends within `fuel` rounds. -/
def eliminateAll : (fuel : Nat) → List RbpaRule → Option (List RbpaRule)
  | 0, _ => none
  | fuel + 1, rules =>
      match takeSilent rules with
      | none => some rules
      | some (r₁, rest) => eliminateAll fuel (eliminate r₁ rest)

/-- Each rule once. -/
def dedup (rules : List RbpaRule) : List RbpaRule :=
  rules.foldl (fun kept r => if kept.any (·.same r) then kept else kept ++ [r]) []

def normalize (fuel : Nat) (rules : List RbpaRule) : Option (List RbpaRule) :=
  (eliminateAll fuel rules).map dedup

end Rbpa

end ReoRs
