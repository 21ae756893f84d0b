import ReoRs.Lib.Run
import ReoRs.Rbpa

/-!
# `rbpa.rs` under every hash order

A hash map hands out its entries in an order that nobody promises, and a
second traversal of the same map may have another. `Rbpa.lean` goes through
the entries as they lie in its own representation. Here the functions are
relations instead: each traversal is given an order of its own, and the
relation holds of a result if some orders lead to it.

`Rbpa::normalize` becomes a transition system in the same way. A step is one
round of the inner loop or what happens between two of its runs, and a run of
the function is a run of the system.
-/

namespace ReoRs

/-- The entries of a map in the order of one traversal. -/
structure Traversal {K V : Type} (m : HashMap K V) where
  entries : List ((_ : K) × V)
  perm : entries.Perm m.entries

namespace Traversal

variable {K V : Type} {m : HashMap K V}

/-- `keys()`. -/
def keys (t : Traversal m) : List K := t.entries.map (·.1)

theorem nodupKeys (t : Traversal m) : t.entries.NodupKeys :=
  (List.perm_nodupKeys t.perm).2 m.nodupKeys

/-- `retain`, which leaves the entries it keeps where they are. -/
def retain (t : Traversal m) (p : K → V → Bool) : HashMap K V :=
  ⟨t.entries.filter fun e => p e.1 e.2, t.nodupKeys.sublist List.filter_sublist⟩

/-- The order of the representation is one. -/
def stored (m : HashMap K V) : Traversal m := ⟨m.entries, .rfl⟩

end Traversal

/-- What a rule is apart from how its maps are represented. -/
structure RuleMaps where
  port : Option LocId
  guard : LocId → Option Bool
  assign : LocId → Option Bool

namespace RbpaRule

def maps (r : RbpaRule) : RuleMaps := ⟨r.port, r.guard.lookup, r.assign.lookup⟩

/-- `keys().chain(keys()).unique()`, for one traversal of each guard. -/
def chainedIds {a b : RbpaRule} (t : Traversal a.guard) (u : Traversal b.guard) : List LocId :=
  (t.keys ++ u.keys).eraseDups

/-- What `fuse` does before it normalizes, given the locations in the order of
its two loops. -/
def fuseAlong (a b : RbpaRule) (caseIds effectIds : List LocId) : Option RbpaRule :=
  if a.port ≠ b.port then none
  else
    match caseIds.foldlM (nextCase a b) .identical with
    | none => none
    | some gCase =>
        if effectIds.any (fun id => a.outcome id != b.outcome id) then none
        else some ⟨a.port, fusedGuard a b gCase, a.assign⟩

/-- What `compose` does before it normalizes, given the entries in the order of
its two loops. -/
def composeAlong (r₁ r₂ : RbpaRule) (guards assigns : List ((_ : LocId) × Bool)) :
    Option RbpaRule :=
  match guards.foldlM (composeGuard r₁) r₁.guard with
  | none => none
  | some guard => some ⟨r₂.port, guard, assigns.foldl (composeAssign r₂) r₂.assign⟩

/-- `rule.normalize(); Some(rule)`, in some order, if there is a rule. -/
inductive Normalizes : Option RbpaRule → Option RbpaRule → Prop where
  | none : Normalizes none none
  | some (r : RbpaRule) (t : Traversal r.assign) :
      Normalizes (some r) (some { r with assign := t.retain fun k v => r.guard.lookup k != some v })

/-- `a.fuse(b)` may return `r`. -/
def Fuses (a b : RbpaRule) (r : Option RbpaRule) : Prop :=
  ∃ (t₁ t₂ : Traversal a.guard) (u₁ u₂ : Traversal b.guard),
    Normalizes (fuseAlong a b (chainedIds t₁ u₁) (chainedIds t₂ u₂)) r

/-- `r₁.compose(r₂)` may return `r`, if its assertion lets it return at all. -/
def Composes (r₁ r₂ : RbpaRule) (r : Option RbpaRule) : Prop :=
  r₁.port = none ∧ ∃ (t : Traversal r₂.guard) (u : Traversal r₁.assign),
    Normalizes (composeAlong r₁ r₂ t.entries u.entries) r

/-- `a.is_mutex_with(b)` may return this. -/
def FindsMutex (a b : RbpaRule) (found : Bool) : Prop :=
  ∃ (t : Traversal a.guard) (u : Traversal b.guard),
    (chainedIds t u).any (disagreeAt a b) = found

/-- `r.constrain_guard(guard)` may leave the guard so and return this. -/
def ConstrainsGuard (r : RbpaRule) (guard : StatePred) (out : StatePred × Except LocId Unit) :
    Prop :=
  ∃ t : Traversal r.guard, constrainGuardFrom guard t.entries = out

/-- Rules that constrain one guard, each in turn, until one of them cannot. -/
inductive ConstrainEach : List RbpaRule → StatePred → StatePred × Except LocId Unit → Prop where
  | nil (guard : StatePred) : ConstrainEach [] guard (guard, .ok ())
  | cons {r : RbpaRule} {rules : List RbpaRule} {guard guard' : StatePred}
      {out : StatePred × Except LocId Unit} (hr : r.ConstrainsGuard guard (guard', .ok ()))
      (hrules : ConstrainEach rules guard' out) : ConstrainEach (r :: rules) guard out
  | stop {r : RbpaRule} {rules : List RbpaRule} {guard guard' : StatePred} {id : LocId}
      (hr : r.ConstrainsGuard guard (guard', .error id)) :
      ConstrainEach (r :: rules) guard (guard', .error id)

end RbpaRule

namespace Rbpa

open RbpaRule

/-- Where `normalize` is, with rules of type `R`. -/
inductive Phase (R : Type) where
  /-- at the condition of the outer loop -/
  | outer (rules : List R)
  /-- before round `rid2` of the inner one -/
  | inner (r₁ : R) (rules buf : List R) (rid2 : Nat)
  | done (rules : List R)

def Phase.map {R Q : Type} (f : R → Q) : Phase R → Phase Q
  | .outer rules => .outer (rules.map f)
  | .inner r₁ rules buf rid2 => .inner (f r₁) (rules.map f) (buf.map f) rid2
  | .done rules => .done (rules.map f)

/-- The loop over `r3`: what each call of `fuse` returned. -/
def FusesEach (rules : List RbpaRule) (c : RbpaRule) (outcomes : List (Option RbpaRule)) : Prop :=
  List.Forall₂ (fun r₃ r => Fuses r₃ c r) rules outcomes

/-- `*r3 = fused` where there is one. -/
def replaceFused (rules : List RbpaRule) (outcomes : List (Option RbpaRule)) : List RbpaRule :=
  List.zipWith (fun r₃ r => r.getD r₃) rules outcomes

/-- The `buf` after the loop over `r3`. -/
def bufferUnfused (buf : List RbpaRule) (c : RbpaRule) (outcomes : List (Option RbpaRule)) :
    List RbpaRule :=
  if outcomes.any Option.isSome then buf else buf ++ [c]

/-- The steps of `normalize`. The label is `self.rules` after the step. -/
inductive Step : Phase RbpaRule → List RbpaRule → Phase RbpaRule → Prop where
  | take {rules rest : List RbpaRule} {r₁ : RbpaRule} (htake : takeSilent rules = some (r₁, rest)) :
      Step (.outer rules) rest (.inner r₁ rest [] 0)
  | skip {r₁ r₂ : RbpaRule} {rules buf : List RbpaRule} {rid2 : Nat}
      (hr₂ : rules[rid2]? = some r₂) (hnone : Composes r₁ r₂ none) :
      Step (.inner r₁ rules buf rid2) rules (.inner r₁ rules buf (rid2 + 1))
  | compose {r₁ r₂ c : RbpaRule} {rules buf : List RbpaRule} {rid2 : Nat}
      {outcomes : List (Option RbpaRule)} (hr₂ : rules[rid2]? = some r₂)
      (hsome : Composes r₁ r₂ (some c)) (hfuse : FusesEach rules c outcomes) :
      Step (.inner r₁ rules buf rid2) (replaceFused rules outcomes)
        (.inner r₁ (replaceFused rules outcomes) (bufferUnfused buf c outcomes) (rid2 + 1))
  | append {r₁ : RbpaRule} {rules buf : List RbpaRule} {rid2 : Nat} (hend : rules[rid2]? = none) :
      Step (.inner r₁ rules buf rid2) (rules ++ buf) (.outer (rules ++ buf))
  | finish {rules : List RbpaRule} (hnone : takeSilent rules = none) :
      Step (.outer rules) (dedup rules) (.done (dedup rules))

end Rbpa

end ReoRs
