import ReoRs.Proto.Coordination

/-!
# `proto/mod.rs`: tentative ports

Before a rule fires, the tentative ports are told which rule it is, and if
there are any the firing waits for them. The two halves of this are named
here. `askTentatives` is the loop over `iter_and`, with the intersection left
open, so that what the loop does can be told apart from what `iter_and` does.
`CommitStep` is what may happen to an instance while it waits.
-/

namespace ReoRs

variable {D : Type}

/-! ## Asking -/

/-- The loop over `ready.iter_and(&ready_tentative)`, `inter` standing for
`iter_and`. Returns how many were told. -/
def askTentatives (inter : BitSet → BitSet → List LocId) (ruleId : RuleId) : Proc D Nat := do
  let s ← get
  let tentatives := inter s.w.active.ready s.w.readyTentative
  Effect.forEach (sendTentative ruleId) tentatives
  pure tentatives.length

/-- What `exhaust_rules` does after the loop if it told anyone. -/
def commitTo (ruleId : RuleId) (rule : RunRule D) (awaiting : Nat) : Proc D PassEnd := do
  modify fun s => { s with w := { s.w with memoryBits := assignMemoryBits s.w.memoryBits rule } }
  modify fun s => { s with w := { s.w with commitment := some { ruleId, awaiting } } }
  pure (.committed ruleId)

/-- What it does if it told no one. -/
def fireNow (ruleId : RuleId) (rule : RunRule D) : Proc D PassEnd := do
  modify fun s => { s with w := { s.w with memoryBits := assignMemoryBits s.w.memoryBits rule } }
  modify fun s => { s with w := { s.w with active := { s.w.active with
    ready := subtractReadiness s.w.active.ready rule } } }
  rule.fire
  notifyStateWaiters
  pure (.fired ruleId)

def fireRuleWith (inter : BitSet → BitSet → List LocId) (ruleId : RuleId) (rule : RunRule D) :
    Proc D PassEnd := do
  let n ← askTentatives inter ruleId
  if n > 0 then commitTo ruleId rule n else fireNow ruleId rule

/-- `fireRule` is this with `iter_and` as it is. -/
theorem fireRule_eq (ruleId : RuleId) (rule : RunRule D) :
    fireRule ruleId rule = fireRuleWith BitSet.iterAnd ruleId rule := by
  simp only [fireRule, fireRuleWith, askTentatives, bind_assoc, pure_bind]
  congr 1
  funext s
  congr 1
  funext _
  split <;> rfl

/-! ## Waiting -/

/-- What may happen while an instance is committed: a port comes, or comes
back from its group; a getter frees a cell; a timed call gives up. -/
inductive CommitAct where
  | report (l : LocId)
  | freed (l : LocId) (someoneMoved : Bool)
  | withdraw (l : LocId)
  deriving DecidableEq, Repr

/-- Who calls `ready_set_coordinate` in it. -/
def CommitAct.caller : CommitAct → Option LocId
  | .report l | .freed l _ => some l
  | .withdraw _ => none

/-- The flag says whether `ready_set_coordinate` went on to `exhaust_rules`,
which in a committed instance it does right after it has run the rule's
actions. -/
inductive CommitStep (s : ProtoAll D) : CommitAct × Bool → ProtoAll D → Prop where
  | report {l : LocId} {went : Bool} {t : ProtoAll D} (hrun : (readySet l).run s = .ok went t) :
      CommitStep s (.report l, went) t
  | freed {l : LocId} {someoneMoved went : Bool} {t : ProtoAll D}
      (hrun : (finalizeMemo l someoneMoved).run s = .ok went t) :
      CommitStep s (.freed l someoneMoved, went) t
  | withdraw {l : LocId} (hready : s.w.active.ready.test l = true) :
      CommitStep s (.withdraw l, false) ((s.setReady l false).endCall l)

end ReoRs
