import ReoRs.Proto.Reflection

/-!
# `proto/definition.rs`: protocol definitions

What the author of a protocol writes: rules of actions with a guard each, and
a kind for every location.
-/

namespace ReoRs

mutual

inductive Formula where
  | true
  | and (fs : List Formula)
  | or (fs : List Formula)
  | none (fs : List Formula)
  | valueEq (a b : Term)
  | memIsNull (loc : LocId)
  | termVal (t : Term)
  | funcDeclaration (name : String) (args : List Term)

inductive Term where
  | boolean (f : Formula)
  | value (loc : LocId)

end

structure ActionDef where
  putter : LocId
  getters : List LocId

structure RuleDef where
  guard : Formula
  actions : List ActionDef

structure BehaviourDef where
  rules : List RuleDef

inductive LocKind where
  | portPutter
  | portGetter
  | memInitialized
  | memUninitialized
  deriving DecidableEq, Repr

namespace LocKind

def canPut : LocKind → Bool
  | portGetter => false
  | _ => true

def canGet : LocKind → Bool
  | portPutter => false
  | _ => true

def isMem : LocKind → Bool
  | portPutter | portGetter => false
  | memInitialized | memUninitialized => true

end LocKind

structure TypelessProtoDef where
  behaviour : BehaviourDef
  locKinds : HashMap LocId LocKind

inductive ProtoBuildErr where
  | unknownType (locId : LocId)
  | synchronousFiring (locId : LocId)
  | locCannotGet (locId : LocId)
  | locCannotPut (locId : LocId)
  | typeMismatch (ruleId actionId : Nat) (locIdPutter locIdGetter : LocId)
  | memoryFillPromiseBroken (locId : LocId)
  | functionUndefined (name : String)
  | functionUsedWithWrongArity (name : String) (usedArity : Nat)
  deriving DecidableEq, Repr

end ReoRs
