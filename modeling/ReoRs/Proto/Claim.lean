import Mathlib.Data.Multiset.Filter
import ReoRs.Lib.Run
import ReoRs.Proto.State

/-!
# `proto/traits.rs`, `proto/mod.rs`: claiming ports

A protocol instance hands out each of its ports once. The ports not handed out
are in `unclaimed_ports`, with role and type; a port that is dropped goes back
there, its entry made again from the port's own static type. Ports know their
instance by its handle, so there may be several instances here, and a handle
is the number of one.

The type parameter of a port is a field of it. What a port does under the lock
does not touch `unclaimed_ports`, and is not here.
-/

namespace ReoRs

variable {D : Type}

/-- `Arc<ProtoAll>`: which instance it points to. -/
abbrev ProtoHandle := Nat

abbrev Instances (D : Type) := ProtoHandle → ProtoAll D

namespace Instances

def unclaimed (ps : Instances D) (handle : ProtoHandle) : HashMap LocId PortInfo :=
  (ps handle).w.unclaimedPorts

def setUnclaimed (ps : Instances D) (handle : ProtoHandle) (ports : HashMap LocId PortInfo) :
    Instances D :=
  Function.update ps handle
    { ps handle with w := { (ps handle).w with unclaimedPorts := ports } }

end Instances

structure PortCommon where
  p : ProtoHandle
  id : LocId
  deriving DecidableEq, Repr

/-- A port whose type parameter is the type of this id. -/
structure Port (role : PortRole) where
  c : PortCommon
  typeId : TypeId
  deriving DecidableEq, Repr

abbrev Putter := Port .putter

abbrev Getter := Port .getter

/-- `Drop for Putter` and `Drop for Getter`. -/
def Port.drop {role : PortRole} (port : Port role) (ps : Instances D) : Instances D :=
  ps.setUnclaimed port.c.p ((ps.unclaimed port.c.p).insert port.c.id ⟨role, port.typeId⟩)

inductive ClaimResult where
  | gotGetter (g : Getter)
  | gotPutter (p : Putter)
  | notUnclaimed
  | typeMismatch
  deriving DecidableEq, Repr

/-- `handle.claim::<T>(id)`, for the type with id `t`. -/
def claim (handle : ProtoHandle) (t : TypeId) (id : LocId) (ps : Instances D) :
    ClaimResult × Instances D :=
  match (ps.unclaimed handle).lookup id with
  | some x =>
      if x.typeId = t then
        let ps := ps.setUnclaimed handle ((ps.unclaimed handle).erase id)
        match x.role with
        | .putter => (.gotPutter ⟨⟨handle, id⟩, t⟩, ps)
        | .getter => (.gotGetter ⟨⟨handle, id⟩, t⟩, ps)
      else (.typeMismatch, ps)
  | none => (.notUnclaimed, ps)

namespace ClaimResult

def claimedNothing : ClaimResult → Bool
  | gotGetter _ | gotPutter _ => false
  | notUnclaimed | typeMismatch => true

/-- The port of a role in a result. -/
def port : (role : PortRole) → ClaimResult → Option (Port role)
  | .putter, gotPutter p => some p
  | .getter, gotGetter g => some g
  | _, _ => none

/-- A result that goes out of scope drops the port in it. -/
def drop : ClaimResult → Instances D → Instances D
  | gotGetter g, ps => g.drop ps
  | gotPutter p, ps => p.drop ps
  | notUnclaimed, ps | typeMismatch, ps => ps

/-- `TryInto<Putter<T>>` and `TryInto<Getter<T>>`. What is not returned goes
out of scope. -/
def tryInto (role : PortRole) (result : ClaimResult) (ps : Instances D) :
    Except Bool (Port role) × Instances D :=
  match result.port role with
  | some port => (.ok port, ps)
  | none => (.error true, result.drop ps)

end ClaimResult

/-! ## What a program does with ports -/

/-- A value with a port in it, or none. -/
inductive Value where
  | claimed (result : ClaimResult)
  | port {role : PortRole} (port : Port role)

/-- The instances, and what the program has and has not yet dropped. -/
structure Clients (D : Type) where
  protos : Instances D
  live : Multiset Value

inductive ClaimAct where
  | claim (handle : ProtoHandle) (t : TypeId) (id : LocId)
  | tryInto (role : PortRole) (result : ClaimResult)
  | drop (value : Value)
  | elsewhere

def Value.drop : Value → Instances D → Instances D
  | claimed result, ps => result.drop ps
  | port p, ps => p.drop ps

/-- What is left of a conversion. -/
def Value.converted {role : PortRole} : Except Bool (Port role) → Multiset Value
  | .ok p => {.port p}
  | .error _ => 0

inductive ClaimStep : Clients D → ClaimAct → Clients D → Prop where
  | claim {s : Clients D} (handle : ProtoHandle) (t : TypeId) (id : LocId) :
      ClaimStep s (.claim handle t id)
        ⟨(claim handle t id s.protos).2, .claimed (claim handle t id s.protos).1 ::ₘ s.live⟩
  | tryInto {protos : Instances D} {live : Multiset Value} (role : PortRole)
      (result : ClaimResult) :
      ClaimStep ⟨protos, .claimed result ::ₘ live⟩ (.tryInto role result)
        ⟨(result.tryInto role protos).2, Value.converted (result.tryInto role protos).1 + live⟩
  | drop {protos : Instances D} {live : Multiset Value} (value : Value) :
      ClaimStep ⟨protos, value ::ₘ live⟩ (.drop value) ⟨value.drop protos, live⟩
  /-- whatever else is done to the instances leaves their `unclaimed_ports` -/
  | elsewhere {s : Clients D} {protos : Instances D}
      (hsame : ∀ handle, protos.unclaimed handle = s.protos.unclaimed handle) :
      ClaimStep s .elsewhere { s with protos }

end ReoRs
