import ReoRs.Proto.Ports

/-!
# `proto/tests.rs`: threads that make their calls one by one

A test moves each port into a thread of its own, which makes a fixed sequence
of calls, the next when the last has returned. `Threads` is the ports with what
their threads have yet to call.
-/

namespace ReoRs

variable {D : Type}

namespace Ports

def Act.isCall : Act D → Bool
  | .call _ _ => true
  | .enter _ | .fire _ _ | .leave _ | .panic _ | .expire _ | .late _ | .receive _ | .acquire _
  | .finalize _ | .ret _ _ => false

end Ports

structure Threads (D : Type) where
  ports : Ports D
  todo : LocId → List (PortCall D)

namespace Threads

def start (s : ProtoAll D) (script : LocId → List (PortCall D)) : Threads D := ⟨.start s, script⟩

inductive Step (moves : Transfers D) (s : Threads D) : Ports.Act D → Threads D → Prop where
  | call {p : LocId} {c : PortCall D} {rest : List (PortCall D)} {t : Ports D}
      (htodo : s.todo p = c :: rest) (hstep : Ports.Step moves s.ports (.call p c) t) :
      Step moves s (.call p c) ⟨t, Function.update s.todo p rest⟩
  | other {a : Ports.Act D} {t : Ports D} (hother : a.isCall = false)
      (hstep : Ports.Step moves s.ports a t) : Step moves s a ⟨t, s.todo⟩

end Threads

end ReoRs
