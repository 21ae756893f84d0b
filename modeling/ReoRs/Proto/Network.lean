import ReoRs.Proto.Ports

/-!
# `proto/tests.rs`: threads that own ports of several instances

A thread may be given ports of more than one instance, and what it gets at one
it may put at another. A thread is a program that makes a call, goes on with
what it was answered and in the end has a result. A port is moved into one
thread, which is then the only one to call it; `owner` says which. The thread
stays at its call until the call returns.
-/

namespace ReoRs

variable {ι τ D R : Type}

inductive Program (ι D R : Type) where
  | done (result : R)
  | call (i : ι) (p : LocId) (c : PortCall D) (next : Answer D → Program ι D R)

structure Network (ι τ D R : Type) where
  instances : ι → Ports D
  programs : τ → Program ι D R

namespace Network

def start (s : ι → ProtoAll D) (program : τ → Program ι D R) : Network ι τ D R :=
  ⟨fun i => .start (s i), program⟩

variable [DecidableEq ι] [DecidableEq τ]

inductive Step (moves : Transfers D) (owner : ι → LocId → τ) (s : Network ι τ D R) :
    ι × Ports.Act D → Network ι τ D R → Prop where
  | call {i : ι} {p : LocId} {c : PortCall D} {next : Answer D → Program ι D R} {u : Ports D}
      (hprogram : s.programs (owner i p) = .call i p c next)
      (hstep : Ports.Step moves (s.instances i) (.call p c) u) :
      Step moves owner s (i, .call p c) ⟨Function.update s.instances i u, s.programs⟩
  | ret {i : ι} {p : LocId} {c : PortCall D} {next : Answer D → Program ι D R} {a : Answer D}
      {u : Ports D} (hprogram : s.programs (owner i p) = .call i p c next)
      (hstep : Ports.Step moves (s.instances i) (.ret p a) u) :
      Step moves owner s (i, .ret p a)
        ⟨Function.update s.instances i u, Function.update s.programs (owner i p) (next a)⟩
  | other {i : ι} {a : Ports.Act D} {u : Ports D} (hcall : ∀ p c, a ≠ .call p c)
      (hret : ∀ p x, a ≠ .ret p x) (hstep : Ports.Step moves (s.instances i) a u) :
      Step moves owner s (i, a) ⟨Function.update s.instances i u, s.programs⟩

end Network

/-! ## `proto_sync_f64_chain` -/

/-- Puts the values one by one; the result is `none` where an assertion
fails. -/
def putAll (i : ι) : List (Datum D) → Program ι D (Option (List (Datum D)))
  | [] => .done (some [])
  | v :: vs => .call i 0 (.put v) fun
      | .moved => putAll i vs
      | _ => .done none

/-- Puts at the one instance what it gets at the other, `n` times. The result
is what it got. -/
def forwardAll (i j : ι) : Nat → List (Datum D) → Program ι D (Option (List (Datum D)))
  | 0, seen => .done (some seen)
  | n + 1, seen => .call i 1 .get fun
      | .got (some v) => .call j 0 (.put v) fun
          | .moved => forwardAll i j n (seen ++ [v])
          | _ => .done none
      | _ => .done none

def getAll (i : ι) : Nat → List (Datum D) → Program ι D (Option (List (Datum D)))
  | 0, seen => .done (some seen)
  | n + 1, seen => .call i 1 .get fun
      | .got (some v) => getAll i n (seen ++ [v])
      | _ => .done none

/-- A chain of `m + 1` channels with a thread at each end and one between any
two. The test's has two channels. The threads have passed on `seen`, and
`vs` are yet to come. -/
def chainAt (m : Nat) (seen vs : List (Datum D)) : Nat → Program Nat D (Option (List (Datum D)))
  | 0 => putAll 0 vs
  | k + 1 =>
      if k < m then forwardAll k (k + 1) vs.length seen
      else if k = m then getAll m vs.length seen
      else .done (some [])

def chain (m : Nat) (vs : List (Datum D)) : Nat → Program Nat D (Option (List (Datum D))) :=
  chainAt m [] vs

/-- Putter `p0` of a channel is the thread's before it, getter `p1` the one's
after it. -/
def chainOwner (i : Nat) (p : LocId) : Nat := if p = 0 then i else i + 1

end ReoRs
