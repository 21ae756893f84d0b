import Mathlib.Data.Nat.Digits.Defs
import ReoRs.BitSet
import ReoRs.Proto.Syntax

/-!
# `tokens.rs`: ports and states at the level of types

A port group hands out coupons, and the type of a coupon says which port it is
for. The port is written as a nesting of digit types, from which the compiler
computes a number, and `Discerned2` compares that number at run time with the
port a rule was found for.

A type here is a value: the nestings are an inductive type with the two
`impl`s of the macro as the equations of `N`, and what is generic in a type is
a function of its value. The one exception are `Discerned2` and `Coupon`, whose
phantom parameters are indices.
-/

namespace ReoRs

/-- The types that implement `Decimal`: `$d<()>`, for which `$e` is short, and
`$d<T>`. -/
inductive Decimal where
  | e (digit : Fin 10)
  | d (digit : Fin 10) (inner : Decimal)
  deriving DecidableEq, Repr

namespace Decimal

/-- `Decimal::N`. -/
def N : Decimal → Nat
  | .e digit => digit
  | .d digit inner => inner.N + digit

/-- The digits as they are written, the outermost first. -/
def digits : Decimal → List (Fin 10)
  | .e digit => [digit]
  | .d digit inner => digit :: inner.digits

end Decimal

/-- `T`, `F` and `X`. -/
inductive Booly where
  | t
  | f
  | x
  deriving DecidableEq, Repr

/-- `Booly::BOOL`. -/
def Booly.bool : Booly → Option Bool
  | .f => some false
  | .t => some true
  | .x => none

/-- A pair of them, which checks the first two cells. -/
structure StateCheck where
  a : Booly
  b : Booly
  deriving DecidableEq, Repr

def StateCheck.explainsState (c : StateCheck) (x : BitSet) : Bool :=
  (c.a.bool.filter fun b => b != x.test 0).isNone &&
    (c.b.bool.filter fun b => b != x.test 1).isNone

/-- A variant of a simulated enum: the rule, the port, and the state after
it. -/
structure Branch where
  rule : Decimal
  port : Decimal
  state : StateCheck
  deriving DecidableEq, Repr

/-- `Coupon<P, State<S>>`, which has no data. -/
structure Coupon (port : Decimal) (state : StateCheck) where
  deriving DecidableEq, Repr

/-- The list of the variants, and at run time the port and the state. -/
structure Discerned2 (q : List Branch) where
  data : Option (LocId × BitSet)

namespace Discerned2

def trivial (q : List Branch) : Discerned2 q := ⟨none⟩

def matchSingleton {b : Branch} (_ : Discerned2 [b]) : Coupon b.port b.state := ⟨⟩

/-- Only a list of two or more has a head to be matched. There is no answer
where `expect` panics. -/
def matchHead {b n : Branch} {rest : List Branch} (self : Discerned2 (b :: n :: rest)) :
    Option (Except (Discerned2 (n :: rest)) (Coupon b.port b.state)) :=
  match self.data with
  | none => none
  | some d =>
      if b.port.N = d.1 ∧ b.state.explainsState d.2 = true then some (.ok ⟨⟩)
      else some (.error ⟨self.data⟩)

end Discerned2

end ReoRs
