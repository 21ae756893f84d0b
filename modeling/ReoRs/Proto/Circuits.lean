import ReoRs.Proto.Builder

/-!
# `proto/tests.rs`: the two circuits

The protocols the test suite runs, for any type of data. The alternator takes a
datum from each of two putters at once, gives the first to the getter and keeps
the second for the next time; the synchronous channel hands over datum by datum.
-/

namespace ReoRs

variable {D : Type}

/-- The `DEF` of `AlternatorProto`. -/
def alternatorDef : TypelessProtoDef where
  behaviour := ⟨[⟨.true, [⟨0, [2]⟩, ⟨1, [3]⟩]⟩, ⟨.true, [⟨3, [2]⟩]⟩]⟩
  locKinds := collectMap [(0, .portPutter), (1, .portPutter), (2, .portGetter),
    (3, .memUninitialized)]

/-- `AlternatorProto<T0>`. -/
def alternatorProto (info : TypeInfo D) : Proto D where
  typelessProtoDef := alternatorDef
  fillMemory := fun _ => none
  defFunc := fun _ => none
  locType := fun l => if l ≤ 3 then some info else none

/-- The `DEF` of `SyncProto`. -/
def syncDef : TypelessProtoDef where
  behaviour := ⟨[⟨.true, [⟨0, [1]⟩]⟩]⟩
  locKinds := collectMap [(0, .portPutter), (1, .portGetter)]

/-- `SyncProto<T0>`. -/
def syncProto (info : TypeInfo D) : Proto D where
  typelessProtoDef := syncDef
  fillMemory := fun _ => none
  defFunc := fun _ => none
  locType := fun l => if l ≤ 1 then some info else none

end ReoRs
