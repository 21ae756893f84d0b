import ReoRs.Proto.State

/-!
# `proto/definition.rs`, `proto/traits.rs`: building an instance

`ProtoBuilder` turns a definition into an instance. Three things can end that:
an error, which the caller of `try_instantiate` gets to see, a panic, and the
end of the process.

The token `PromiseFulfilled` is only ever made by the promises, so the model
of the author's `fill_memory` and `def_func` is what they hand to the promise,
if anything.
-/

namespace ReoRs

variable {D : Type}

/-- Why building stopped. -/
inductive BuildStop where
  | err (e : ProtoBuildErr)
  | panicked (f : Fault)
  | aborted
  deriving DecidableEq, Repr

structure FuncDef (D : Type) where
  retInfo : TypeInfo D
  paramInfo : List (TypeInfo D)

/-- The trait `Proto`: what the author of a protocol supplies. -/
structure Proto (D : Type) where
  typelessProtoDef : TypelessProtoDef
  fillMemory : LocId → Option (TypeInfo D × Datum D)
  defFunc : String → Option (FuncDef D)
  locType : LocId → Option (TypeInfo D)

structure ProtoBuilder (D : Type) where
  memStorage : Storage D
  initMems : HashMap LocId Ptr
  funcDefs : HashMap String (FuncDef D)

/-- A builder and the process memory. -/
structure Build (D : Type) where
  builder : ProtoBuilder D
  heap : Heap D

abbrev BuildM (D : Type) := EStateM BuildStop (Build D)

namespace Build

def mem (b : Build D) : Mem D := ⟨b.builder.memStorage, b.heap⟩

def putMem (m : Mem D) (b : Build D) : Build D :=
  { builder := { b.builder with memStorage := m.storage }, heap := m.heap }

end Build

namespace ProtoBuilder

def new : ProtoBuilder D := ⟨∅, ∅, ∅⟩

def defineFunc (name : String) (funcDef : FuncDef D) : BuildM D Unit := do
  let b ← get
  set { b with builder := { b.builder with funcDefs := b.builder.funcDefs.insert name funcDef } }
  match b.builder.funcDefs.lookup name with
  | some _ => throw (.panicked .funcPresent)
  | none => pure ()

def defineInitMemory (id : LocId) (info : TypeInfo D) (t : Datum D) : BuildM D Unit := do
  let ptr ← Effect.mapError .panicked
    (Effect.zoom Build.mem Build.putMem (Storage.moveValueIn info t))
  let b ← get
  set { b with builder := { b.builder with initMems := b.builder.initMems.insert id ptr } }
  match b.builder.initMems.lookup id with
  | some _ => throw (.panicked .initMemPresent)
  | none => pure ()

end ProtoBuilder

/-! ## Promises -/

/-- `pub enum PromiseFulfilled {}`: there is none. -/
inductive PromiseFulfilled

structure WrongMemFillType where
  expectedType : TypeId
  deriving DecidableEq, Repr

/-- `unsafe { std::mem::transmute(()) }`, which a promise that is kept ends in.
A value of a type without values is compiled to an abort. -/
def PromiseFulfilled.transmute : BuildM D PromiseFulfilled := throw .aborted

structure MemFillPromise where
  typeIdExpected : TypeId
  locId : LocId
  deriving DecidableEq, Repr

def MemFillPromise.fillMemory (promise : MemFillPromise) (info : TypeInfo D) (t : Datum D) :
    BuildM D (Except WrongMemFillType PromiseFulfilled) := do
  if info.typeId ≠ promise.typeIdExpected then pure (.error ⟨promise.typeIdExpected⟩)
  else
    ProtoBuilder.defineInitMemory promise.locId info t
    let fulfilled ← PromiseFulfilled.transmute
    pure (.ok fulfilled)

/-- `define_arity0` and `define_arity1`, which differ in the parameters. -/
def defineArity (name : String) (def' : FuncDef D) : BuildM D PromiseFulfilled := do
  ProtoBuilder.defineFunc name def'
  PromiseFulfilled.transmute

/-- `P::fill_memory`. An author whose value has the wrong type is left without
the token. -/
def Proto.callFillMemory (P : Proto D) (promise : MemFillPromise) :
    BuildM D (Option PromiseFulfilled) :=
  match P.fillMemory promise.locId with
  | none => pure none
  | some (info, t) => do
      match ← promise.fillMemory info t with
      | .ok fulfilled => pure (some fulfilled)
      | .error _ => pure none

/-- `P::def_func`. -/
def Proto.callDefFunc (P : Proto D) (name : String) : BuildM D (Option PromiseFulfilled) :=
  match P.defFunc name with
  | none => pure none
  | some def' => do
      let fulfilled ← defineArity name def'
      pure (some fulfilled)

/-! ## Rules -/

/-- The four sets of a rule that `build_rules` has built so far. -/
structure RuleSets where
  guardReady : BitSet
  guardFull : BitSet
  assignVals : BitSet
  assignMask : BitSet
  deriving DecidableEq, Repr

namespace RuleSets

def empty : RuleSets := ⟨∅, ∅, ∅, ∅⟩

def putterBits (s : RuleSets) (p : LocId) : RuleSets :=
  { s with
    guardFull := (s.guardFull.setTo p true).1
    assignVals := (s.assignVals.setTo p false).1
    assignMask := (s.assignMask.setTo p true).1 }

def getterBits (s : RuleSets) (g : LocId) : RuleSets :=
  { s with
    guardFull := (s.guardFull.setTo g false).1
    assignVals := (s.assignVals.setTo g true).1
    assignMask := (s.assignMask.setTo g true).1 }

/-- A memory cell that puts to itself stays full. -/
def selfPutBits (s : RuleSets) (g : LocId) : RuleSets :=
  { s with
    guardFull := (s.guardFull.setTo g true).1
    assignMask := (s.assignMask.setTo g false).1
    assignVals := (s.assignVals.setTo g false).1 }

def setReady (s : RuleSets) (id : LocId) : RuleSets :=
  { s with guardReady := (s.guardReady.setTo id true).1 }

def padTo (s : RuleSets) (c : Nat) : RuleSets :=
  ⟨s.guardReady.padTrailingZeroesToCapacity c, s.guardFull.padTrailingZeroesToCapacity c,
    s.assignVals.padTrailingZeroesToCapacity c, s.assignMask.padTrailingZeroesToCapacity c⟩

end RuleSets

section Rules

variable (locKinds : HashMap LocId LocKind) (id2TypeId : HashMap LocId TypeId)

/-- `loc_kinds.get(&id).ok_or(UnknownType { loc_id: id })?`. -/
def kindOf (id : LocId) : Except BuildStop LocKind :=
  match locKinds.lookup id with
  | some k => .ok k
  | none => .error (.err (.unknownType id))

/-- `id_2_type_id.get(&id).unwrap()`. -/
def typeOf (id : LocId) : Except BuildStop TypeId :=
  match id2TypeId.lookup id with
  | some t => .ok t
  | none => .error (.panicked .noneUnwrapped)

/-- The list of getters a getter is pushed to goes by its kind. -/
def RunAction.push (a : RunAction) (g : LocId) (memGetter : Bool) : RunAction :=
  match memGetter with
  | false => { a with pg := a.pg ++ [g] }
  | true => { a with mg := a.mg ++ [g] }

/-- The body of the loop over an action's getters. -/
def buildGetter (ruleId actionId : Nat) (p : LocId) (pType : TypeId) (memPutter : Bool)
    (st : RuleSets × RunAction) (g : LocId) : Except BuildStop (RuleSets × RunAction) := do
  let gKind ← kindOf locKinds g
  let gType ← typeOf id2TypeId g
  if pType ≠ gType then throw (.err (.typeMismatch ruleId actionId p g))
  if !gKind.canGet then throw (.err (.locCannotGet g))
  let memGetter := gKind.isMem
  let action := st.2.push g memGetter
  let sets := if memGetter then st.1.getterBits g else st.1
  let wasSet := sets.guardReady.test g
  let sets := sets.setReady g
  if wasSet then
    if g = p ∧ memPutter then pure (sets.selfPutBits g, action)
    else throw (.err (.synchronousFiring g))
  else pure (sets, action)

/-- The body of the loop over a rule's actions. The second check of
`guard_ready` repeats the first. -/
def buildAction (ruleId : Nat) (st : RuleSets × List RunAction) (a : ActionDef × Nat) :
    Except BuildStop (RuleSets × List RunAction) := do
  let p := a.1.putter
  let pKind ← kindOf locKinds p
  let pType ← typeOf id2TypeId p
  if !pKind.canPut then throw (.err (.locCannotPut p))
  let memPutter := pKind.isMem
  if st.1.guardReady.test p then throw (.err (.synchronousFiring p))
  let sets := if memPutter then st.1.putterBits p else st.1
  let was := sets.guardReady.test p
  let sets := sets.setReady p
  if was then throw (.err (.synchronousFiring p))
  let (sets, action) ← a.1.getters.eraseDups.foldlM
    (buildGetter locKinds id2TypeId ruleId a.2 p pType memPutter) (sets, ⟨p, [], []⟩)
  pure (sets, st.2 ++ [action])

def buildActions (ruleId : Nat) (actions : List ActionDef) :
    Except BuildStop (RuleSets × List RunAction) :=
  actions.zipIdx.foldlM (buildAction locKinds id2TypeId ruleId) (.empty, [])

end Rules

mutual

/-- The result is an error at the first function that is not defined; the
caller ignores it. The arguments of a function are not looked at. -/
def defineAllFuncsIn (P : Proto D) : Formula → BuildM D (Except ProtoBuildErr Unit)
  | .true | .memIsNull _ => pure (.ok ())
  | .and fs | .or fs | .none fs => defineAllFuncsInList P fs
  | .valueEq a b => do
      match ← defineAllFuncsInTerm P a with
      | .error e => pure (.error e)
      | .ok () => defineAllFuncsInTerm P b
  | .termVal a => defineAllFuncsInTerm P a
  | .funcDeclaration name _ => do
      match ← P.callDefFunc name with
      | none => pure (.error (.functionUndefined name))
      | some _ => pure (.ok ())

def defineAllFuncsInTerm (P : Proto D) : Term → BuildM D (Except ProtoBuildErr Unit)
  | .boolean f => defineAllFuncsIn P f
  | .value _ => pure (.ok ())

def defineAllFuncsInList (P : Proto D) : List Formula → BuildM D (Except ProtoBuildErr Unit)
  | [] => pure (.ok ())
  | f :: fs => do
      match ← defineAllFuncsIn P f with
      | .error e => pure (.error e)
      | .ok () => defineAllFuncsInList P fs

end

/-- The temporary memories are never computed. -/
def calcGuard (dataConstraint : Formula) : Formula × List (TempMemRunnable D) :=
  (dataConstraint, [])

def liftBuild {α : Type} (x : Except BuildStop α) : BuildM D α :=
  match x with
  | .ok a => pure a
  | .error e => throw e

def maxLocId (d : TypelessProtoDef) : LocId := d.locKinds.keys.foldl max 0

/-- The body of the loop over the rules. -/
def buildRule (P : Proto D) (id2TypeId : HashMap LocId TypeId) (rule : RuleDef × Nat) :
    BuildM D (RunRule D) := do
  let (sets, actions) ← liftBuild
    (buildActions P.typelessProtoDef.locKinds id2TypeId rule.2 rule.1.actions)
  let sets := sets.padTo (maxLocId P.typelessProtoDef)
  let _ ← defineAllFuncsIn P rule.1.guard
  let (guardPred, tempMems) := calcGuard rule.1.guard
  pure { guardReady := sets.guardReady, guardFull := sets.guardFull, tempMems, guardPred,
         assignVals := sets.assignVals, assignMask := sets.assignMask, actions }

def buildRulesFrom (P : Proto D) (id2TypeId : HashMap LocId TypeId) :
    List (RuleDef × Nat) → BuildM D (List (RunRule D))
  | [] => pure []
  | rule :: rules => do
      let run ← buildRule P id2TypeId rule
      let runs ← buildRulesFrom P id2TypeId rules
      pure (run :: runs)

def buildRules (P : Proto D) (id2TypeId : HashMap LocId TypeId) : BuildM D (List (RunRule D)) :=
  buildRulesFrom P id2TypeId P.typelessProtoDef.behaviour.rules.zipIdx

/-! ## `finish` -/

/-- `entry(k).or_insert(v)`. -/
def orInsert {K V : Type} [DecidableEq K] (m : HashMap K V) (k : K) (v : V) : HashMap K V :=
  match m.lookup k with
  | some _ => m
  | none => m.insert k v

/-- Collecting pairs into a map: a later pair replaces an earlier one. -/
def collectMap {K V : Type} [DecidableEq K] (kvs : List (K × V)) : HashMap K V :=
  kvs.foldl (fun m kv => m.insert kv.1 kv.2) ∅

/-- The pairs of a map, in the order of its traversal. -/
def HashMap.pairs {K V : Type} (m : HashMap K V) : List (K × V) :=
  m.entries.map fun e => (e.1, e.2)

/-- `id_2_type_id` and `type_id_2_info`. -/
def typeTables (P : Proto D) : List LocId → HashMap LocId TypeId → HashMap TypeId (TypeInfo D) →
    Except BuildStop (HashMap LocId TypeId × HashMap TypeId (TypeInfo D))
  | [], types, infos => .ok (types, infos)
  | id :: ids, types, infos =>
      match P.locType id with
      | none => .error (.err (.unknownType id))
      | some info =>
          typeTables P ids (orInsert types id info.typeId) (orInsert infos info.typeId info)

/-- `id_2_info`. -/
def infoOf (types : HashMap LocId TypeId) (infos : HashMap TypeId (TypeInfo D)) (id : LocId) :
    Except BuildStop (TypeInfo D) := do
  let t ← typeOf types id
  match infos.lookup t with
  | some info => .ok info
  | none => .error (.panicked .noneUnwrapped)

/-- The `filter_map` of `unclaimed_ports`. -/
def portInfos (types : HashMap LocId TypeId) :
    List (LocId × LocKind) → Except BuildStop (List (LocId × PortInfo))
  | [] => pure []
  | (id, .portPutter) :: rest => do
      let t ← typeOf types id
      let infos ← portInfos types rest
      pure ((id, ⟨.putter, t⟩) :: infos)
  | (id, .portGetter) :: rest => do
      let t ← typeOf types id
      let infos ← portInfos types rest
      pure ((id, ⟨.getter, t⟩) :: infos)
  | (_, .memInitialized) :: rest | (_, .memUninitialized) :: rest => portInfos types rest

def unclaimedPortsOf (locKinds : HashMap LocId LocKind) (types : HashMap LocId TypeId) :
    Except BuildStop (HashMap LocId PortInfo) := do
  let infos ← portInfos types locKinds.pairs
  pure (collectMap infos)

/-- The space of one location. -/
def buildSpace (P : Proto D) (types : HashMap LocId TypeId)
    (infos : HashMap TypeId (TypeInfo D)) (id : LocId) : BuildM D (Space D) := do
  match P.typelessProtoDef.locKinds.lookup id with
  | none => pure .unused
  | some .portPutter => do
      let info ← liftBuild (infoOf types infos id)
      pure (.poPu (.new .null info) .new)
  | some .portGetter => pure (.poGe .new)
  | some .memInitialized => do
      let info ← liftBuild (infoOf types infos id)
      let _ ← P.callFillMemory ⟨info.typeId, id⟩
      let b ← get
      match b.builder.initMems.lookup id with
      | some ptr => pure (.memo (.new ptr info))
      | none => throw (.err (.memoryFillPromiseBroken id))
  | some .memUninitialized => do
      let info ← liftBuild (infoOf types infos id)
      pure (.memo (.new .null info))

def buildSpaces (P : Proto D) (types : HashMap LocId TypeId)
    (infos : HashMap TypeId (TypeInfo D)) : List LocId → BuildM D (List (Space D))
  | [] => pure []
  | id :: ids => do
      let space ← buildSpace P types infos id
      let spaces ← buildSpaces P types infos ids
      pure (space :: spaces)

/-- The ids of the locations of a kind, in the order of the map. -/
def idsOfKind (locKinds : HashMap LocId LocKind) (which : LocKind → Bool) : List LocId :=
  (locKinds.pairs.filter fun kv => which kv.2).map (·.1)

/-- `init_mems.iter().map(|(&loc_id, &ptr)| (ptr, loc_id)).collect()`: what is
collected with each pointer is its location. -/
def initialMemRefs (initMems : HashMap LocId Ptr) : HashMap Ptr Nat :=
  collectMap (initMems.pairs.map fun kv => (kv.2, kv.1))

/-- The instance `finish` puts together in the end. -/
def protoOf (P : Proto D) (unclaimedPorts : HashMap LocId PortInfo) (memRefs : HashMap Ptr Nat)
    (spaces : List (Space D)) (rules : List (RunRule D)) (b : Build D) : ProtoAll D where
  r := { spaces, rules }
  w := {
    memoryBits := (BitSet.fromIter
      (idsOfKind P.typelessProtoDef.locKinds (· == .memInitialized))).padTrailingZeroesToCapacity
        (maxLocId P.typelessProtoDef)
    active := {
      ready := BitSet.fromIter (idsOfKind P.typelessProtoDef.locKinds LocKind.isMem)
      storage := b.builder.memStorage
      memRefs }
    commitment := none
    readyTentative := ∅
    awaitingStates := []
    unclaimedPorts }
  heap := b.heap

def finish (P : Proto D) : BuildM D (ProtoAll D) := do
  let locKinds := P.typelessProtoDef.locKinds
  let (types, infos) ← liftBuild (typeTables P locKinds.keys ∅ ∅)
  let unclaimedPorts ← liftBuild (unclaimedPortsOf locKinds types)
  let b ← get
  let memRefs := initialMemRefs b.builder.initMems
  let spaces ← buildSpaces P types infos (List.range (maxLocId P.typelessProtoDef + 1))
  let rules ← buildRules P types
  let b ← get
  pure (protoOf P unclaimedPorts memRefs spaces rules b)

/-! ## `try_instantiate` -/

/-- One initialised location of the loop in `try_instantiate`. -/
def fillInitMemory (P : Proto D) (locId : LocId) : BuildM D Unit := do
  match P.locType locId with
  | none => throw (.err (.unknownType locId))
  | some info =>
      match ← P.callFillMemory ⟨info.typeId, locId⟩ with
      | none => throw (.err (.memoryFillPromiseBroken locId))
      | some _ => pure ()

def tryInstantiate (P : Proto D) : BuildM D (ProtoAll D) := do
  Effect.forEach (fillInitMemory P)
    (idsOfKind P.typelessProtoDef.locKinds (· == .memInitialized))
  finish P

/-- The builder of a fresh process memory. -/
def Build.new (heap : Heap D) : Build D := ⟨.new, heap⟩

end ReoRs
