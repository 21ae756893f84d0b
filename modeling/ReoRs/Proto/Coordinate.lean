import ReoRs.Proto.State

/-!
# `proto/mod.rs`: acting as the protocol

The thread that takes the lock plays the coordinator: it marks its location
ready and then fires rules until none can fire. The restarting loop of
`exhaust_rules` is cut at its restarts. `exhaustPass` is one scan of the
rules, which ends by firing, by committing, or by finding nothing to do, and
`exhaustRules` repeats it. Interleavings with the other threads' unlocked
steps are then interleavings with passes.
-/

namespace ReoRs

variable {D : Type}

/-! ## Guards -/

/-- The zipped loop of `is_ready`. It stops at the shortest of the four
vectors. -/
def isReadyChunks : (ready memory guardReady guardFull : List Chunk) → Bool
  | mr :: rs, mv :: ms, gr :: gs, gv :: fs =>
      let shouldBePos := gr &&& gv
      let shouldBeNeg := gr &&& ~~~ gv
      let arePos := mr &&& mv
      let areNeg := mr &&& ~~~ mv
      let falseNeg := shouldBePos &&& ~~~ arePos
      let falsePos := shouldBeNeg &&& ~~~ areNeg
      if (falseNeg ||| falsePos) != 0#64 then false else isReadyChunks rs ms gs fs
  | _, _, _, _ => true

def isReady (memory ready : BitSet) (rule : RunRule D) : Bool :=
  isReadyChunks ready.data memory.data rule.guardReady.data rule.guardFull.data

def subtractReadiness (ready : BitSet) (rule : RunRule D) : BitSet :=
  ⟨Words.zipInto (fun mr gr => mr &&& ~~~ gr) ready.data rule.guardReady.data⟩

def assignMemoryBits (memory : BitSet) (rule : RunRule D) : BitSet :=
  ⟨Words.zipInto (fun mv (av, am) => (mv ||| (av ||| am)) &&& (av ||| ~~~ am)) memory.data
    (rule.assignVals.data.zip rule.assignMask.data)⟩

mutual

def evalFormula (s : ProtoAll D) : Formula → Except Fault Bool
  | .true => pure true
  | .none fs => do
      let b ← evalAny s fs
      pure !b
  | .and fs => do
      let b ← evalAll s fs
      pure !b
  | .or fs => evalAny s fs
  | .termVal t => do
      let (ptr, typeId, _) ← evalTermWithInfo s t
      if typeId ≠ boolTypeId then throw .termType
      match ← s.heap.deref ptr with
      | .bool b => pure b
      | .data _ => throw .notABool
  | .valueEq a b => do
      let (aptr, i₁, eq) ← evalTermWithInfo s a
      let (bptr, i₂, _) ← evalTermWithInfo s b
      if i₁ ≠ i₂ then throw .termType
      eq.execute aptr bptr s.heap
  | .memIsNull loc => pure !s.w.memoryBits.test loc
  | .funcDeclaration _ _ => throw .functionAtRuntime

/-- The pointer, and what `eval_formula` reads of the descriptor beside it:
its `type_id` and its `partial_eq`. -/
def evalTermWithInfo (s : ProtoAll D) : Term → Except Fault (Ptr × TypeId × PartialEqFn D)
  | .boolean f => do
      let b ← evalFormula s f
      pure (.constant b, boolTypeId, boolPartialEq)
  | .value loc =>
      match s.getSpacePutter loc with
      | some p => pure (p.ptr, p.typeInfo.typeId, p.typeInfo.funcs.partialEq)
      | none => throw .notPutterTerm

/-- `iter().any(f)`. -/
def evalAny (s : ProtoAll D) : List Formula → Except Fault Bool
  | [] => pure false
  | f :: fs => do
      if ← evalFormula s f then pure true else evalAny s fs

/-- `iter().all(f)`. -/
def evalAll (s : ProtoAll D) : List Formula → Except Fault Bool
  | [] => pure true
  | f :: fs => do
      if ← evalFormula s f then evalAll s fs else pure false

end

def evalTerm (s : ProtoAll D) : Term → Except Fault Ptr
  | .boolean f => do
      let b ← evalFormula s f
      pure (.constant b)
  | .value loc =>
      match s.getSpacePutter loc with
      | some p => pure p.ptr
      | none => throw .notPutterTerm

/-- A computation that only reads the state. -/
def reading {α : Type} (x : ProtoAll D → Except Fault α) : Proc D α := do
  let s ← get
  match x s with
  | .ok a => pure a
  | .error e => throw e

/-! ## Temporary memories -/

/-- The datum an argument of a temporary's function points to. -/
def argument (t : Term) : Proc D (Datum D) :=
  reading fun s => do
    let ptr ← evalTerm s t
    match s.heap.read ptr with
    | some v => pure v
    | none => throw .badRead

def TempRuleFunc.compute : TempRuleFunc D → Proc D (Datum D)
  | .arity0 func => pure func
  | .arity1 func a => do
      let x ← argument a
      pure (func x)
  | .arity2 func a b => do
      let x ← argument a
      let y ← argument b
      pure (func x y)
  | .arity3 func a b c => do
      let x ← argument a
      let y ← argument b
      let z ← argument c
      pure (func x y z)

/-- `mem_refs.insert(dest, refcounts)`, for a slot that must not be in it. -/
def countRefs (dest : Ptr) (refcounts : Nat) : Proc D Unit := do
  let s ← get
  set (s.mapMemRefs (·.insert dest refcounts))
  if (s.w.active.memRefs.lookup dest).isSome then throw .refsPresent else pure ()

def buildTemp (t : TempMemRunnable D) : Proc D Unit := do
  let s ← get
  match s.getSpace t.tempMemLocId with
  | some (.temp p) =>
      let dest ← onStorage (Storage.alloc p.typeInfo)
      overwriteNullPtr t.tempMemLocId dest
      let v ← t.func.compute
      modify fun s => { s with heap := s.heap.write dest (some v) }
      countRefs dest 1
  | _ => throw .notTemp

def buildTemps (rule : RunRule D) : Proc D Unit := Effect.forEach buildTemp rule.tempMems

def unbuildTemp (t : TempMemRunnable D) : Proc D Unit := do
  let s ← get
  match s.getSpace t.tempMemLocId with
  | some (.temp _) => makeEmpty true t.tempMemLocId
  | _ => throw .notTemp

def unbuildTemps (rule : RunRule D) : Proc D Unit := Effect.forEach unbuildTemp rule.tempMems

/-! ## Firing -/

/-- `overwrite_null_ptr(src)`, and the cell is ready. -/
def fillCell (g : LocId) (src : Ptr) : Proc D Unit := do
  overwriteNullPtr g src
  modify (·.setReady g true)

/-- The loop over `me_ge` of a memory putter: every other getter cell gets the
putter's pointer and becomes ready. -/
def duplicateRef (putter : LocId) (src : Ptr) (tid : TypeId) (g : LocId) : Proc D Unit := do
  if g = putter then pure ()
  else
    let s ← get
    match s.getMePu g with
    | none => throw .notAMemory
    | some space =>
        if tid ≠ space.typeInfo.typeId then throw .getterType
        else fillCell g src

/-- The memory getters of a memory putter. Returns whether moving must be
disabled. -/
def sharePointer (putter : LocId) (src : Ptr) (tid : TypeId) (meGe : List LocId) :
    Proc D Bool := do
  Effect.forEach (duplicateRef putter src tid) meGe
  let s ← get
  match s.w.active.memRefs.lookup src with
  | none => throw .badRefs
  | some srcRefs =>
      if srcRefs < 1 then throw .refsZero
      else
        set (s.mapMemRefs (·.insert src (srcRefs + meGe.length)))
        pure (srcRefs + meGe.length != 1)

/-- The loop that copies the new slot's pointer to the other getter cells. -/
def shareSlot (tid : TypeId) (dest : Ptr) (g : LocId) : Proc D Unit := do
  let s ← get
  match s.getMePu g with
  | none => throw .notAMemory
  | some space =>
      if tid ≠ space.typeInfo.typeId then throw .getterType
      else fillCell g dest

/-- The memory getters of a port putter: the first gets a slot of its own, the
others share it. With no port getter left to serve, the datum is moved. -/
def populateMemory (src : Ptr) (meGe poGe : List LocId) : Proc D Unit := do
  match meGe with
  | [] => pure ()
  | first :: others =>
      let s ← get
      match s.getMePu first with
      | none => throw .notAMemory
      | some space =>
          let dest ← onStorage (match poGe.length with
            | 0 => Storage.moveIn src space.typeInfo
            | _ => Storage.cloneIn src space.typeInfo)
          fillCell first dest
          Effect.forEach (shareSlot space.typeInfo.typeId dest) others
          countRefs dest (1 + others.length)

/-- The memory getters of an action. Returns `disable_move`. -/
def feedMemory (putter : LocId) (meGe poGe : List LocId) : Proc D Bool := do
  let s ← get
  match s.getSpace putter with
  | some (.poPu p _) => do
      populateMemory p.ptr meGe poGe
      pure false
  | some (.memo p) | some (.temp p) => sharePointer putter p.ptr p.typeInfo.typeId meGe
  | _ => throw .notAPutter

/-- The end of an action without port getters: the putter is released at
once. -/
def releasePutter (putter : LocId) (meGe : List LocId) : Proc D Unit := do
  let s ← get
  match s.getSpace putter with
  | some (.poPu _ _) => send putter (if meGe.isEmpty then 0 else 1)
  | some (.memo _) | some (.temp _) =>
      -- `move_into_self`
      if putter ∈ meGe then pure () else makeEmpty true putter
  | _ => throw .notAPutter

/-- What `perform_action` stores in the putter's space before it calls the
port getters. -/
def PutterSpace.beginHandOff (p : PutterSpace D) (getters : Nat) (disableMove : Bool) :
    PutterSpace D :=
  { p with clonerCountdown := getters, moveFlags := p.moveFlags.reset !disableMove }

/-- The end of an action with port getters. -/
def callGetters (putter : LocId) (disableMove : Bool) (poGe : List LocId) : Proc D Unit := do
  modify (·.mapPutter putter (·.beginHandOff poGe.length disableMove))
  Effect.forEach (fun g => sendToGetter g putter) poGe

def performAction (putter : LocId) (meGe poGe : List LocId) : Proc D Unit := do
  let disableMove ← feedMemory putter meGe poGe
  if poGe.length = 0 then releasePutter putter meGe
  else callGetters putter disableMove poGe

def RunRule.fire (rule : RunRule D) : Proc D Unit :=
  Effect.forEach (fun a => performAction a.putter a.mg a.pg) rule.actions

/-! ## Coordinating -/

def ProtoAll.setAwaitingStates (s : ProtoAll D) (waiters : List StateWaiter) : ProtoAll D :=
  { s with w := { s.w with awaitingStates := waiters } }

/-- The `retain` loop, with the waiters it has kept so far. A panic in it leaves
these, the waiter that was to be told and those not come to. -/
def notifyWaiters (ready : BitSet) : (kept waiters : List StateWaiter) → Proc D Unit
  | kept, [] => modify (·.setAwaitingStates kept)
  | kept, waiter :: rest => do
      modify (·.setAwaitingStates (kept ++ waiter :: rest))
      if ready.isSuperset waiter.state then
        let s ← get
        match s.getDropbox waiter.whom with
        | some _ => send waiter.whom MsgDropbox.nothingMsg
        | none => throw .badStateWaiter
        notifyWaiters ready kept rest
      else notifyWaiters ready (kept ++ [waiter]) rest

def notifyStateWaiters : Proc D Unit := do
  let s ← get
  notifyWaiters s.w.active.ready [] s.w.awaitingStates

/-- Tells one tentative port which rule was committed to. -/
def sendTentative (ruleId : RuleId) (id : LocId) : Proc D Unit := do
  let s ← get
  match s.getDropbox id with
  | some _ => send id ruleId
  | none => throw .badTentative

inductive PassEnd where
  | quiet
  | fired (rule : RuleId)
  | committed (rule : RuleId)
  deriving DecidableEq, Repr

/-- The body of the scan for a rule whose bits and guard both allow it. -/
def fireRule (ruleId : RuleId) (rule : RunRule D) : Proc D PassEnd := do
  let s ← get
  let tentatives := s.w.active.ready.iterAnd s.w.readyTentative
  Effect.forEach (sendTentative ruleId) tentatives
  -- bits are assigned before the action happens, for the tentative ports
  modify fun s => { s with w := { s.w with memoryBits := assignMemoryBits s.w.memoryBits rule } }
  if tentatives.length > 0 then
    modify fun s => { s with w := { s.w with
      commitment := some { ruleId, awaiting := tentatives.length } } }
    pure (.committed ruleId)
  else
    modify fun s => { s with w := { s.w with active := { s.w.active with
      ready := subtractReadiness s.w.active.ready rule } } }
    rule.fire
    notifyStateWaiters
    pure (.fired ruleId)

/-- The scan, from rule `ruleId` on. -/
def tryRules : RuleId → List (RunRule D) → Proc D PassEnd
  | _, [] => pure .quiet
  | ruleId, rule :: rest => do
      let s ← get
      if isReady s.w.memoryBits s.w.active.ready rule then
        buildTemps rule
        let guardPass ← reading fun s => evalFormula s rule.guardPred
        if guardPass then fireRule ruleId rule
        else
          unbuildTemps rule
          tryRules (ruleId + 1) rest
      else tryRules (ruleId + 1) rest

def exhaustPass : Proc D PassEnd := do
  let s ← get
  tryRules 0 s.r.rules

/-- `exhaust_rules`, given fuel for the restarts; false if it ran out. -/
def exhaustRules : Nat → Proc D Bool
  | 0 => pure false
  | fuel + 1 => do
      match ← exhaustPass with
      | .fired _ => exhaustRules fuel
      | .quiet | .committed _ => pure true

/-- `ready_set_coordinate` up to its calls of `exhaust_rules`; returns whether
one follows. -/
def readySet (myId : LocId) : Proc D Bool := do
  modify (·.setReady myId true)
  let s ← get
  match s.w.commitment with
  | none => pure true
  | some c =>
      let iWasTentative := !(s.w.readyTentative.setTo myId false).2
      set { s with w := { s.w with readyTentative := (s.w.readyTentative.setTo myId false).1 } }
      if iWasTentative then
        if c.awaiting = 0 then throw .subtractOverflow
        else
          modify fun s => { s with w := { s.w with
            commitment := some { c with awaiting := c.awaiting - 1 } } }
          if c.awaiting - 1 = 0 then
            match s.r.rules[c.ruleId]? with
            | none => throw .badRuleId
            | some rule =>
                modify fun s => { s with w := { s.w with active := { s.w.active with
                  ready := subtractReadiness s.w.active.ready rule } } }
                rule.fire
                notifyStateWaiters
                modify fun s => { s with w := { s.w with commitment := none } }
                pure true
          else pure false
      else pure false

def readySetCoordinate (fuel : Nat) (myId : LocId) : Proc D Bool := do
  if ← readySet myId then exhaustRules fuel else pure true

end ReoRs
