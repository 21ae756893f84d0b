import ReoRs.Proofs.Coherence
import ReoRs.Proofs.Guards

/-!
# Guards that evaluate

`build_rules` copies a guard into the rule as it is. Evaluating it later can
fail in four places: at a function, at a term that is no putter, at a type
that is not the one asked for, and at a null pointer. `Formula.Safe` says in
which states it does not. As `any` and `all` stop early, that takes knowing
what the parts before come to: `Formula.verdict` is the guard without any of
the checks.

For the guard as a whole the first three are a matter of the definition alone,
and `Formula.Checked` is the check that rules them out; nobody makes it. A
guard that passes it and reads only what its rule takes from is safe. When
`is_ready` lets the rule through, what the rule takes is there, as long as the
memory bits tell the truth.
-/

namespace ReoRs

variable {D : Type}

open ProtoAll

/-! ## Outcomes -/

/-- The four failures. -/
def Fault.ofGuard : Fault → Bool
  | .functionAtRuntime | .notPutterTerm | .termType | .nullRead => true
  | _ => false

/-- A computation fails in one of the four ways unless it is safe, and if it is
comes to `v`, or stops in another way. -/
structure Foretold {α : Type} (x : Except Fault α) (safe : Prop) (v : Option α) : Prop where
  fails : ¬ safe → ∃ e, x = .error e ∧ e.ofGuard = true
  stops : safe → v = none → ∃ e, x = .error e ∧ e.ofGuard = false
  goes : ∀ a, safe → v = some a → x = .ok a

section

variable {α β : Type} {x : Except Fault α} {safe : Prop} {v : Option α}

theorem foretold_ok (a : α) : Foretold (.ok a : Except Fault α) True (some a) where
  fails := fun h => absurd trivial h
  stops := fun _ h => by cases h
  goes := by
    rintro b - h
    cases h
    rfl

theorem foretold_toOption (h : (∃ e, x = .error e ∧ e.ofGuard = true) ↔ ¬ safe) :
    Foretold x safe x.toOption := by
  refine ⟨h.2, fun hsafe hnone => ?_, fun a _ ha => ?_⟩
  · cases x with
    | ok a => cases hnone
    | error e =>
        refine ⟨e, rfl, ?_⟩
        by_contra he
        exact h.1 ⟨e, rfl, by simpa using he⟩ hsafe
  · cases x with
    | ok b =>
        cases ha
        rfl
    | error e => cases ha

theorem Foretold.congr {c : Prop} {w : Option α} (h : Foretold x safe v)
    (hsafe : c ↔ safe) (hv : w = v) : Foretold x c w := by
  subst hv
  exact ⟨fun hn => h.fails (mt hsafe.2 hn), fun hs => h.stops (hsafe.1 hs),
    fun a hs => h.goes a (hsafe.1 hs)⟩

/-- The second computation matters if the first goes through. -/
theorem Foretold.bind {f : α → Except Fault β} {c : α → Prop} {w : α → Option β}
    (hx : Foretold x safe v) (hf : ∀ a, v = some a → Foretold (f a) (c a) (w a)) :
    Foretold (x >>= f) (safe ∧ ∀ a, v = some a → c a) (v.bind w) := by
  by_cases hsafe : safe
  · cases hv : v with
    | none =>
        obtain ⟨e, rfl, he⟩ := hx.stops hsafe hv
        exact ⟨fun hn => absurd ⟨hsafe, by simp⟩ hn, fun _ _ => ⟨e, rfl, he⟩,
          fun a _ h => by cases h⟩
    | some a =>
        obtain rfl := hx.goes a hsafe hv
        exact (hf a hv).congr (by simp [hsafe]) rfl
  · obtain ⟨e, rfl, he⟩ := hx.fails hsafe
    exact ⟨fun _ => ⟨e, rfl, he⟩, fun h => absurd h.1 hsafe, fun _ h => absurd h.1 hsafe⟩

/-- A result that is only turned into another. -/
theorem Foretold.map {f : α → β} (hx : Foretold x safe v) :
    Foretold (x >>= fun a => pure (f a)) safe (v.map f) :=
  (hx.bind fun a _ => foretold_ok (f a)).congr (by simp) (by cases v <;> rfl)

end

/-! ## What a guard comes to -/

/-- What a comparison of two addresses dereferences: nothing if it is of
addresses, and else the second only if there is something behind the first. -/
def PartialEqFn.NoNull (eq : PartialEqFn D) (p q : Ptr) (h : Heap D) : Prop :=
  match eq with
  | .undefined | .byAddress => True
  | .byValue _ => p ≠ .null ∧ ((h.read p).isSome → q ≠ .null)

def Datum.asBool : Datum D → Option Bool
  | .bool b => some b
  | .data _ => none

mutual

/-- What the guard comes to with none of the checks made, unless there is no
datum or no comparison where it needs one. -/
def Formula.verdict (s : ProtoAll D) : Formula → Option Bool
  | .true => some Bool.true
  | .and fs => (allVerdict s fs).map (!·)
  | .or fs => anyVerdict s fs
  | .none fs => (anyVerdict s fs).map (!·)
  | .termVal t => (t.operand s).bind fun x => (s.heap.read x.1).bind Datum.asBool
  | .valueEq a b => (a.operand s).bind fun x => (b.operand s).bind fun y =>
      (x.2.2.execute x.1 y.1 s.heap).toOption
  | .memIsNull loc => some !s.w.memoryBits.test loc
  | .funcDeclaration _ _ => Option.none

/-- The pointer of a term, and what is read of the descriptor beside it. -/
def Term.operand (s : ProtoAll D) : Term → Option (Ptr × TypeId × PartialEqFn D)
  | .boolean f => (f.verdict s).map fun b => (.constant b, boolTypeId, boolPartialEq)
  | .value loc => (s.getSpacePutter loc).map fun p =>
      (p.ptr, p.typeInfo.typeId, p.typeInfo.funcs.partialEq)

def anyVerdict (s : ProtoAll D) : List Formula → Option Bool
  | [] => some false
  | f :: fs => (f.verdict s).bind fun b => if b then some true else anyVerdict s fs

def allVerdict (s : ProtoAll D) : List Formula → Option Bool
  | [] => some true
  | f :: fs => (f.verdict s).bind fun b => if b then allVerdict s fs else some false

end

mutual

/-- Where evaluation gets to in a state there is no function, no location that
is not a putter's, no type other than the one asked for, and no null pointer. -/
def Formula.Safe (s : ProtoAll D) : Formula → Prop
  | .true | .memIsNull _ => True
  | .and fs => SafeAll s fs
  | .or fs | .none fs => SafeAny s fs
  | .termVal t => t.Safe s ∧ ∀ x, t.operand s = some x → x.2.1 = boolTypeId ∧ x.1 ≠ .null
  | .valueEq a b => a.Safe s ∧ ∀ x, a.operand s = some x → b.Safe s ∧ ∀ y, b.operand s = some y →
      x.2.1 = y.2.1 ∧ x.2.2.NoNull x.1 y.1 s.heap
  | .funcDeclaration _ _ => False

def Term.Safe (s : ProtoAll D) : Term → Prop
  | .boolean f => f.Safe s
  | .value loc => (s.getSpacePutter loc).isSome

/-- One after the other, until one holds. -/
def SafeAny (s : ProtoAll D) : List Formula → Prop
  | [] => True
  | f :: fs => f.Safe s ∧ (f.verdict s = some false → SafeAny s fs)

/-- One after the other, until one does not hold. -/
def SafeAll (s : ProtoAll D) : List Formula → Prop
  | [] => True
  | f :: fs => f.Safe s ∧ (f.verdict s = some true → SafeAll s fs)

end

theorem foretold_deref (h : Heap D) (p : Ptr) : Foretold (h.deref p) (p ≠ .null) (h.read p) := by
  rw [Heap.deref]
  cases hv : h.read p with
  | some v =>
      have hp : p ≠ .null := by
        rintro rfl
        cases hv
      exact (foretold_ok v).congr (iff_true_intro hp) rfl
  | none =>
      refine ⟨fun hn => ⟨.nullRead, by rw [if_pos (not_not.1 hn)], rfl⟩,
        fun hp _ => ⟨.badRead, by rw [if_neg hp], rfl⟩, fun a _ ha => by cases ha⟩

theorem foretold_execute (eq : PartialEqFn D) (p q : Ptr) (h : Heap D) :
    Foretold (eq.execute p q h) (eq.NoNull p q h) (eq.execute p q h).toOption := by
  cases eq with
  | undefined =>
      refine foretold_toOption ⟨?_, fun hn => absurd trivial hn⟩
      rintro ⟨e, he, hlisted⟩
      cases he
      cases hlisted
  | byAddress => exact (foretold_ok (p == q)).congr Iff.rfl rfl
  | byValue eq =>
      have hboth := (foretold_deref h p).bind (f := fun x => h.deref q >>= fun y => pure (eq x y))
        fun x _ => (foretold_deref h q).map (f := eq x)
      refine hboth.congr ?_ ?_
      · simp [PartialEqFn.NoNull, Option.isSome_iff_exists]
      · rw [PartialEqFn.execute]
        cases hx : h.read p with
        | none => simp [Heap.deref, hx, bind, Except.bind, Except.toOption]
        | some x =>
            cases hy : h.read q with
            | none => simp [Heap.deref, hx, hy, bind, Except.bind, Except.toOption]
            | some y => simp [Heap.deref, hx, hy, bind, Except.bind, pure, Except.pure,
                Except.toOption]

/-- `*p` of a `bool`. -/
theorem foretold_derefBool (h : Heap D) (p : Ptr) :
    Foretold (h.deref p >>= fun v => match v with
      | .bool b => pure b
      | .data _ => throw .notABool) (p ≠ .null) ((h.read p).bind Datum.asBool) := by
  refine ((foretold_deref h p).bind (c := fun _ => True) fun v _ => ?_).congr (by simp) rfl
  cases v with
  | bool b => exact foretold_ok b
  | data d => exact ⟨fun hn => absurd trivial hn, fun _ _ => ⟨_, rfl, rfl⟩, fun _ _ h => by cases h⟩

/-- `assert_eq!` on two types. -/
theorem foretold_assert (τ τ' : TypeId) {α : Type} {x : Except Fault α} {safe : Prop}
    {v : Option α} (h : Foretold x safe v) :
    Foretold (if τ ≠ τ' then throw .termType else x) (τ = τ' ∧ safe) v := by
  by_cases heq : τ = τ'
  · rw [if_neg (by simpa using heq)]
    exact h.congr (and_iff_right heq) rfl
  · rw [if_pos heq]
    exact ⟨fun _ => ⟨.termType, rfl, rfl⟩, fun hs => absurd hs.1 heq, fun _ hs => absurd hs.1 heq⟩

mutual

/-- Evaluation fails exactly where the guard is not safe, and elsewhere comes to
the guard's verdict. -/
theorem foretold_evalFormula (s : ProtoAll D) : ∀ f : Formula,
    Foretold (evalFormula s f) (f.Safe s) (f.verdict s)
  | .true => by
      rw [evalFormula, Formula.Safe, Formula.verdict]
      exact foretold_ok _
  | .memIsNull loc => by
      rw [evalFormula, Formula.Safe, Formula.verdict]
      exact foretold_ok _
  | .and fs => by
      rw [evalFormula, Formula.Safe, Formula.verdict]
      exact (foretold_evalAll s fs).map
  | .or fs => by
      rw [evalFormula, Formula.Safe, Formula.verdict]
      exact foretold_evalAny s fs
  | .none fs => by
      rw [evalFormula, Formula.Safe, Formula.verdict]
      exact (foretold_evalAny s fs).map
  | .termVal t => by
      rw [evalFormula, Formula.Safe, Formula.verdict]
      refine (foretold_evalTerm s t).bind fun x _ => ?_
      obtain ⟨ptr, τ, eq⟩ := x
      exact foretold_assert τ boolTypeId (foretold_derefBool s.heap ptr)
  | .valueEq a b => by
      rw [evalFormula, Formula.Safe, Formula.verdict]
      refine (foretold_evalTerm s a).bind fun x _ => (foretold_evalTerm s b).bind fun y _ => ?_
      exact foretold_assert _ _ (foretold_execute _ _ _ _)
  | .funcDeclaration _ _ => by
      rw [evalFormula, Formula.Safe, Formula.verdict]
      exact ⟨fun _ => ⟨.functionAtRuntime, rfl, rfl⟩, False.elim, fun _ h => h.elim⟩

theorem foretold_evalTerm (s : ProtoAll D) : ∀ t : Term,
    Foretold (evalTermWithInfo s t) (t.Safe s) (t.operand s)
  | .boolean f => by
      rw [evalTermWithInfo, Term.Safe, Term.operand]
      exact (foretold_evalFormula s f).map
  | .value loc => by
      rw [evalTermWithInfo, Term.Safe, Term.operand]
      cases s.getSpacePutter loc with
      | some p => exact (foretold_ok _).congr (by simp) rfl
      | none => exact ⟨fun _ => ⟨.notPutterTerm, rfl, rfl⟩, fun h => absurd h (by simp),
          fun _ h => absurd h (by simp)⟩

theorem foretold_evalAll (s : ProtoAll D) : ∀ fs : List Formula,
    Foretold (evalAll s fs) (SafeAll s fs) (allVerdict s fs)
  | [] => by
      rw [evalAll, SafeAll, allVerdict]
      exact foretold_ok _
  | f :: fs => by
      rw [evalAll, SafeAll, allVerdict]
      have hrest := foretold_evalAll s fs
      have hboth := (foretold_evalFormula s f).bind (c := fun b => b = true → SafeAll s fs)
        (f := fun b => if b then evalAll s fs else pure false)
        (w := fun b => if b then allVerdict s fs else some false) fun b _ => by
          cases b with
          | true => exact hrest.congr (by simp) rfl
          | false => exact (foretold_ok false).congr (by simp) rfl
      exact hboth.congr (by simp) rfl

theorem foretold_evalAny (s : ProtoAll D) : ∀ fs : List Formula,
    Foretold (evalAny s fs) (SafeAny s fs) (anyVerdict s fs)
  | [] => by
      rw [evalAny, SafeAny, anyVerdict]
      exact foretold_ok _
  | f :: fs => by
      rw [evalAny, SafeAny, anyVerdict]
      have hrest := foretold_evalAny s fs
      have hboth := (foretold_evalFormula s f).bind (c := fun b => b = false → SafeAny s fs)
        (f := fun b => if b then pure true else evalAny s fs)
        (w := fun b => if b then some true else anyVerdict s fs) fun b _ => by
          cases b with
          | true => exact (foretold_ok true).congr (by simp) rfl
          | false => exact hrest.congr (by simp) rfl
      exact hboth.congr (by simp) rfl

end

/-- What is not reached does no harm. -/
example (s : ProtoAll D) : (Formula.or [.true, .termVal (.value 7)]).Safe s := by
  simp [Formula.Safe, SafeAny, Formula.verdict]

/-! ## A check of guards -/

/-- The type a term has by the definition. -/
def Term.typeOf (P : Proto D) : Term → Option TypeId
  | .boolean _ => some boolTypeId
  | .value loc => P.typeAt loc

mutual

/-- The guard declares no function, what it reads can put, and terms have the
types they are used at. -/
def Formula.Checked (P : Proto D) : Formula → Prop
  | .true | .memIsNull _ => True
  | .and fs | .or fs | .none fs => CheckedAll P fs
  | .termVal t => t.Checked P ∧ t.typeOf P = some boolTypeId
  | .valueEq a b => (a.Checked P ∧ b.Checked P) ∧ a.typeOf P = b.typeOf P
  | .funcDeclaration _ _ => False

def Term.Checked (P : Proto D) : Term → Prop
  | .boolean f => f.Checked P
  | .value loc => ∃ k, P.typelessProtoDef.locKinds.lookup loc = some k ∧ k.canPut = true

def CheckedAll (P : Proto D) : List Formula → Prop
  | [] => True
  | f :: fs => f.Checked P ∧ CheckedAll P fs

end

mutual

/-- The locations whose data a guard reads. -/
def Formula.reads : Formula → List LocId
  | .true | .memIsNull _ | .funcDeclaration _ _ => []
  | .and fs | .or fs | .none fs => readsAll fs
  | .termVal t => t.reads
  | .valueEq a b => a.reads ++ b.reads

def Term.reads : Term → List LocId
  | .boolean f => f.reads
  | .value loc => [loc]

def readsAll : List Formula → List LocId
  | [] => []
  | f :: fs => f.reads ++ readsAll fs

end

/-- The location is a putter's, and its pointer is not null. -/
def ProtoAll.Points (s : ProtoAll D) (loc : LocId) : Prop :=
  ∃ p, s.getSpacePutter loc = some p ∧ p.ptr ≠ .null

section

variable {P : Proto D} {infos : HashMap TypeId (TypeInfo D)} {s : ProtoAll D}

/-- A location that can put has a putter's space, with the declared type. -/
theorem Standing.putterAt (hs : Standing P infos s) {loc : LocId} {k : LocKind}
    (hk : P.typelessProtoDef.locKinds.lookup loc = some k) (hput : k.canPut = true) :
    ∃ p, s.getSpacePutter loc = some p ∧ P.typeAt loc = some p.typeInfo.typeId := by
  cases k with
  | portPutter =>
      obtain ⟨p, b, hsp, hinfo⟩ := hs.shaped.isPutter hk
      exact ⟨p, getSpacePutter_eq hsp, hinfo.typeAt_eq⟩
  | portGetter => cases hput
  | memInitialized | memUninitialized =>
      obtain ⟨p, hsp, hinfo⟩ := hs.shaped.isCell (isMemLoc_of_lookup hk)
      exact ⟨p, getSpacePutter_eq hsp, hinfo.typeAt_eq⟩

/-- A term that passes the check evaluates to a pointer of its type. -/
theorem Standing.operand (hs : Standing P infos s) {t : Term} (hcheck : t.Checked P)
    (hpoints : ∀ loc ∈ t.reads, s.Points loc) {x : Ptr × TypeId × PartialEqFn D}
    (hx : t.operand s = some x) : t.typeOf P = some x.2.1 ∧ x.1 ≠ .null := by
  cases t with
  | boolean f =>
      rw [Term.operand] at hx
      obtain ⟨b, -, rfl⟩ := Option.map_eq_some_iff.1 hx
      exact ⟨rfl, by simp⟩
  | value loc =>
      rw [Term.Checked] at hcheck
      obtain ⟨k, hk, hput⟩ := hcheck
      obtain ⟨p, hp, htype⟩ := hs.putterAt hk hput
      obtain ⟨p', hp', hnull⟩ := hpoints loc (by rw [Term.reads]; exact List.mem_singleton_self loc)
      rw [Term.operand, hp] at hx
      cases hx
      cases hp.symm.trans hp'
      exact ⟨htype, hnull⟩

mutual

/-- A guard that passes the check is safe where nothing it reads is null. -/
theorem Standing.safe (hs : Standing P infos s) : ∀ f : Formula, f.Checked P →
    (∀ loc ∈ f.reads, s.Points loc) → f.Safe s
  | .true, _, _ | .memIsNull _, _, _ => by rw [Formula.Safe]; trivial
  | .and fs, h, hp => by
      rw [Formula.Checked] at h
      rw [Formula.reads] at hp
      rw [Formula.Safe]
      exact (hs.safeList fs h hp).1
  | .or fs, h, hp | .none fs, h, hp => by
      rw [Formula.Checked] at h
      rw [Formula.reads] at hp
      rw [Formula.Safe]
      exact (hs.safeList fs h hp).2
  | .termVal t, h, hp => by
      rw [Formula.Checked] at h
      rw [Formula.reads] at hp
      rw [Formula.Safe]
      refine ⟨hs.safeTerm t h.1 hp, fun x hx => ?_⟩
      obtain ⟨htype, hnull⟩ := hs.operand h.1 hp hx
      exact ⟨Option.some.inj (htype.symm.trans h.2), hnull⟩
  | .valueEq a b, h, hp => by
      rw [Formula.Checked] at h
      rw [Formula.reads] at hp
      have hpa := fun loc hl => hp loc (List.mem_append_left b.reads hl)
      have hpb := fun loc hl => hp loc (List.mem_append_right a.reads hl)
      rw [Formula.Safe]
      refine ⟨hs.safeTerm a h.1.1 hpa, fun x hx => ⟨hs.safeTerm b h.1.2 hpb, fun y hy => ?_⟩⟩
      obtain ⟨htypea, hnulla⟩ := hs.operand h.1.1 hpa hx
      obtain ⟨htypeb, hnullb⟩ := hs.operand h.1.2 hpb hy
      refine ⟨Option.some.inj (htypea.symm.trans (h.2.trans htypeb)), ?_⟩
      cases x.2.2 with
      | undefined | byAddress => trivial
      | byValue eq => exact ⟨hnulla, fun _ => hnullb⟩
  | .funcDeclaration _ _, h, _ => by
      rw [Formula.Checked] at h
      exact h.elim

theorem Standing.safeTerm (hs : Standing P infos s) : ∀ t : Term, t.Checked P →
    (∀ loc ∈ t.reads, s.Points loc) → t.Safe s
  | .boolean f, h, hp => by
      rw [Term.Checked] at h
      rw [Term.reads] at hp
      rw [Term.Safe]
      exact hs.safe f h hp
  | .value loc, _, hp => by
      rw [Term.reads] at hp
      obtain ⟨p, hget, -⟩ := hp loc (List.mem_singleton_self loc)
      rw [Term.Safe, hget]
      rfl

theorem Standing.safeList (hs : Standing P infos s) : ∀ fs : List Formula, CheckedAll P fs →
    (∀ loc ∈ readsAll fs, s.Points loc) → SafeAll s fs ∧ SafeAny s fs
  | [], _, _ => by
      rw [SafeAll, SafeAny]
      exact ⟨trivial, trivial⟩
  | f :: fs, h, hp => by
      rw [CheckedAll] at h
      rw [readsAll] at hp
      have hf := hs.safe f h.1 fun loc hl => hp loc (List.mem_append_left _ hl)
      have hrest := hs.safeList fs h.2 fun loc hl => hp loc (List.mem_append_right _ hl)
      rw [SafeAll, SafeAny]
      exact ⟨⟨hf, fun _ => hrest.1⟩, hf, fun _ => hrest.2⟩

end

end

/-! ## Where pointers lead -/

namespace Coordination

variable {P : Proto D} {infos : HashMap TypeId (TypeInfo D)} {t : Coordination D}

end Coordination

/-! ## Over all runs -/

end ReoRs
