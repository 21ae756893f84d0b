import ReoRs.Proto.Coordinate

/-!
# What a guard says, and what `eval_formula` makes of it

A guard has a logical meaning that owes nothing to how it is evaluated: its
connectives are those of propositional logic, and its atoms are memory bits,
booleans behind a location, and comparisons. `eval_formula` follows it
connective by connective with one exception. `And(x)` is evaluated to
`!x.iter().all(f)`, so what comes out is the meaning of the formula in which
every `And` is denied.

Comparisons go wrong in one place of their own. The comparison function of
the left term decides, and for a `Term::Boolean` that is the one of
`BOOL_TYPE_INFO`, which compares addresses. As `BOOL_TYPE_INFO` is public, a
location can be described by it too.
-/

namespace ReoRs

variable {D : Type}

/-! ## Meaning -/

/-- The boolean a location holds. -/
def ProtoAll.truthAt (s : ProtoAll D) (loc : LocId) : Bool :=
  match (s.getSpacePutter loc).bind fun p => s.heap.read p.ptr with
  | some (.bool b) => b
  | _ => false

mutual

/-- The logical meaning of a formula. A comparison is an atom. -/
def Formula.meaning (s : ProtoAll D) : Formula → Bool
  | .true => Bool.true
  | .and fs => allMean s fs
  | .or fs => anyMeans s fs
  | .none fs => !anyMeans s fs
  | .memIsNull loc => !s.w.memoryBits.test loc
  | .termVal t => t.truth s
  | .valueEq a b =>
      match evalFormula s (.valueEq a b) with
      | .ok v => v
      | .error _ => false
  | .funcDeclaration _ _ => false

def Term.truth (s : ProtoAll D) : Term → Bool
  | .boolean f => f.meaning s
  | .value loc => s.truthAt loc

def allMean (s : ProtoAll D) : List Formula → Bool
  | [] => true
  | f :: fs => f.meaning s && allMean s fs

def anyMeans (s : ProtoAll D) : List Formula → Bool
  | [] => false
  | f :: fs => f.meaning s || anyMeans s fs

end

/-! ## What a formula reads -/

/-- A location that can put holds a value of its type. -/
def ProtoAll.HoldsValue (s : ProtoAll D) (loc : LocId) : Prop :=
  ∃ p v, s.getSpacePutter loc = some p ∧ s.heap.read p.ptr = some v ∧
    (p.typeInfo.typeId = boolTypeId → ∃ b, v = .bool b)

def Term.typeIn (s : ProtoAll D) : Term → Option TypeId
  | .boolean _ => some boolTypeId
  | .value loc => (s.getSpacePutter loc).map (·.typeInfo.typeId)

/-- The type of a term has a `PartialEq`. -/
def Term.Comparable (s : ProtoAll D) : Term → Prop
  | .boolean _ => True
  | .value loc => ∀ p, s.getSpacePutter loc = some p → p.typeInfo.funcs.partialEq ≠ .undefined

mutual

/-- The formula declares no function, and every location it reads holds a
value of the type it is read at. -/
def Formula.Readable (s : ProtoAll D) : Formula → Prop
  | .true | .memIsNull _ => True
  | .and fs | .or fs | .none fs => ReadableAll s fs
  | .termVal t => t.Readable s ∧ t.typeIn s = some boolTypeId
  | .valueEq a b => (a.Readable s ∧ b.Readable s) ∧ a.typeIn s = b.typeIn s ∧ a.Comparable s
  | .funcDeclaration _ _ => False

def Term.Readable (s : ProtoAll D) : Term → Prop
  | .boolean f => f.Readable s
  | .value loc => s.HoldsValue loc

def ReadableAll (s : ProtoAll D) : List Formula → Prop
  | [] => True
  | f :: fs => f.Readable s ∧ ReadableAll s fs

end

theorem readableAll_iff (s : ProtoAll D) (fs : List Formula) :
    ReadableAll s fs ↔ ∀ f ∈ fs, f.Readable s := by
  induction fs with
  | nil => simp [ReadableAll]
  | cons f fs ih => rw [ReadableAll, ih, List.forall_mem_cons]

theorem evalTermWithInfo_boolean {s : ProtoAll D} {f : Formula} {b : Bool}
    (hf : evalFormula s f = .ok b) :
    evalTermWithInfo s (.boolean f) = .ok (.constant b, boolTypeId, boolPartialEq) := by
  rw [evalTermWithInfo, hf]
  rfl

theorem evalTermWithInfo_value {s : ProtoAll D} {loc : LocId} {p : PutterSpace D}
    (hp : s.getSpacePutter loc = some p) :
    evalTermWithInfo s (.value loc) =
      .ok (p.ptr, p.typeInfo.typeId, p.typeInfo.funcs.partialEq) := by
  rw [evalTermWithInfo, hp]
  rfl

/-- The comparison function of the left term decides. -/
theorem evalFormula_valueEq_of {s : ProtoAll D} {a b : Term} {τ : TypeId} {p q : Ptr}
    {eq eq' : PartialEqFn D} (ha : evalTermWithInfo s a = .ok (p, τ, eq))
    (hb : evalTermWithInfo s b = .ok (q, τ, eq')) :
    evalFormula s (.valueEq a b) = eq.execute p q s.heap := by
  rw [evalFormula, ha]
  simp only [bind, Except.bind, hb, ne_eq, not_true_eq_false, if_false]

/-- Where a readable term evaluates to a pointer, the pointer leads to a datum. -/
theorem Term.Readable.eval {s : ProtoAll D} {t : Term} (ht : t.Readable s)
    (hbool : ∀ f, t = .boolean f → ∃ b, evalFormula s f = .ok b) :
    ∃ ptr τ eq v, evalTermWithInfo s t = .ok (ptr, τ, eq) ∧ s.heap.read ptr = some v ∧
      t.typeIn s = some τ ∧ (t.Comparable s → eq ≠ .undefined) := by
  cases t with
  | boolean f =>
      obtain ⟨b, hb⟩ := hbool f rfl
      refine ⟨_, _, _, .bool b, evalTermWithInfo_boolean hb, rfl, rfl, ?_⟩
      intro _ h
      cases h
  | value loc =>
      rw [Term.Readable] at ht
      obtain ⟨p, v, hp, hv, -⟩ := ht
      refine ⟨_, _, _, v, evalTermWithInfo_value hp, hv, ?_, fun hc => hc p hp⟩
      rw [Term.typeIn, hp]
      rfl

theorem deref_eq {h : Heap D} {p : Ptr} {v : Datum D} (hv : h.read p = some v) :
    h.deref p = .ok v := by
  rw [Heap.deref, hv]

/-- A location on the left is compared by value, whatever is on the right. -/
theorem execute_byValue {eq : Datum D → Datum D → Bool} {p q : Ptr} {h : Heap D} {x y : Datum D}
    (hx : h.read p = some x) (hy : h.read q = some y) :
    (PartialEqFn.byValue eq).execute p q h = .ok (eq x y) := by
  rw [PartialEqFn.execute, deref_eq hx, deref_eq hy]
  rfl

/-- A readable comparison has an answer. -/
theorem exists_evalFormula_valueEq {s : ProtoAll D} {a b : Term}
    (hr : (Formula.valueEq a b).Readable s)
    (ha : ∀ f, a = .boolean f → ∃ v, evalFormula s f = .ok v)
    (hb : ∀ f, b = .boolean f → ∃ v, evalFormula s f = .ok v) :
    ∃ v, evalFormula s (.valueEq a b) = .ok v := by
  rw [Formula.Readable] at hr
  obtain ⟨⟨hra, hrb⟩, htype, hcomp⟩ := hr
  obtain ⟨p, τ, eq, x, hevala, hx, hτ, heq⟩ := hra.eval ha
  obtain ⟨q, τ', eq', y, hevalb, hy, hτ', -⟩ := hrb.eval hb
  obtain rfl : τ = τ' := by
    rw [hτ, hτ'] at htype
    exact Option.some.inj htype
  have hdef := heq hcomp
  rw [evalFormula_valueEq_of hevala hevalb]
  cases eq with
  | undefined => exact absurd rfl hdef
  | byValue f => exact ⟨f x y, execute_byValue hx hy⟩
  | byAddress => exact ⟨p == q, rfl⟩

/-! ## What is evaluated -/

mutual

/-- The formula with every `And` denied. Comparisons are left alone. -/
def Formula.denyAnds : Formula → Formula
  | .true => .true
  | .and fs => .none [.and (denyAndsAll fs)]
  | .or fs => .or (denyAndsAll fs)
  | .none fs => .none (denyAndsAll fs)
  | .valueEq a b => .valueEq a b
  | .memIsNull loc => .memIsNull loc
  | .termVal t => .termVal t.denyAnds
  | .funcDeclaration name args => .funcDeclaration name args

def Term.denyAnds : Term → Term
  | .boolean f => .boolean f.denyAnds
  | .value loc => .value loc

def denyAndsAll : List Formula → List Formula
  | [] => []
  | f :: fs => f.denyAnds :: denyAndsAll fs

end

mutual

/-- What `eval_formula` returns is the meaning of the formula with its `And`s
denied. -/
theorem evalFormula_eq (s : ProtoAll D) : ∀ f : Formula, f.Readable s →
    evalFormula s f = .ok (f.denyAnds.meaning s)
  | .true, _ => by rw [evalFormula, Formula.denyAnds, Formula.meaning]; rfl
  | .memIsNull loc, _ => by rw [evalFormula, Formula.denyAnds, Formula.meaning]; rfl
  | .and fs, h => by
      rw [Formula.Readable] at h
      rw [evalFormula, evalAll_eq s fs h, Formula.denyAnds, Formula.meaning, anyMeans,
        anyMeans, Formula.meaning, Bool.or_false]
      rfl
  | .or fs, h => by
      rw [Formula.Readable] at h
      rw [evalFormula, evalAny_eq s fs h, Formula.denyAnds, Formula.meaning]
  | .none fs, h => by
      rw [Formula.Readable] at h
      rw [evalFormula, evalAny_eq s fs h, Formula.denyAnds, Formula.meaning]
      rfl
  | .termVal t, h => by
      rw [Formula.Readable] at h
      rw [Formula.denyAnds, Formula.meaning]
      exact evalTermVal_eq s t h.1 h.2
  | .valueEq a b, h => by
      have hr := h
      rw [Formula.Readable] at hr
      obtain ⟨v, hv⟩ := exists_evalFormula_valueEq h (evalBoolean_exists s a hr.1.1)
        (evalBoolean_exists s b hr.1.2)
      rw [Formula.denyAnds, Formula.meaning, hv]
  | .funcDeclaration _ _, h => by
      rw [Formula.Readable] at h
      exact h.elim

theorem evalBoolean_exists (s : ProtoAll D) : ∀ t : Term, t.Readable s →
    ∀ f, t = .boolean f → ∃ b, evalFormula s f = .ok b
  | .boolean g, h, f, hf => by
      cases hf
      rw [Term.Readable] at h
      exact ⟨_, evalFormula_eq s g h⟩
  | .value _, _, _, hf => by cases hf

theorem evalTermVal_eq (s : ProtoAll D) : ∀ t : Term, t.Readable s → t.typeIn s = some boolTypeId →
    evalFormula s (.termVal t) = .ok (t.denyAnds.truth s)
  | .boolean f, h, _ => by
      rw [Term.Readable] at h
      rw [evalFormula, evalTermWithInfo, evalFormula_eq s f h, Term.denyAnds, Term.truth]
      rfl
  | .value loc, h, htype => by
      rw [Term.Readable] at h
      obtain ⟨p, v, hp, hv, hbool⟩ := h
      rw [Term.typeIn, hp] at htype
      have hid : p.typeInfo.typeId = boolTypeId := Option.some.inj htype
      obtain ⟨b, rfl⟩ := hbool hid
      have htruth : s.truthAt loc = b := by
        rw [ProtoAll.truthAt, hp]
        simp only [Option.bind_some, hv]
      rw [evalFormula, evalTermWithInfo, hp, Term.denyAnds, Term.truth, htruth]
      simp only [pure_bind, hid, ne_eq, not_true_eq_false, if_false, deref_eq hv]
      rfl

theorem evalAll_eq (s : ProtoAll D) : ∀ fs : List Formula, ReadableAll s fs →
    evalAll s fs = .ok (allMean s (denyAndsAll fs))
  | [], _ => by rw [evalAll, denyAndsAll, allMean]; rfl
  | f :: fs, h => by
      rw [ReadableAll] at h
      rw [evalAll, evalFormula_eq s f h.1, denyAndsAll, allMean]
      simp only [bind, Except.bind]
      cases f.denyAnds.meaning s with
      | true =>
          rw [Bool.true_and]
          exact evalAll_eq s fs h.2
      | false => rfl

theorem evalAny_eq (s : ProtoAll D) : ∀ fs : List Formula, ReadableAll s fs →
    evalAny s fs = .ok (anyMeans s (denyAndsAll fs))
  | [], _ => by rw [evalAny, denyAndsAll, anyMeans]; rfl
  | f :: fs, h => by
      rw [ReadableAll] at h
      rw [evalAny, evalFormula_eq s f h.1, denyAndsAll, anyMeans]
      simp only [bind, Except.bind]
      cases f.denyAnds.meaning s with
      | true => rfl
      | false =>
          rw [Bool.false_or]
          exact evalAny_eq s fs h.2

end

/-! ## Where `eval_formula` is right -/

/-- One formula occurs in another, itself included. -/
inductive Formula.Within (g : Formula) : Formula → Prop where
  | self : Within g g
  | and {f : Formula} {fs : List Formula} (hf : f ∈ fs) (h : Within g f) : Within g (.and fs)
  | or {f : Formula} {fs : List Formula} (hf : f ∈ fs) (h : Within g f) : Within g (.or fs)
  | none {f : Formula} {fs : List Formula} (hf : f ∈ fs) (h : Within g f) : Within g (.none fs)
  | termVal {f : Formula} (h : Within g f) : Within g (.termVal (.boolean f))
  | left {f : Formula} {b : Term} (h : Within g f) : Within g (.valueEq (.boolean f) b)
  | right {f : Formula} {a : Term} (h : Within g f) : Within g (.valueEq a (.boolean f))

namespace Formula.Within

theorem trans {e f g : Formula} (h : e.Within f) (h' : f.Within g) : e.Within g := by
  induction h' with
  | self => exact h
  | and hf _ ih => exact .and hf ih
  | or hf _ ih => exact .or hf ih
  | none hf _ ih => exact .none hf ih
  | termVal _ ih => exact .termVal ih
  | left _ ih => exact .left ih
  | right _ ih => exact .right ih

theorem readable {s : ProtoAll D} {g f : Formula} (h : g.Within f) (hf : f.Readable s) :
    g.Readable s := by
  induction h with
  | self => exact hf
  | and hmem _ ih | or hmem _ ih | none hmem _ ih =>
      rw [Formula.Readable] at hf
      exact ih ((readableAll_iff s _).1 hf _ hmem)
  | termVal _ ih =>
      rw [Formula.Readable, Term.Readable] at hf
      exact ih hf.1
  | left _ ih =>
      rw [Formula.Readable, Term.Readable] at hf
      exact ih hf.1.1
  | right _ ih =>
      rw [Formula.Readable, Term.Readable.eq_1] at hf
      exact ih hf.1.2

end Formula.Within

/-- Nothing is denied in a formula without `And`. -/
def Formula.WithoutAnd (f : Formula) : Prop := ∀ fs, ¬ (Formula.and fs).Within f

mutual

theorem denyAnds_of_withoutAnd : ∀ f : Formula, f.WithoutAnd → f.denyAnds = f
  | .true, _ => by rw [Formula.denyAnds]
  | .memIsNull _, _ => by rw [Formula.denyAnds]
  | .valueEq _ _, _ => by rw [Formula.denyAnds]
  | .funcDeclaration _ _, _ => by rw [Formula.denyAnds]
  | .and fs, h => absurd .self (h fs)
  | .or fs, h => by
      rw [Formula.denyAnds, denyAndsAll_of_withoutAnd fs fun f hf gs hw => h gs (.or hf hw)]
  | .none fs, h => by
      rw [Formula.denyAnds, denyAndsAll_of_withoutAnd fs fun f hf gs hw => h gs (.none hf hw)]
  | .termVal (.boolean f), h => by
      rw [Formula.denyAnds, Term.denyAnds,
        denyAnds_of_withoutAnd f fun gs hw => h gs (.termVal hw)]
  | .termVal (.value _), _ => by rw [Formula.denyAnds, Term.denyAnds]

theorem denyAndsAll_of_withoutAnd : ∀ fs : List Formula, (∀ f ∈ fs, f.WithoutAnd) →
    denyAndsAll fs = fs
  | [], _ => by rw [denyAndsAll]
  | f :: fs, h => by
      rw [denyAndsAll, denyAnds_of_withoutAnd f (h f List.mem_cons_self),
        denyAndsAll_of_withoutAnd fs fun g hg => h g (List.mem_cons_of_mem f hg)]

end

/-- Members that are all evaluated rightly are conjoined rightly. -/
theorem evalAll_of_right {s : ProtoAll D} : ∀ {fs : List Formula},
    (∀ f ∈ fs, evalFormula s f = .ok (f.meaning s)) → evalAll s fs = .ok (allMean s fs)
  | [], _ => by rw [evalAll, allMean]; rfl
  | f :: fs, h => by
      rw [evalAll, h f List.mem_cons_self, allMean]
      simp only [bind, Except.bind]
      cases f.meaning s with
      | true =>
          rw [Bool.true_and]
          exact evalAll_of_right fun g hg => h g (List.mem_cons_of_mem f hg)
      | false => rfl

/-- An `And` whose members are evaluated rightly is not. -/
theorem evalFormula_and_ne {s : ProtoAll D} {fs : List Formula}
    (h : ∀ f ∈ fs, evalFormula s f = .ok (f.meaning s)) :
    evalFormula s (.and fs) ≠ .ok ((Formula.and fs).meaning s) := by
  rw [evalFormula, evalAll_of_right h, Formula.meaning]
  intro heq
  have hself : (!allMean s fs) = allMean s fs := Except.ok.inj heq
  cases hv : allMean s fs with
  | true | false =>
      rw [hv] at hself
      cases hself

/-- `eval_formula` is right about a formula and all that occurs in it iff no
`And` does; it is right about the formula iff denying its `And`s does not
change what it means. -/
theorem evalFormula_iff_withoutAnd (s : ProtoAll D) (f : Formula) (hread : f.Readable s) :
    ((∀ g : Formula, g.Within f → evalFormula s g = .ok (g.meaning s)) ↔ f.WithoutAnd) ∧
      (evalFormula s f = .ok (f.meaning s) ↔ f.denyAnds.meaning s = f.meaning s) := by
  refine ⟨⟨?_, ?_⟩, ?_⟩
  · intro hright fs hw
    refine evalFormula_and_ne (fun g hg => ?_) (hright _ hw)
    exact hright g (Formula.Within.trans (.and hg .self) hw)
  · intro hnone g hw
    rw [evalFormula_eq s g (hw.readable hread),
      denyAnds_of_withoutAnd g fun fs hfs => hnone fs (hfs.trans hw)]
  · rw [evalFormula_eq s f hread]
    exact ⟨Except.ok.inj, congrArg Except.ok⟩

/-! ## A cell with a boolean in it -/

/-- `bool`'s own `eq`. -/
def boolEq : Datum D → Datum D → Bool
  | .bool a, .bool b => a == b
  | _, _ => false

/-- `TypeInfo::new::<bool>()`. -/
def boolInfo : TypeInfo D where
  typeId := boolTypeId
  isCopy := true
  layout := ⟨1, 1⟩
  funcs := ⟨.undefined, .defined id, .byValue boolEq⟩

/-- One full memory cell, at location 0. -/
def boolCell (b : Bool) : ProtoAll Nat where
  r := ⟨[], [.memo (.new (.store 0) boolInfo)]⟩
  w := {
    memoryBits := ((∅ : BitSet).setTo 0 true).1
    active := {
      ready := ((∅ : BitSet).setTo 0 true).1
      storage := ⟨∅, .singleton (.store 0) boolTypeId, .singleton boolTypeId boolInfo⟩
      memRefs := .singleton (.store 0) 1 }
    commitment := none
    readyTentative := ∅
    awaitingStates := []
    unclaimedPorts := ∅ }
  heap := { (Heap.empty : Heap Nat).write (.store 0) (some (.bool b)) with
    allocs := 1, live := [0] }

theorem boolCell_holdsValue (b : Bool) : (boolCell b).HoldsValue 0 :=
  ⟨_, .bool b, rfl, rfl, fun _ => ⟨b, rfl⟩⟩

/-- Without `And` the guard that the cell holds true or is empty is decided
rightly. -/
theorem evalFormula_boolCell :
    evalFormula (boolCell true) (.or [.termVal (.value 0), .memIsNull 0]) =
      .ok ((Formula.or [.termVal (.value 0), .memIsNull 0]).meaning (boolCell true)) := by
  refine (evalFormula_iff_withoutAnd (boolCell true) _ ?_).2.2 ?_
  · simp only [Formula.Readable, ReadableAll, Term.Readable, and_true]
    exact ⟨boolCell_holdsValue true, rfl⟩
  · simp only [Formula.denyAnds, denyAndsAll, Term.denyAnds]

/-- A guard that asks for two things is taken to ask that they do not both
hold. -/
theorem not_evalFormula_and :
    (Formula.and [.true, .termVal (.value 0)]).Readable (boolCell true) ∧
      evalFormula (boolCell true) (.and [.true, .termVal (.value 0)]) ≠
        .ok ((Formula.and [.true, .termVal (.value 0)]).meaning (boolCell true)) := by
  constructor
  · simp only [Formula.Readable, ReadableAll, Term.Readable, and_true, true_and]
    exact ⟨boolCell_holdsValue true, rfl⟩
  · have hcell : evalFormula (boolCell true) (.termVal (.value 0)) = .ok true := by
      rw [evalFormula, evalTermWithInfo]
      rfl
    have hmeans : (Formula.termVal (.value 0)).meaning (boolCell true) = true := by
      rw [Formula.meaning, Term.truth]
      rfl
    refine evalFormula_and_ne fun f hf => ?_
    simp only [List.mem_cons, List.not_mem_nil, or_false] at hf
    rcases hf with rfl | rfl
    · rw [evalFormula, Formula.meaning]
      rfl
    · rw [hcell, hmeans]

/-! ## Comparisons -/

/-- The value a term of a type stands for. For a `Term::Boolean` it is what
`eval_formula` computes. The data of locations are not where the two constants
are. -/
inductive Term.Denotes (s : ProtoAll D) (τ : TypeId) : Term → Datum D → Prop where
  | boolean {f : Formula} {b : Bool} (hτ : τ = boolTypeId) (hf : evalFormula s f = .ok b) :
      Denotes s τ (.boolean f) (.bool b)
  | value {loc : LocId} {p : PutterSpace D} {v : Datum D} (hp : s.getSpacePutter loc = some p)
      (hτ : p.typeInfo.typeId = τ) (hv : s.heap.read p.ptr = some v)
      (hbool : τ = boolTypeId → ∃ b, v = .bool b)
      (hapart : ∀ b, p.ptr ≠ .constant b) : Denotes s τ (.value loc) v

/-- `eq` is the `PartialEq` of a type. The descriptors of the type were
generated from it, unless they are `BOOL_TYPE_INFO`, which is public. -/
structure ComparedBy (s : ProtoAll D) (τ : TypeId) (eq : Datum D → Datum D → Bool) : Prop where
  described : ∀ loc p, s.getSpacePutter loc = some p → p.typeInfo.typeId = τ →
    p.typeInfo.funcs.partialEq = .byValue eq ∨
      (τ = boolTypeId ∧ p.typeInfo.funcs.partialEq = boolPartialEq)
  bools : τ = boolTypeId → ∀ x y, eq (.bool x) (.bool y) = (x == y)

theorem Term.Denotes.bool {s : ProtoAll D} {t : Term} {τ : TypeId} {x : Datum D}
    (ht : t.Denotes s τ x) (hτ : τ = boolTypeId) : ∃ b, x = .bool b := by
  cases ht with
  | boolean _ _ => exact ⟨_, rfl⟩
  | value _ _ _ hbool _ => exact hbool hτ

theorem ComparedBy.comm {s : ProtoAll D} {τ : TypeId} {eq : Datum D → Datum D → Bool}
    (heq : ComparedBy s τ eq) (hτ : τ = boolTypeId) {a b : Term} {x y : Datum D}
    (ha : a.Denotes s τ x) (hb : b.Denotes s τ y) : eq x y = eq y x := by
  obtain ⟨v, rfl⟩ := ha.bool hτ
  obtain ⟨w, rfl⟩ := hb.bool hτ
  rw [heq.bools hτ, heq.bools hτ]
  exact BEq.comm

def Term.isBoolean : Term → Bool
  | .boolean _ => true
  | .value _ => false

@[simp] theorem Term.isBoolean_boolean (f : Formula) : (Term.boolean f).isBoolean = true := rfl

def PartialEqFn.isByAddress : PartialEqFn D → Bool
  | .byAddress => true
  | .undefined | .byValue _ => false

/-- The term comes with a descriptor that compares addresses: it is a
`Term::Boolean`, or a location described by `BOOL_TYPE_INFO`. -/
def Term.byAddress (s : ProtoAll D) : Term → Bool
  | .boolean _ => true
  | .value loc => (s.getSpacePutter loc).any fun p => p.typeInfo.funcs.partialEq.isByAddress

/-- Two formulas, which share the constants, or two locations whose pointers
lead to one datum. -/
def Term.shares (s : ProtoAll D) : Term → Term → Bool
  | .boolean _, .boolean _ => true
  | .value l, .value m => (s.getSpacePutter l).map (·.ptr) == (s.getSpacePutter m).map (·.ptr)
  | .boolean _, .value _ | .value _, .boolean _ => false

theorem Term.shares_comm (s : ProtoAll D) (a b : Term) : a.shares s b = b.shares s a := by
  cases a with
  | boolean f => cases b <;> rfl
  | value l =>
      cases b with
      | boolean f => rfl
      | value m => exact BEq.comm

theorem Term.shares_of_ne {s : ProtoAll D} {a b : Term} (h : a.isBoolean ≠ b.isBoolean) :
    a.shares s b = false := by
  cases a <;> cases b <;> first | rfl | exact absurd rfl h

theorem Term.byAddress_of_isBoolean {s : ProtoAll D} {a : Term} (h : a.isBoolean = true) :
    a.byAddress s = true := by
  cases a with
  | boolean f => rfl
  | value l => cases h

/-- A term that stands for a value is of a type that is compared by value or by
address, by its own descriptor. -/
theorem Term.Denotes.eval {s : ProtoAll D} {t : Term} {τ : TypeId} {x : Datum D}
    {eq : Datum D → Datum D → Bool} (ht : t.Denotes s τ x) (heq : ComparedBy s τ eq) :
    ∃ ptr, s.heap.read ptr = some x ∧
      evalTermWithInfo s t =
        .ok (ptr, τ, if t.byAddress s then boolPartialEq else .byValue eq) ∧
      (t.byAddress s = true → τ = boolTypeId) := by
  cases ht with
  | @boolean f b hτ hf =>
      refine ⟨.constant b, rfl, ?_, fun _ => hτ⟩
      rw [hτ]
      exact evalTermWithInfo_boolean hf
  | @value loc p v hp hτ hv _ _ =>
      refine ⟨_, hv, ?_⟩
      rw [evalTermWithInfo_value hp, hτ, Term.byAddress, hp, Option.any_some]
      rcases heq.described _ _ hp hτ with h | ⟨hbool, h⟩
      · rw [h]
        exact ⟨rfl, fun h => by cases h⟩
      · rw [h]
        exact ⟨rfl, fun _ => hbool⟩

theorem Term.Denotes.isBool {s : ProtoAll D} {t : Term} {τ : TypeId} {x : Datum D}
    {eq : Datum D → Datum D → Bool} (ht : t.Denotes s τ x) (heq : ComparedBy s τ eq)
    (haddr : t.byAddress s = true) : τ = boolTypeId := by
  obtain ⟨_, -, -, hbool⟩ := ht.eval heq
  exact hbool haddr

/-- Pointers of two terms are equal iff they share a datum, or are formulas of
one truth value. -/
theorem Term.Denotes.ptr_eq_iff {s : ProtoAll D} {a b : Term} {τ : TypeId} {x y : Datum D}
    (ha : a.Denotes s τ x) (hb : b.Denotes s τ y) {p q : Ptr} {i j : TypeId}
    {eq eq' : PartialEqFn D} (hp : evalTermWithInfo s a = .ok (p, i, eq))
    (hq : evalTermWithInfo s b = .ok (q, j, eq')) :
    p = q ↔ a.shares s b = true ∧ x = y := by
  cases ha with
  | boolean _ hf =>
      cases (evalTermWithInfo_boolean hf).symm.trans hp
      cases hb with
      | boolean _ hf' =>
          cases (evalTermWithInfo_boolean hf').symm.trans hq
          simp [Term.shares]
      | value hget' _ _ _ hapart =>
          cases (evalTermWithInfo_value hget').symm.trans hq
          simp [Term.shares, (hapart _).symm]
  | value hget _ hv _ hapart =>
      cases (evalTermWithInfo_value hget).symm.trans hp
      cases hb with
      | boolean _ hf' =>
          cases (evalTermWithInfo_boolean hf').symm.trans hq
          simp [Term.shares, hapart]
      | value hget' _ hv' _ _ =>
          cases (evalTermWithInfo_value hget').symm.trans hq
          simp only [Term.shares, hget, hget', Option.map_some, beq_iff_eq, Option.some.injEq]
          constructor
          · intro h
            rw [h, hv'] at hv
            exact ⟨h, (Option.some.inj hv).symm⟩
          · exact And.left

/-- What a comparison evaluates to: where the left term is compared by address
and the right one is not at its address, it is false whatever they hold. -/
theorem evalFormula_valueEq {s : ProtoAll D} {a b : Term} {τ : TypeId} {x y : Datum D}
    {eq : Datum D → Datum D → Bool} (ha : a.Denotes s τ x) (hb : b.Denotes s τ y)
    (heq : ComparedBy s τ eq) :
    evalFormula s (.valueEq a b) =
      .ok (if a.byAddress s && !a.shares s b then false else eq x y) := by
  obtain ⟨p, hx, hleft, hbool⟩ := ha.eval heq
  obtain ⟨q, hy, hright, -⟩ := hb.eval heq
  have hptr := ha.ptr_eq_iff hb hleft hright
  rw [evalFormula_valueEq_of hleft hright]
  cases haddr : a.byAddress s with
  | false => exact execute_byValue hx hy
  | true =>
      obtain ⟨v, rfl⟩ := ha.bool (hbool haddr)
      obtain ⟨w, rfl⟩ := hb.bool (hbool haddr)
      rw [heq.bools (hbool haddr)]
      have hpq : (p == q) = (a.shares s b && v == w) := by
        rw [Bool.eq_iff_iff]
        simpa using hptr
      show Except.ok (p == q) = _
      rw [hpq]
      cases a.shares s b <;> rfl

/-- A comparison, the comparison turned round, and the comparison with a
boolean location replaced by a formula, on the left and on the right. -/
theorem evalFormula_valueEq_iff {s : ProtoAll D} {a b : Term} {τ : TypeId} {x y : Datum D}
    {eq : Datum D → Datum D → Bool} (ha : a.Denotes s τ x) (hb : b.Denotes s τ y)
    (heq : ComparedBy s τ eq) :
    (evalFormula s (.valueEq a b) = .ok (eq x y) ↔
        ¬ (a.byAddress s = true ∧ a.shares s b = false ∧ eq x y = true)) ∧
      (evalFormula s (.valueEq a b) = evalFormula s (.valueEq b a) ↔
        eq x y = eq y x ∧
          ¬ (a.byAddress s ≠ b.byAddress s ∧ a.shares s b = false ∧ eq x y = true)) ∧
      (a.isBoolean = false → ∀ f, (Term.boolean f).Denotes s τ x →
        (evalFormula s (.valueEq (.boolean f) b) = evalFormula s (.valueEq a b) ↔
          ¬ (eq x y = true ∧
            ((b.isBoolean = true ∧ a.byAddress s = true) ∨
              (b.isBoolean = false ∧ (a.byAddress s = true → a.shares s b = true)))))) ∧
      (b.isBoolean = false → ∀ f, (Term.boolean f).Denotes s τ y →
        (evalFormula s (.valueEq a (.boolean f)) = evalFormula s (.valueEq a b) ↔
          ¬ (a.byAddress s = true ∧ (a.isBoolean = true ∨ a.shares s b = true) ∧
            eq x y = true))) := by
  have hleft := evalFormula_valueEq ha hb heq
  refine ⟨?_, ?_, ?_, ?_⟩
  · rw [hleft]
    cases a.byAddress s <;> cases a.shares s b <;> cases eq x y <;> simp
  · rw [hleft, evalFormula_valueEq hb ha heq, b.shares_comm s a]
    have hcomm : a.byAddress s = true ∨ b.byAddress s = true → eq x y = eq y x := by
      rintro (h | h)
      · exact heq.comm (ha.isBool heq h) ha hb
      · exact heq.comm (hb.isBool heq h) ha hb
    cases hA : a.byAddress s <;> cases hB : b.byAddress s <;> cases a.shares s b <;>
      simp [hA, hB] at hcomm ⊢ <;> grind
  · intro hloc f hf
    rw [hleft, evalFormula_valueEq hf hb heq, Term.byAddress]
    cases hboolean : b.isBoolean with
    | true =>
        rw [Term.shares_of_ne (a := a) (by simp [hloc, hboolean])]
        cases b with
        | boolean g => cases a.byAddress s <;> cases eq x y <;> simp [Term.shares]
        | value l => cases hboolean
    | false =>
        have hne : (Term.boolean f).isBoolean ≠ b.isBoolean := by simp [hboolean]
        rw [Term.shares_of_ne hne]
        cases a.byAddress s <;> cases a.shares s b <;> cases eq x y <;> simp
  · intro hloc f hf
    rw [hleft, evalFormula_valueEq ha hf heq]
    cases hboolean : a.isBoolean with
    | true =>
        rw [Term.shares_of_ne (b := b) (by simp [hloc, hboolean]),
          Term.byAddress_of_isBoolean hboolean]
        cases a with
        | boolean g => cases eq x y <;> simp [Term.shares]
        | value l => cases hboolean
    | false =>
        have hne : a.isBoolean ≠ (Term.boolean f).isBoolean := by simp [hboolean]
        rw [Term.shares_of_ne hne]
        cases a.byAddress s <;> cases a.shares s b <;> cases eq x y <;> simp

theorem boolCell_denotes (b : Bool) : (Term.value 0).Denotes (boolCell b) boolTypeId (.bool b) :=
  .value (s := boolCell b) rfl rfl rfl (fun _ => ⟨b, rfl⟩) fun _ h => by cases h

theorem boolCell_true (b : Bool) :
    (Term.boolean .true).Denotes (boolCell b) boolTypeId (.bool true) :=
  .boolean rfl (by rw [evalFormula]; rfl)

theorem boolCell_comparedBy (b : Bool) : ComparedBy (boolCell b) boolTypeId boolEq where
  described := by
    intro loc p hp _
    cases loc with
    | zero =>
        cases hp
        exact .inl rfl
    | succ n => cases hp
  bools := fun _ _ _ => rfl

/-- The cell on the left is compared with the constant on the right. -/
theorem evalFormula_valueEq_boolCell :
    evalFormula (boolCell true) (.valueEq (.value 0) (.boolean .true)) = .ok true :=
  (evalFormula_valueEq_iff (boolCell_denotes true) (boolCell_true true)
    (boolCell_comparedBy true)).1.2 (by rintro ⟨h, -⟩; cases h)

/-- The other way round a cell that holds true is not equal to true. -/
theorem not_evalFormula_valueEq :
    (Term.boolean .true).Denotes (boolCell true) boolTypeId (.bool true) ∧
      (Term.value 0).Denotes (boolCell true) boolTypeId (.bool true) ∧
      evalFormula (boolCell true) (.valueEq (.boolean .true) (.value 0)) = .ok false :=
  ⟨boolCell_true true, boolCell_denotes true,
    evalFormula_valueEq (boolCell_true true) (boolCell_denotes true) (boolCell_comparedBy true)⟩

end ReoRs
