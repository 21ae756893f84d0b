import ReoRs.Lib.Renaming
import ReoRs.Proofs.Sound
import ReoRs.Proofs.Trades
import Mathlib.Algebra.BigOperators.Group.Finset.Basic
import Mathlib.Tactic.Abel

/-!
# A rule as one step

A rule is performed action by action, and is meant as one step. What the step
does to the cells can be said without an order: a cell that is a getter has
afterwards what the putter had, one that gives and lends to no port has
nothing, and every other cell has what it had. `slotAfter` says so of slots
that do not have addresses yet. What was in a cell is named by the address it
has; what comes from a port has a name still to be given.

`Settled` ties a state to it. There is an address for every port that stores,
no two things in the cells have one address, what is at the addresses is what
it should be, and what has been dropped is what is missing. Each action leaves
the state settled for the actions so far.
-/

namespace ReoRs

variable {D : Type}

open ProtoAll

/-! ## The step -/

/-- What a cell may hold after a rule: a slot there was, or the one that what
a port gives is put in. -/
inductive Slot where
  | old (q : Ptr)
  | new (p : LocId)
  deriving DecidableEq, Repr

def Slot.name (dest : LocId → Ptr) : Slot → Ptr
  | .old q => q
  | .new p => dest p

/-- What an action gives to its cells. -/
def RunAction.source (s : ProtoAll D) (a : RunAction) : Slot :=
  match s.held a.putter with
  | some q => .old q
  | none => .new a.putter

/-- What a cell holds after the actions, all at once. -/
def slotAfter (s : ProtoAll D) (acts : List RunAction) (l : LocId) : Option Slot :=
  match acts.find? (fun a => decide (l ∈ a.mg)) with
  | some a => some (a.source s)
  | none =>
      if acts.any (fun a => a.putter == l && a.pg.isEmpty) then none else (s.held l).map .old

/-- What a port's datum is stored as: itself, or a clone if others want it
too. -/
def storedDatum (info : TypeInfo D) (v : Datum D) (getters : Nat) : Option (Datum D) :=
  match getters, info.funcs.clone with
  | 0, _ => some v
  | _ + 1, .defined f => some (f v)
  | _ + 1, .undefined => none

theorem storedDatum_eq_some {info : TypeInfo D} {v w : Datum D} {n : Nat} :
    storedDatum info v n = some w ↔ StoredValue info v n w := by
  cases n with
  | zero => exact ⟨fun h => (Option.some.inj h).symm, fun h => congrArg some (Eq.symm h)⟩
  | succ n =>
      show _ ↔ ∃ f, info.funcs.clone = .defined f ∧ w = f v
      unfold storedDatum
      cases info.funcs.clone with
      | undefined => simp
      | defined f => simp [eq_comm]

/-- What the action stores, with the descriptor it is dropped by. -/
def RunAction.stores (s : ProtoAll D) (a : RunAction) : Option (TypeInfo D × Datum D) :=
  match s.getSpace a.putter with
  | some (.poPu sp _) =>
      if a.mg = [] then none
      else (s.heap.read sp.ptr).bind fun v =>
        (storedDatum sp.typeInfo v a.pg.length).map (sp.typeInfo, ·)
  | _ => none

/-! ## Order does not matter here -/

section Perm

variable {s : ProtoAll D} {acts acts' : List RunAction} {a : RunAction} {l : LocId}

theorem mem_of_find (h : acts.find? (fun a => decide (l ∈ a.mg)) = some a) :
    a ∈ acts ∧ l ∈ a.mg := by
  have hl := List.find?_some h
  exact ⟨List.mem_of_find?_eq_some h, of_decide_eq_true hl⟩

theorem slotAfter_of_mem (h : acts.Pairwise RunAction.Apart) (ha : a ∈ acts) (hl : l ∈ a.mg) :
    slotAfter s acts l = some (a.source s) := by
  rw [slotAfter]
  cases hfind : acts.find? (fun a => decide (l ∈ a.mg)) with
  | none => exact absurd (decide_eq_true hl) (List.find?_eq_none.1 hfind a ha)
  | some b =>
      obtain ⟨hb, hlb⟩ := mem_of_find hfind
      rw [RunAction.eq_of_mentions h ha hb (.inr (.inl hl)) (.inr (.inl hlb))]

theorem slotAfter_of_notMem (h : ∀ a ∈ acts, l ∉ a.mg) : slotAfter s acts l =
    if ∃ a ∈ acts, a.putter = l ∧ a.pg = [] then none else (s.held l).map .old := by
  have hfind : acts.find? (fun a => decide (l ∈ a.mg)) = none :=
    List.find?_eq_none.2 fun a ha hl => h a ha (of_decide_eq_true hl)
  have hany : (acts.any (fun a => a.putter == l && a.pg.isEmpty) = true) ↔
      ∃ a ∈ acts, a.putter = l ∧ a.pg = [] := by
    simp only [List.any_eq_true, Bool.and_eq_true, beq_iff_eq, List.isEmpty_iff]
  rw [slotAfter, hfind]
  exact if_congr hany rfl rfl

theorem slotAfter_perm (hperm : acts'.Perm acts) (h : acts.Pairwise RunAction.Apart) (l : LocId) :
    slotAfter s acts' l = slotAfter s acts l := by
  have h' : acts'.Pairwise RunAction.Apart :=
    hperm.symm.pairwise h fun hxy l hl => hxy l ⟨hl.2, hl.1⟩
  by_cases hl : ∃ a ∈ acts, l ∈ a.mg
  · obtain ⟨a, ha, hla⟩ := hl
    rw [slotAfter_of_mem h ha hla, slotAfter_of_mem h' (hperm.mem_iff.2 ha) hla]
  · have hno : ∀ a ∈ acts, l ∉ a.mg := fun a ha hla => hl ⟨a, ha, hla⟩
    rw [slotAfter_of_notMem hno, slotAfter_of_notMem fun a ha => hno a (hperm.mem_iff.1 ha)]
    refine if_congr ?_ rfl rfl
    exact exists_congr fun a => and_congr_left fun _ => hperm.mem_iff

/-- One action more. -/
theorem slotAfter_snoc (h : ∀ b ∈ acts, b.Apart a) (l : LocId) : slotAfter s (acts ++ [a]) l =
    if l ∈ a.mg then some (a.source s)
    else if l = a.putter ∧ a.pg = [] then none else slotAfter s acts l := by
  have hnot : a.Mentions l → ∀ b ∈ acts, l ∉ b.mg :=
    fun hl b hb hlb => h b hb l ⟨.inr (.inl hlb), hl⟩
  by_cases hmg : l ∈ a.mg
  · have hfind : acts.find? (fun a => decide (l ∈ a.mg)) = none :=
      List.find?_eq_none.2 fun b hb hlb => hnot (.inr (.inl hmg)) b hb (of_decide_eq_true hlb)
    rw [if_pos hmg, slotAfter, List.find?_append, hfind, Option.none_or, List.find?_singleton,
      if_pos (decide_eq_true hmg)]
  · rw [if_neg hmg]
    by_cases hin : ∃ b ∈ acts, l ∈ b.mg
    · obtain ⟨b, hb, hlb⟩ := hin
      have hput : ¬ (l = a.putter ∧ a.pg = []) := fun hcon => hnot (.inl hcon.1) b hb hlb
      rw [if_neg hput, slotAfter, slotAfter, List.find?_append]
      cases hfind : acts.find? (fun a => decide (l ∈ a.mg)) with
      | none => exact absurd (decide_eq_true hlb) (List.find?_eq_none.1 hfind b hb)
      | some c => rw [Option.some_or]
    · have hno : ∀ b ∈ acts, l ∉ b.mg := fun b hb hlb => hin ⟨b, hb, hlb⟩
      have hno' : ∀ b ∈ acts ++ [a], l ∉ b.mg := by
        intro b hb
        rcases List.mem_append.1 hb with hb | hb
        · exact hno b hb
        · rw [List.mem_singleton.1 hb]
          exact hmg
      rw [slotAfter_of_notMem hno', slotAfter_of_notMem hno]
      by_cases hput : l = a.putter ∧ a.pg = []
      · rw [if_pos hput, if_pos ⟨a, by simp, hput.1.symm, hput.2⟩]
      · rw [if_neg hput]
        refine if_congr ⟨?_, ?_⟩ rfl rfl
        · rintro ⟨b, hb, hbl⟩
          rcases List.mem_append.1 hb with hb | hb
          · exact ⟨b, hb, hbl⟩
          · rw [List.mem_singleton.1 hb] at hbl
            exact absurd ⟨hbl.1.symm, hbl.2⟩ hput
        · rintro ⟨b, hb, hbl⟩
          exact ⟨b, List.mem_append_left _ hb, hbl⟩

/-- Only a port that is a putter gives something new. -/
theorem putter_of_new {p : LocId} (h : slotAfter s acts l = some (.new p)) :
    ∃ a ∈ acts, a.putter = p ∧ l ∈ a.mg ∧ s.held p = none := by
  rw [slotAfter] at h
  split at h
  · next a hfind =>
      rw [RunAction.source] at h
      split at h
      · cases h
      · next hheld =>
          cases h
          obtain ⟨ha, hl⟩ := mem_of_find hfind
          exact ⟨a, ha, rfl, hl, hheld⟩
  · split at h
    · cases h
    · obtain ⟨q, -, hq⟩ := Option.map_eq_some_iff.1 h
      cases hq

end Perm

/-! ## The slots an action leaves in the cells -/

section Performed

variable {s t u : ProtoAll D} {a : RunAction} {kind : SourceKind} {sp : PutterSpace D}
  {v : Datum D} {l : LocId}

theorem ActionReady.held_putter_of_port (ha : ActionReady s a .port sp v) :
    s.held a.putter = none := by
  cases hheld : s.held a.putter with
  | none => rfl
  | some q =>
      obtain ⟨-, p, hp, -⟩ := held_memo_iff.1 hheld
      cases (show s.getSpace a.putter = _ from ha.putter.1).symm.trans hp

/-- The pointers of the cells, when `dest` is what the getter cells get. -/
structure Repointed (t : ProtoAll D) (a : RunAction) (kind : SourceKind) (dest : Ptr)
    (u : ProtoAll D) : Prop where
  notNull : dest ≠ .null
  getter : ∀ l ∈ a.mg, u.cell l = (t.cell l).map fun c => (dest, c.2)
  putter : kind = .memory → a.pg = [] →
    u.cell a.putter = (t.cell a.putter).map fun c => (.null, c.2)
  other : ∀ l, l ∉ a.mg → ¬ (l = a.putter ∧ kind = .memory ∧ a.pg = []) → u.cell l = t.cell l

theorem Performed.repointed (ha : ActionReady t a kind sp v) (h : Performed t a kind sp v u) :
    ∃ dest, Repointed t a kind dest u ∧ (kind = .memory → dest = sp.ptr) ∧
      (kind = .port → ∀ l, t.held l ≠ some dest) := by
  obtain ⟨dest, w, hdest, -, hcells, -, hmem, hnew⟩ := h.cells
  obtain ⟨d, hput, -⟩ := h.putter
  refine ⟨dest, ⟨hdest, ?_, ?_, ?_⟩, fun hk => (hmem hk).2, hnew⟩
  · intro l hl
    obtain ⟨gp, hgp, hgu⟩ := hcells l hl
    rw [cell_eq_some.2 ⟨_, hgu, rfl, rfl⟩, cell_eq_some.2 ⟨_, hgp, rfl, rfl⟩]
    rfl
  · rintro rfl hpg
    have hsp : t.getSpace a.putter = some (.memo sp) := ha.putter.1
    rw [RunAction.putterAfter, hpg] at hput
    rw [cell_eq_some.2 ⟨_, hput, rfl, rfl⟩, cell_eq_some.2 ⟨_, hsp, rfl, rfl⟩]
    rfl
  · intro l hmg hnot
    by_cases hpg : l ∈ a.pg
    · rw [ProtoAll.cell, ProtoAll.cell, getMePu, getMePu, h.getters l hpg, ha.getters l hpg]
    · by_cases hl : l = a.putter
      · subst hl
        have hsp := ha.putter
        cases kind with
        | port =>
            rw [RunAction.putterAfter] at hput
            rw [ProtoAll.cell, ProtoAll.cell, getMePu, getMePu, hput, hsp.1]
            cases a.pg.isEmpty <;> rfl
        | memory =>
            have hne : a.pg.isEmpty = false := by
              cases hpg' : a.pg with
              | nil => exact absurd ⟨rfl, rfl, hpg'⟩ hnot
              | cons g gs => rfl
            rw [RunAction.putterAfter, hne] at hput
            rw [cell_eq_some.2 ⟨_, hput, rfl, rfl⟩, cell_eq_some.2 ⟨_, hsp.1, rfl, rfl⟩]
            rfl
      · exact cell_congr (h.others l hl hmg hpg)

theorem Repointed.held (ha : ActionReady t a kind sp v) {dest : Ptr}
    (h : Repointed t a kind dest u) (l : LocId) : u.held l =
      if l ∈ a.mg then some dest
      else if l = a.putter ∧ kind = .memory ∧ a.pg = [] then none else t.held l := by
  by_cases hmg : l ∈ a.mg
  · rw [if_pos hmg, ProtoAll.held, h.getter l hmg, (ha.cells l hmg).cell]
    exact if_neg h.notNull
  · rw [if_neg hmg]
    by_cases hput : l = a.putter ∧ kind = .memory ∧ a.pg = []
    · obtain ⟨rfl, hk, hpg⟩ := hput
      rw [if_pos ⟨rfl, hk, hpg⟩, ProtoAll.held, h.putter hk hpg]
      cases t.cell a.putter <;> rfl
    · rw [if_neg hput]
      exact held_congr (h.other l hmg hput)

end Performed

/-! ## What is in the slots -/

/-- Cells say of a slot what the storage does, and a type has one
descriptor. -/
structure Typed (infos : HashMap TypeId (TypeInfo D)) (s : ProtoAll D) : Prop where
  info : ∀ l q info, s.cell l = some (q, info) → infos.lookup info.typeId = some info
  owned : ∀ l q info, s.cell l = some (q, info) → q ≠ .null →
    s.w.active.storage.owned.lookup q = some info.typeId

/-- What is dropped of a slot when it is freed. -/
def worth (infos : HashMap TypeId (TypeInfo D)) (m : Mem D) (q : Ptr) : Multiset (Datum D) :=
  match (m.storage.owned.lookup q).bind infos.lookup, m.heap.read q with
  | some info, some v => (Storage.drops info.funcs.drop v : Multiset (Datum D))
  | _, _ => 0

/-- What is yet to be dropped. -/
def stock (infos : HashMap TypeId (TypeInfo D)) (m : Mem D) : Multiset (Datum D) :=
  ∑ q ∈ m.storage.owned.keys.toFinset, worth infos m q

/-- What an action adds to it. -/
def RunAction.income (s : ProtoAll D) (a : RunAction) : Multiset (Datum D) :=
  match a.stores s with
  | some (info, w) => (Storage.drops info.funcs.drop w : Multiset (Datum D))
  | none => 0

section Worth

variable {infos : HashMap TypeId (TypeInfo D)} {m m' : Mem D} {q : Ptr}

theorem worth_congr (hlookup : m'.storage.owned.lookup q = m.storage.owned.lookup q)
    (hread : m'.heap.read q = m.heap.read q) : worth infos m' q = worth infos m q := by
  rw [worth, worth, hlookup, hread]

theorem worth_eq {info : TypeInfo D} {v : Datum D}
    (hlookup : m.storage.owned.lookup q = some info.typeId)
    (hinfo : infos.lookup info.typeId = some info) (hread : m.heap.read q = some v) :
    worth infos m q = (Storage.drops info.funcs.drop v : Multiset (Datum D)) := by
  rw [worth, hlookup, Option.bind_some, hinfo, hread]

theorem mem_ownedKeys : q ∈ m.storage.owned.keys.toFinset ↔ q ∈ m.storage.owned := by
  rw [List.mem_toFinset, AList.mem_keys]

end Worth

/-! ## One action -/

section Step

variable {infos : HashMap TypeId (TypeInfo D)} {s t u : ProtoAll D} {a : RunAction}
  {kind : SourceKind} {sp : PutterSpace D} {v w : Datum D} {dest : Ptr}

theorem ActionReady.stores_memory (ha : ActionReady s a .memory sp v) : a.stores s = none := by
  rw [RunAction.stores, show s.getSpace a.putter = _ from ha.putter.1]

theorem ActionReady.stores_nil (ha : ActionReady s a kind sp v) (hnil : a.mg = []) :
    a.stores s = none := by
  cases kind with
  | memory => exact ha.stores_memory
  | port =>
      rw [RunAction.stores, show s.getSpace a.putter = _ from ha.putter.1]
      exact if_pos hnil

theorem ActionReady.stores_port (ha : ActionReady s a .port sp v) (hne : a.mg ≠ [])
    (hw : StoredValue sp.typeInfo v a.pg.length w) : a.stores s = some (sp.typeInfo, w) := by
  rw [RunAction.stores, show s.getSpace a.putter = _ from ha.putter.1]
  dsimp only
  rw [if_neg hne, ha.value, Option.bind_some, storedDatum_eq_some.2 hw, Option.map_some]

/-- The slot that was allocated is the one the cells have. -/
theorem Repointed.dest_eq {d : Ptr} {τ : TypeId} (hrep : Repointed t a kind d u)
    (ha : ActionReady t a kind sp v) (ht : Coherent t) (hu : Coherent u)
    (howned : u.w.active.storage.owned = t.w.active.storage.owned.insert dest τ)
    (hfresh : dest ∉ t.w.active.storage.owned) : dest = d := by
  have hmem : dest ∈ u.w.active.storage.owned := by
    rw [howned]
    exact (AList.mem_insert _).2 (.inl rfl)
  obtain ⟨l, hl⟩ := (hu.owned dest).1 hmem
  rw [hrep.held ha] at hl
  split at hl
  · exact (Option.some.inj hl).symm
  · split at hl
    · cases hl
    · exact absurd ((ht.owned dest).2 ⟨l, hl⟩) hfresh

/-- What is owned before and after is owned as the same. -/
theorem Trade.lookup_eq {m m' : Mem D} (h : Trade a kind sp v m m') {q : Ptr}
    (hq : q ∈ m.storage.owned) (hq' : q ∈ m'.storage.owned) :
    m'.storage.owned.lookup q = m.storage.owned.lookup q := by
  cases h with
  | nothing _ hsame => rw [hsame]
  | stored _ _ _ hfresh howned _ _ _ =>
      rw [howned]
      exact AList.lookup_insert_ne fun heq => hfresh (heq ▸ hq)
  | freed _ howned _ _ =>
      rw [howned] at hq' ⊢
      exact AList.lookup_erase_ne (AList.mem_erase.1 hq').1

theorem Repointed.cell_info (hrep : Repointed t a kind dest u) {l : LocId} {q : Ptr}
    {info : TypeInfo D} (hc : u.cell l = some (q, info)) : ∃ q', t.cell l = some (q', info) := by
  have hmap : ∀ {x : Ptr}, u.cell l = (t.cell l).map (fun c => (x, c.2)) →
      ∃ q', t.cell l = some (q', info) := by
    intro x h
    rw [hc] at h
    obtain ⟨c, hc', heq⟩ := Option.map_eq_some_iff.1 h.symm
    cases heq
    exact ⟨c.1, hc'⟩
  by_cases hmg : l ∈ a.mg
  · exact hmap (hrep.getter l hmg)
  · by_cases hput : l = a.putter ∧ kind = .memory ∧ a.pg = []
    · obtain ⟨rfl, hk, hpg⟩ := hput
      exact hmap (hrep.putter hk hpg)
    · exact ⟨q, (hrep.other l hmg hput).symm.trans hc⟩

theorem Typed.step (ha : ActionReady t a kind sp v) (ht : Coherent t) (hu : Coherent u)
    (hrep : Repointed t a kind dest u) (hdest : kind = .memory → dest = sp.ptr)
    (htrade : Trade a kind sp v t.mem u.mem) (h : Typed infos t) : Typed infos u := by
  constructor
  · intro l q info hc
    obtain ⟨q', hc'⟩ := hrep.cell_info hc
    exact h.info l q' info hc'
  · intro l q info hc hq
    have hheld : u.held l = some q := held_eq_some.2 ⟨hq, info, hc⟩
    have hin : q ∈ u.mem.storage.owned := (hu.owned q).2 ⟨l, hheld⟩
    obtain ⟨q', hc'⟩ := hrep.cell_info hc
    rw [hrep.held ha] at hheld
    split at hheld
    · next hmg =>
        cases hheld
        rw [(ha.cells l hmg).cell] at hc'
        cases hc'
        cases kind with
        | memory =>
            obtain rfl := hdest rfl
            have hput := ha.putter
            have hwas := h.owned a.putter sp.ptr sp.typeInfo
              (cell_eq_some.2 ⟨sp, hput.1, rfl, rfl⟩) hput.2.1
            have hwasIn : sp.ptr ∈ t.mem.storage.owned :=
              AList.lookup_isSome.1 (Option.isSome_of_eq_some hwas)
            exact (htrade.lookup_eq hwasIn hin).trans hwas
        | port =>
            cases htrade with
            | nothing hkind _ =>
                rw [hkind rfl] at hmg
                cases hmg
            | stored _ _ _ hfresh howned _ _ _ =>
                obtain rfl := hrep.dest_eq ha ht hu howned hfresh
                exact (congrArg (AList.lookup _) howned).trans (AList.lookup_insert _)
            | freed hk => cases hk
    · next hmg =>
        split at hheld
        · cases hheld
        · next hput =>
            have hwas := h.owned l q info ((hrep.other l hmg hput).symm.trans hc) hq
            have hwasIn : q ∈ t.mem.storage.owned := (ht.owned q).2 ⟨l, hheld⟩
            exact (htrade.lookup_eq hwasIn hin).trans hwas

/-- What was dropped and what is yet to be grow by what the action stores. -/
theorem Typed.balance (ha : ActionReady t a kind sp v) (htrade : Trade a kind sp v t.mem u.mem)
    (h : Typed infos t) : (u.heap.dropped : Multiset (Datum D)) + stock infos u.mem =
      t.heap.dropped + stock infos t.mem + a.income t := by
  cases htrade with
  | nothing hkind hsame =>
      have hnone : a.stores t = none := by
        cases kind with
        | memory => exact ha.stores_memory
        | port => exact ha.stores_nil (hkind rfl)
      rw [RunAction.income, hnone, hsame, show u.heap = t.heap from congrArg Mem.heap hsame,
        add_zero]
  | @stored dest' w hkind hne hw hfresh howned hread hrest hdropped =>
      subst hkind
      have hinfo : infos.lookup sp.typeInfo.typeId = some sp.typeInfo := by
        obtain ⟨g, hg⟩ := List.exists_mem_of_ne_nil _ hne
        exact h.info g _ _ (ha.cells g hg).cell
      have hkeys : u.mem.storage.owned.keys.toFinset =
          insert dest' t.mem.storage.owned.keys.toFinset := by
        ext q
        rw [mem_ownedKeys, howned, Finset.mem_insert, mem_ownedKeys, AList.mem_insert]
      have hrestWorth : ∀ q ∈ t.mem.storage.owned.keys.toFinset,
          worth infos u.mem q = worth infos t.mem q := by
        intro q hq
        have hne' : q ≠ dest' := fun heq => hfresh (heq ▸ mem_ownedKeys.1 hq)
        refine worth_congr ?_ (hrest q hne')
        rw [howned, AList.lookup_insert_ne hne']
      have hdestWorth : worth infos u.mem dest' =
          (Storage.drops sp.typeInfo.funcs.drop w : Multiset (Datum D)) :=
        worth_eq (by rw [howned, AList.lookup_insert]) hinfo hread
      rw [stock, hkeys, Finset.sum_insert fun hq => hfresh (mem_ownedKeys.1 hq), hdestWorth,
        Finset.sum_congr rfl hrestWorth, RunAction.income, ha.stores_port hne hw,
        show u.heap.dropped = t.heap.dropped from hdropped, stock]
      abel
  | freed hkind howned hread hdropped =>
      subst hkind
      have hput := ha.putter
      have hcell : t.cell a.putter = some (sp.ptr, sp.typeInfo) :=
        cell_eq_some.2 ⟨sp, hput.1, rfl, rfl⟩
      have hwas := h.owned a.putter sp.ptr sp.typeInfo hcell hput.2.1
      have hin : sp.ptr ∈ t.mem.storage.owned :=
        AList.lookup_isSome.1 (Option.isSome_of_eq_some hwas)
      have hkeys : t.mem.storage.owned.keys.toFinset =
          insert sp.ptr u.mem.storage.owned.keys.toFinset := by
        ext q
        rw [mem_ownedKeys, Finset.mem_insert, mem_ownedKeys, howned, AList.mem_erase]
        constructor
        · intro hq
          exact or_iff_not_imp_left.2 fun hne => ⟨hne, hq⟩
        · rintro (rfl | hq)
          · exact hin
          · exact hq.2
      have hout : sp.ptr ∉ u.mem.storage.owned.keys.toFinset := by
        rw [mem_ownedKeys, howned, AList.mem_erase]
        exact fun hcon => hcon.1 rfl
      have hrestWorth : ∀ q ∈ u.mem.storage.owned.keys.toFinset,
          worth infos t.mem q = worth infos u.mem q := by
        intro q hq
        rw [mem_ownedKeys, howned, AList.mem_erase] at hq
        refine worth_congr ?_ (hread q).symm
        rw [howned, AList.lookup_erase_ne hq.1]
      have hfreedWorth : worth infos t.mem sp.ptr =
          (Storage.drops sp.typeInfo.funcs.drop v : Multiset (Datum D)) :=
        worth_eq hwas (h.info _ _ _ hcell) ha.value
      have hstock : stock infos t.mem = Storage.drops sp.typeInfo.funcs.drop v +
          stock infos u.mem := by
        rw [stock, hkeys, Finset.sum_insert hout, hfreedWorth, Finset.sum_congr rfl hrestWorth,
          stock]
      rw [RunAction.income, ha.stores_memory, hstock,
        show u.heap.dropped = _ ++ t.heap.dropped from hdropped, ← Multiset.coe_add]
      abel

end Step

/-! ## The actions so far -/

/-- The step has been taken for `acts`; `dest` are the addresses of what the
ports gave. -/
structure Settled (infos : HashMap TypeId (TypeInfo D)) (s : ProtoAll D) (acts : List RunAction)
    (dest : LocId → Ptr) (t : ProtoAll D) : Prop where
  held : ∀ l, t.held l = (slotAfter s acts l).map (Slot.name dest)
  apart : Set.InjOn (Slot.name dest) (Renaming.used (slotAfter s acts))
  old : ∀ l q, slotAfter s acts l = some (.old q) → t.heap.read q = s.heap.read q
  new : ∀ a ∈ acts, ∀ info w, a.stores s = some (info, w) →
    t.heap.read (dest a.putter) = some w
  typed : Typed infos t
  balance : (t.heap.dropped : Multiset (Datum D)) + stock infos t.mem =
    s.heap.dropped + stock infos s.mem + (acts.map (RunAction.income s)).sum

theorem Settled.nil {infos : HashMap TypeId (TypeInfo D)} {s : ProtoAll D} (h : Typed infos s) :
    Settled infos s [] (fun _ => .null) s := by
  have hslot : ∀ l, slotAfter s [] l = (s.held l).map .old := fun _ => rfl
  refine ⟨fun l => ?_, ?_, fun _ _ _ => rfl, ?_, h, ?_⟩
  · rw [hslot, Option.map_map]
    exact (congrFun Option.map_id (s.held l)).symm
  · rintro x ⟨l, hl⟩ y ⟨l', hl'⟩ hxy
    rw [hslot] at hl hl'
    obtain ⟨q, -, rfl⟩ := Option.map_eq_some_iff.1 hl
    obtain ⟨q', -, rfl⟩ := Option.map_eq_some_iff.1 hl'
    exact congrArg Slot.old hxy
  · intro a ha
    cases ha
  · rw [List.map_nil, List.sum_nil, add_zero]

section Snoc

variable {infos : HashMap TypeId (TypeInfo D)} {s t u : ProtoAll D} {done : List RunAction}
  {a : RunAction} {kind : SourceKind} {sp : PutterSpace D} {v : Datum D} {dest : LocId → Ptr}
  {d : Ptr}

/-- The putter's cell still has what it had. -/
theorem ActionReady.slotAfter_putter (ha : ActionReady s a .memory sp v)
    (hapart : ∀ b ∈ done, b.Apart a) : slotAfter s done a.putter = some (.old sp.ptr) := by
  rw [slotAfter_of_notMem fun b hb hl => hapart b hb _ ⟨.inr (.inl hl), .inl rfl⟩, if_neg, ha.held]
  · rfl
  · rintro ⟨b, hb, hput, -⟩
    exact hapart b hb _ ⟨.inl hput.symm, .inl rfl⟩

/-- What is in the cells after one action more was there before, or it is what
a port gave. -/
theorem ActionReady.used_snoc (ha : ActionReady s a kind sp v) (hapart : ∀ b ∈ done, b.Apart a)
    {x : Slot} (hx : x ∈ Renaming.used (slotAfter s (done ++ [a]))) :
    x ∈ Renaming.used (slotAfter s done) ∨ kind = .port ∧ x = .new a.putter := by
  obtain ⟨l, hl⟩ := hx
  rw [slotAfter_snoc hapart] at hl
  split at hl
  · cases hl
    cases kind with
    | memory =>
        rw [RunAction.source, ha.held]
        exact .inl ⟨a.putter, ha.slotAfter_putter hapart⟩
    | port =>
        rw [RunAction.source, ha.held_putter_of_port]
        exact .inr ⟨rfl, rfl⟩
  · split at hl
    · cases hl
    · exact .inl ⟨l, hl⟩

/-- A new address leaves those of the actions before as they are. -/
theorem name_update (hapart : ∀ b ∈ done, b.Apart a) {x : Slot}
    (hx : x ∈ Renaming.used (slotAfter s done)) :
    x.name (Function.update dest a.putter d) = x.name dest := by
  cases x with
  | old q => rfl
  | new p =>
      obtain ⟨l, hl⟩ := hx
      obtain ⟨b, hb, rfl, -, -⟩ := putter_of_new hl
      refine Function.update_of_ne (fun heq => ?_) d dest
      exact hapart b hb _ ⟨.inl heq.symm, .inl rfl⟩

/-- An action stores the same whether it is performed now or was first. -/
theorem ActionReady.income_eq (ha : ActionReady s a kind sp v) (hat : ActionReady t a kind sp v) :
    a.income t = a.income s := by
  have hstores : a.stores t = a.stores s := by
    cases kind with
    | memory => rw [ha.stores_memory, hat.stores_memory]
    | port =>
        by_cases hnil : a.mg = []
        · rw [ha.stores_nil hnil, hat.stores_nil hnil]
        · obtain ⟨w, hw⟩ := ha.exists_storedValue hnil
          rw [ha.stores_port hnil hw, hat.stores_port hnil hw]
  rw [RunAction.income, RunAction.income, hstores]

/-- Only a port stores, and its getter cells get what it stored. -/
theorem RunAction.source_of_stores {info : TypeInfo D} {w : Datum D}
    (h : a.stores s = some (info, w)) : a.source s = .new a.putter ∧ a.mg ≠ [] := by
  rw [stores] at h
  split at h
  · next sp b hsp =>
      split at h
      · cases h
      · next hne =>
          refine ⟨?_, hne⟩
          have hnone : s.held a.putter = none := by
            rw [ProtoAll.held, ProtoAll.cell, getMePu, hsp]
            rfl
          rw [source, hnone]
  · cases h

theorem Settled.held_snoc (h : Settled infos s done dest t) (ha : ActionReady s a kind sp v)
    (hat : ActionReady t a kind sp v) (hapart : ∀ b ∈ done, b.Apart a)
    (hrep : Repointed t a kind d u) (hmem : kind = .memory → d = sp.ptr) (l : LocId) : u.held l =
    (slotAfter s (done ++ [a]) l).map (Slot.name (Function.update dest a.putter d)) := by
  rw [hrep.held hat, slotAfter_snoc hapart]
  by_cases hmg : l ∈ a.mg
  · rw [if_pos hmg, if_pos hmg, Option.map_some, RunAction.source]
    cases kind with
    | memory => rw [ha.held, hmem rfl, Slot.name]
    | port => rw [ha.held_putter_of_port, Slot.name, Function.update_self]
  · rw [if_neg hmg, if_neg hmg]
    by_cases hput : l = a.putter ∧ a.pg = []
    · rw [if_pos hput]
      obtain ⟨rfl, hpg⟩ := hput
      cases kind with
      | memory => rw [if_pos ⟨rfl, rfl, hpg⟩, Option.map_none]
      | port =>
          rw [if_neg fun hcon => by cases hcon.2.1]
          exact hat.held_putter_of_port
    · rw [if_neg fun hcon => hput ⟨hcon.1, hcon.2.2⟩, if_neg hput, h.held]
      cases hx : slotAfter s done l with
      | none => rfl
      | some x =>
          rw [Option.map_some, Option.map_some, name_update hapart ⟨l, hx⟩]

/-- An address that no cell had is like no other. -/
theorem Settled.apart_snoc (h : Settled infos s done dest t) (ha : ActionReady s a kind sp v)
    (hapart : ∀ b ∈ done, b.Apart a) (hnew : kind = .port → ∀ l, t.held l ≠ some d) :
    Set.InjOn (Slot.name (Function.update dest a.putter d))
      (Renaming.used (slotAfter s (done ++ [a]))) := by
  -- what was in a cell is not named by `d`
  have hold : kind = .port → ∀ x ∈ Renaming.used (slotAfter s done), x.name dest ≠ d := by
    rintro hk x ⟨l, hl⟩ heq
    refine hnew hk l ?_
    rw [h.held, hl, Option.map_some, heq]
  have hself : (Slot.new a.putter).name (Function.update dest a.putter d) = d :=
    Function.update_self _ _ _
  intro x hx y hy hxy
  rcases ha.used_snoc hapart hx with hx | ⟨hk, rfl⟩
  · rcases ha.used_snoc hapart hy with hy | ⟨hk, rfl⟩
    · rw [name_update hapart hx, name_update hapart hy] at hxy
      exact h.apart hx hy hxy
    · rw [name_update hapart hx, hself] at hxy
      exact absurd hxy (hold hk x hx)
  · rcases ha.used_snoc hapart hy with hy | ⟨-, rfl⟩
    · rw [name_update hapart hy, hself] at hxy
      exact absurd hxy.symm (hold hk y hy)
    · rfl

/-- What an earlier action stored has a cell, and so is still there. -/
theorem Settled.mem_owned_of_stores (h : Settled infos s done dest t) (ht : Coherent t)
    (hdone : done.Pairwise RunAction.Apart) {b : RunAction} (hb : b ∈ done) {info : TypeInfo D}
    {w : Datum D} (hstores : b.stores s = some (info, w)) :
    dest b.putter ∈ t.w.active.storage.owned := by
  obtain ⟨hsource, hne⟩ := RunAction.source_of_stores hstores
  obtain ⟨g, hg⟩ := List.exists_mem_of_ne_nil _ hne
  refine (ht.owned _).2 ⟨g, ?_⟩
  rw [h.held, slotAfter_of_mem hdone hb hg, hsource]
  rfl

/-- One action more. -/
theorem Settled.snoc (h : Settled infos s done dest t) (ht : Coherent t)
    (ha : ActionReady s a kind sp v) (hat : ActionReady t a kind sp v)
    (hdone : done.Pairwise RunAction.Apart) (hapart : ∀ b ∈ done, b.Apart a)
    (hperf : Performed t a kind sp v u) (htrade : Trade a kind sp v t.mem u.mem) :
    ∃ dest', Settled infos s (done ++ [a]) dest' u := by
  obtain ⟨d, hrep, hmem, hnew⟩ := hperf.repointed hat
  have hread : ∀ q ∈ t.w.active.storage.owned, u.heap.read q = t.heap.read q :=
    fun q hq => hperf.read q (.inr hq)
  refine ⟨Function.update dest a.putter d, h.held_snoc ha hat hapart hrep hmem,
    h.apart_snoc ha hapart hnew, ?_, ?_, h.typed.step hat ht hperf.coherent hrep hmem htrade, ?_⟩
  · intro l q hl
    rcases ha.used_snoc hapart ⟨l, hl⟩ with ⟨l', hl'⟩ | ⟨-, hcon⟩
    · have hheld : t.held l' = some q := by
        rw [h.held, hl']
        rfl
      rw [hread q ((ht.owned q).2 ⟨l', hheld⟩), h.old l' q hl']
    · cases hcon
  · intro b hb info w hstores
    rcases List.mem_append.1 hb with hb | hb
    · have hne : b.putter ≠ a.putter := fun heq => hapart b hb _ ⟨.inl rfl, .inl heq⟩
      rw [Function.update_of_ne hne, hread _ (h.mem_owned_of_stores ht hdone hb hstores)]
      exact h.new b hb info w hstores
    · obtain rfl := List.mem_singleton.1 hb
      rw [Function.update_self]
      cases htrade with
      | nothing hkind _ =>
          have hnone : b.stores s = none := by
            cases kind with
            | memory => exact ha.stores_memory
            | port => exact ha.stores_nil (hkind rfl)
          rw [hnone] at hstores
          cases hstores
      | stored hkind hne hw hfresh howned hstored _ _ =>
          subst hkind
          rw [ha.stores_port hne hw] at hstores
          cases hstores
          obtain rfl := hrep.dest_eq hat ht hperf.coherent howned hfresh
          exact hstored
      | freed hkind _ _ _ =>
          subst hkind
          rw [ha.stores_memory] at hstores
          cases hstores
  · rw [h.typed.balance hat htrade, h.balance, ha.income_eq hat, List.map_append,
      List.sum_append, List.map_singleton, List.sum_singleton, add_assoc]

end Snoc

/-! ## All actions -/

/-- Whatever the order, a firing takes the step. -/
theorem fire_settled {infos : HashMap TypeId (TypeInfo D)} {s : ProtoAll D} {rule : RunRule D}
    (hs : Coherent s) (htyped : Typed infos s)
    (hready : ∀ a ∈ rule.actions, ∃ kind sp v, ActionReady s a kind sp v)
    (hapart : rule.actions.Pairwise RunAction.Apart) :
    ∃ t dest, rule.fire.run s = .ok () t ∧ Fired s rule.actions t ∧
      Settled infos s rule.actions dest t := by
  obtain ⟨t, hrun, hf, dest, h⟩ : ∃ t, rule.fire.run s = .ok () t ∧
      Fired s rule.actions t ∧ ∃ dest, Settled infos s rule.actions dest t := by
    refine Effect.forEach_ok (I := fun done t => Fired s done t ∧ ∃ dest,
      Settled infos s done dest t) ?_ ⟨Fired.nil hs, _, Settled.nil htyped⟩
    rintro done a rest t hall ⟨hf, dest, h⟩
    rw [hall] at hready hapart
    obtain ⟨kind, sp, v, ha⟩ := hready a (by simp)
    obtain ⟨hpair, -, hcross⟩ := List.pairwise_append.1 hapart
    have hdone : ∀ b ∈ done, b.Apart a := fun b hb => hcross b hb a List.mem_cons_self
    have hat := ha.later hf hdone
    obtain ⟨u, hrun, hperf⟩ := performAction_ok hf.coherent hat
    have htrade := trade_of_performAction hf.coherent hat hrun
    exact ⟨u, hrun, hf.snoc ha hdone hperf, h.snoc hf.coherent ha hat hpair hdone hperf htrade⟩
  exact ⟨t, dest, hrun, hf, h⟩

end ReoRs
