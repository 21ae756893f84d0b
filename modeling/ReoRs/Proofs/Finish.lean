import ReoRs.Proofs.BuildRules

/-!
# What `finish` returns

Every result about a running protocol starts from an instance that `finish`
returned. `Built` is all there is to know about one: each location has a space
of its kind, with a descriptor of its type, the rules encode the definition's,
and the rest of the state is as empty as it can be.
-/

namespace ReoRs

variable {D : Type}

/-! ## Maps -/

section Maps

variable {K V : Type} [DecidableEq K]

theorem lookup_orInsert (m : HashMap K V) (k : K) (v : V) (k' : K) :
    (orInsert m k v).lookup k' =
      if k' = k then some ((m.lookup k).getD v) else m.lookup k' := by
  rw [orInsert]
  cases h : m.lookup k with
  | none =>
      by_cases hk : k' = k
      · subst hk
        simp
      · simp [hk, AList.lookup_insert_ne hk]
  | some w =>
      by_cases hk : k' = k
      · subst hk
        simp [h]
      · simp [hk]

/-- An entry is the new one or was there before. -/
theorem lookup_orInsert_cases {m : HashMap K V} {k k' : K} {v w : V}
    (h : (orInsert m k v).lookup k' = some w) : (k' = k ∧ w = v) ∨ m.lookup k' = some w := by
  rw [lookup_orInsert] at h
  split at h
  · next hk =>
      subst hk
      cases hold : m.lookup k' with
      | none =>
          rw [hold] at h
          exact .inl ⟨rfl, (Option.some.inj h).symm⟩
      | some w' =>
          rw [hold] at h
          exact .inr h
  · exact .inr h

theorem lookup_collectMap_pair (a b k : K) (v w : V) : (collectMap [(a, v), (b, w)]).lookup k =
    if k = b then some w else if k = a then some v else none := by
  show ((AList.insert a v ∅ : HashMap K V).insert b w).lookup k = _
  by_cases hb : k = b
  · rw [hb, AList.lookup_insert, if_pos rfl]
  · rw [AList.lookup_insert_ne hb, if_neg hb]
    by_cases ha : k = a
    · rw [ha, AList.lookup_insert, if_pos rfl]
    · rw [AList.lookup_insert_ne ha, if_neg ha]
      rfl

theorem mem_pairs {m : HashMap K V} {k : K} {v : V} : (k, v) ∈ m.pairs ↔ m.lookup k = some v := by
  rw [HashMap.pairs, List.mem_map, ← Option.mem_def, AList.mem_lookup_iff]
  constructor
  · rintro ⟨⟨k', v'⟩, hmem, heq⟩
    cases heq
    exact hmem
  · exact fun h => ⟨⟨k, v⟩, h, rfl⟩

theorem mem_keys_iff_lookup {m : HashMap K V} {k : K} : k ∈ m.keys ↔ ∃ v, m.lookup k = some v := by
  rw [← AList.mem_keys, ← AList.lookup_isSome, Option.isSome_iff_exists]

end Maps

theorem mem_idsOfKind {locKinds : HashMap LocId LocKind} {which : LocKind → Bool} {l : LocId} :
    l ∈ idsOfKind locKinds which ↔ ∃ k, locKinds.lookup l = some k ∧ which k = true := by
  rw [idsOfKind, List.mem_map]
  constructor
  · rintro ⟨⟨l', k⟩, hmem, rfl⟩
    obtain ⟨hmem, hk⟩ := List.mem_filter.1 hmem
    exact ⟨k, mem_pairs.1 hmem, hk⟩
  · rintro ⟨k, hl, hk⟩
    exact ⟨(l, k), List.mem_filter.2 ⟨mem_pairs.2 hl, hk⟩, rfl⟩

theorem le_maxLocId {d : TypelessProtoDef} {l : LocId} {k : LocKind}
    (h : d.locKinds.lookup l = some k) : l ≤ maxLocId d := by
  have hmem : l ∈ d.locKinds.keys := mem_keys_iff_lookup.2 ⟨k, h⟩
  have hle : ∀ (ids : List LocId) (m : Nat), (∀ x ∈ ids, x ≤ ids.foldl max m) ∧
      m ≤ ids.foldl max m := by
    intro ids
    induction ids with
    | nil => intro m; simp
    | cons y ys ih =>
        intro m
        obtain ⟨hall, hm⟩ := ih (max m y)
        refine ⟨?_, Nat.le_trans (Nat.le_max_left m y) hm⟩
        intro x hx
        rcases List.mem_cons.1 hx with rfl | hx
        · exact Nat.le_trans (Nat.le_max_right m x) hm
        · exact hall x hx
  exact (hle _ 0).1 l hmem

/-! ## Types -/

/-- The tables of `finish` agree with the author's `loc_type`. -/
structure TablesOk (P : Proto D) (types : HashMap LocId TypeId)
    (infos : HashMap TypeId (TypeInfo D)) : Prop where
  declared : ∀ l t, types.lookup l = some t → ∃ i, P.locType l = some i ∧ i.typeId = t
  covered : ∀ l t, types.lookup l = some t → ∃ i, infos.lookup t = some i
  ids : ∀ t i, infos.lookup t = some i → i.typeId = t ∧ ∃ l, P.locType l = some i

theorem typeTables_spec {P : Proto D} : ∀ (ids : List LocId) {types : HashMap LocId TypeId}
    {infos : HashMap TypeId (TypeInfo D)}, TablesOk P types infos →
      ((∃ r, typeTables P ids types infos = .ok r) ↔ ∀ l ∈ ids, ∃ i, P.locType l = some i) ∧
      ∀ r, typeTables P ids types infos = .ok r → TablesOk P r.1 r.2 ∧
        (∀ l ∈ ids, ∃ t, r.1.lookup l = some t) ∧
        ∀ l t, types.lookup l = some t → r.1.lookup l = some t := by
  intro ids
  induction ids with
  | nil =>
      intro types infos hok
      refine ⟨by simp [typeTables], ?_⟩
      intro r h
      cases h
      exact ⟨hok, by simp, fun _ _ h => h⟩
  | cons id ids ih =>
      intro types infos hok
      cases hid : P.locType id with
      | none =>
          rw [typeTables, hid]
          refine ⟨⟨?_, ?_⟩, ?_⟩
          · rintro ⟨r, h⟩
            cases h
          · intro hall
            obtain ⟨i, hi⟩ := hall id List.mem_cons_self
            rw [hid] at hi
            cases hi
          · intro r h
            cases h
      | some info =>
          have hok' : TablesOk P (orInsert types id info.typeId)
              (orInsert infos info.typeId info) := by
            refine ⟨?_, ?_, ?_⟩
            · intro l t hl
              rcases lookup_orInsert_cases hl with ⟨rfl, rfl⟩ | hold
              · exact ⟨info, hid, rfl⟩
              · exact hok.declared l t hold
            · intro l t hl
              rw [lookup_orInsert]
              by_cases ht : t = info.typeId
              · exact ⟨_, if_pos ht⟩
              · rw [if_neg ht]
                rcases lookup_orInsert_cases hl with ⟨-, heq⟩ | hold
                · exact absurd heq ht
                · exact hok.covered l t hold
            · intro t i hi
              rcases lookup_orInsert_cases hi with ⟨rfl, rfl⟩ | hold
              · exact ⟨rfl, id, hid⟩
              · exact hok.ids t i hold
          obtain ⟨hiff, hres⟩ := ih hok'
          rw [typeTables, hid]
          refine ⟨?_, ?_⟩
          · rw [hiff]
            simp [hid]
          · intro r hr
            obtain ⟨hok'', hids, hkeep⟩ := hres r hr
            refine ⟨hok'', ?_, ?_⟩
            · intro l hl
              rcases List.mem_cons.1 hl with rfl | hl
              · exact ⟨_, hkeep l _ (by rw [lookup_orInsert, if_pos rfl])⟩
              · exact hids l hl
            · intro l t hl
              refine hkeep l t ?_
              rw [lookup_orInsert]
              by_cases hlid : l = id
              · subst hlid
                simp [hl]
              · rw [if_neg hlid, hl]

theorem tablesOk_empty (P : Proto D) : TablesOk P ∅ ∅ where
  declared := by
    intro l t h
    cases h
  covered := by
    intro l t h
    cases h
  ids := by
    intro t i h
    cases h

/-- The descriptor a location gets is one the author declared, with the type
declared for the location, and the only one of its type. -/
structure InfoAt (P : Proto D) (infos : HashMap TypeId (TypeInfo D)) (l : LocId)
    (info : TypeInfo D) : Prop where
  typeAt : ∃ i, P.locType l = some i ∧ info.typeId = i.typeId
  unique : infos.lookup info.typeId = some info
  declared : ∃ l', P.locType l' = some info

theorem infoOf_spec {P : Proto D} {types : HashMap LocId TypeId}
    {infos : HashMap TypeId (TypeInfo D)} (hok : TablesOk P types infos) {l : LocId} {t : TypeId}
    (ht : types.lookup l = some t) :
    ∃ info, infoOf types infos l = .ok info ∧ InfoAt P infos l info := by
  obtain ⟨i, hi, hit⟩ := hok.declared l t ht
  obtain ⟨info, hinfo⟩ := hok.covered l t ht
  obtain ⟨hid, hdecl⟩ := hok.ids t info hinfo
  refine ⟨info, ?_, ⟨i, hi, hid.trans hit.symm⟩, by rw [hid, hinfo], hdecl⟩
  simp [infoOf, typeOf, ht, hinfo, bind, Except.bind]

theorem portInfos_ok (types : HashMap LocId TypeId) : ∀ (kvs : List (LocId × LocKind)),
    (∀ l k, (l, k) ∈ kvs → ∃ t, types.lookup l = some t) → ∃ r, portInfos types kvs = .ok r := by
  intro kvs
  induction kvs with
  | nil => exact fun _ => ⟨[], rfl⟩
  | cons kv kvs ih =>
      intro h
      obtain ⟨l, k⟩ := kv
      obtain ⟨t, ht⟩ := h l k List.mem_cons_self
      obtain ⟨r, hr⟩ := ih fun l' k' h' => h l' k' (List.mem_cons_of_mem _ h')
      cases k with
      | portPutter | portGetter =>
          simp [portInfos, typeOf, ht, hr, bind, Except.bind, pure, Except.pure]
      | memInitialized | memUninitialized => exact ⟨r, by rw [portInfos, hr]⟩

/-! ## Spaces -/

/-- The space a location starts with, by its kind. -/
inductive SpaceAt (P : Proto D) (infos : HashMap TypeId (TypeInfo D)) (l : LocId) :
    Space D → Prop where
  | unused (hk : P.typelessProtoDef.locKinds.lookup l = none) : SpaceAt P infos l .unused
  | putter {info : TypeInfo D} (hk : P.typelessProtoDef.locKinds.lookup l = some .portPutter)
      (hinfo : InfoAt P infos l info) : SpaceAt P infos l (.poPu (.new .null info) .new)
  | getter (hk : P.typelessProtoDef.locKinds.lookup l = some .portGetter) :
      SpaceAt P infos l (.poGe .new)
  | filled {info : TypeInfo D} {ptr : Ptr}
      (hk : P.typelessProtoDef.locKinds.lookup l = some .memInitialized)
      (hinfo : InfoAt P infos l info) : SpaceAt P infos l (.memo (.new ptr info))
  | empty {info : TypeInfo D} (hk : P.typelessProtoDef.locKinds.lookup l = some .memUninitialized)
      (hinfo : InfoAt P infos l info) : SpaceAt P infos l (.memo (.new .null info))

/-- No location starts out filled. -/
def Uninitialized (P : Proto D) : Prop :=
  ∀ l, P.typelessProtoDef.locKinds.lookup l ≠ some .memInitialized

theorem Uninitialized.of_pairs {P : Proto D}
    (h : ∀ e ∈ P.typelessProtoDef.locKinds.pairs, e.2 ≠ .memInitialized) : Uninitialized P :=
  fun _ hl => h _ (mem_pairs.2 hl) rfl

section Spaces

variable {P : Proto D} {types : HashMap LocId TypeId} {infos : HashMap TypeId (TypeInfo D)}

theorem run_buildSpace (hok : TablesOk P types infos)
    (htypes : TypesDefined P.typelessProtoDef.locKinds types) (l : LocId) (b : Build D) :
    (P.typelessProtoDef.locKinds.lookup l ≠ some .memInitialized →
        ∃ space, (buildSpace P types infos l).run b = .ok space b ∧ SpaceAt P infos l space) ∧
      ∀ space b', (buildSpace P types infos l).run b = .ok space b' →
        SpaceAt P infos l space := by
  cases hk : P.typelessProtoDef.locKinds.lookup l with
  | none =>
      have hrun : (buildSpace P types infos l).run b = .ok .unused b := by
        rw [buildSpace, hk]
        rfl
      rw [hrun]
      refine ⟨fun _ => ⟨_, rfl, .unused hk⟩, ?_⟩
      intro space b' h
      cases h
      exact .unused hk
  | some k =>
      obtain ⟨t, ht⟩ := htypes l k hk
      obtain ⟨info, hinfo, hat⟩ := infoOf_spec hok ht
      cases k with
      | portPutter =>
          have hrun : (buildSpace P types infos l).run b =
              .ok (.poPu (.new .null info) .new) b := by
            rw [buildSpace, hk, hinfo]
            rfl
          rw [hrun]
          refine ⟨fun _ => ⟨_, rfl, .putter hk hat⟩, ?_⟩
          intro space b' h
          cases h
          exact .putter hk hat
      | portGetter =>
          have hrun : (buildSpace P types infos l).run b = .ok (.poGe .new) b := by
            rw [buildSpace, hk]
            rfl
          rw [hrun]
          refine ⟨fun _ => ⟨_, rfl, .getter hk⟩, ?_⟩
          intro space b' h
          cases h
          exact .getter hk
      | memUninitialized =>
          have hrun : (buildSpace P types infos l).run b = .ok (.memo (.new .null info)) b := by
            rw [buildSpace, hk, hinfo]
            rfl
          rw [hrun]
          refine ⟨fun _ => ⟨_, rfl, .empty hk hat⟩, ?_⟩
          intro space b' h
          cases h
          exact .empty hk hat
      | memInitialized =>
          refine ⟨fun h => absurd rfl h, ?_⟩
          intro space b' h
          rw [buildSpace, hk, hinfo] at h
          obtain ⟨_, _, hlift, h⟩ := Effect.ok_of_bind_ok h
          cases hlift
          obtain ⟨_, b₁, -, h⟩ := Effect.ok_of_bind_ok h
          simp only [EStateM.run_bind, EStateM.run_get] at h
          cases hl : b₁.builder.initMems.lookup l with
          | none =>
              rw [hl] at h
              cases h
          | some ptr =>
              rw [hl] at h
              cases h
              exact .filled hk hat

theorem run_buildSpaces (hok : TablesOk P types infos)
    (htypes : TypesDefined P.typelessProtoDef.locKinds types) :
    ∀ (ids : List LocId) (b : Build D),
      (Uninitialized P → ∃ spaces, (buildSpaces P types infos ids).run b = .ok spaces b) ∧
        ∀ spaces b', (buildSpaces P types infos ids).run b = .ok spaces b' →
          List.Forall₂ (SpaceAt P infos) ids spaces := by
  intro ids
  induction ids with
  | nil =>
      intro b
      refine ⟨fun _ => ⟨[], rfl⟩, ?_⟩
      intro spaces b' h
      cases h
      exact .nil
  | cons id ids ih =>
      intro b
      obtain ⟨hone, hres⟩ := run_buildSpace hok htypes id b
      refine ⟨?_, ?_⟩
      · intro hun
        obtain ⟨space, hspace, -⟩ := hone (hun id)
        obtain ⟨spaces, hspaces⟩ := (ih b).1 hun
        refine ⟨space :: spaces, ?_⟩
        rw [buildSpaces, Effect.run_bind_of_ok hspace, Effect.run_bind_of_ok hspaces]
        rfl
      · intro spaces b' h
        rw [buildSpaces] at h
        obtain ⟨space, b₁, hspace, h⟩ := Effect.ok_of_bind_ok h
        obtain ⟨rest, b₂, hrest, h⟩ := Effect.ok_of_bind_ok h
        cases h
        exact .cons (hres space b₁ hspace) ((ih b₁).2 rest _ hrest)

end Spaces

/-! ## The instance -/

/-- The types of the locations, as the author declared them. -/
def Proto.typeAt (P : Proto D) (l : LocId) : Option TypeId := (P.locType l).map (·.typeId)

/-- An instance as `finish` returns it, from a builder that had the fills
`initMems`. -/
structure Built (P : Proto D) (initMems : HashMap LocId Ptr) (s : ProtoAll D) : Prop where
  spaces : ∃ infos, List.Forall₂ (SpaceAt P infos)
    (List.range (maxLocId P.typelessProtoDef + 1)) s.r.spaces
  wellFormed : ∀ r ∈ P.typelessProtoDef.behaviour.rules,
    WellFormedRule P.typelessProtoDef.locKinds P.typeAt r.actions
  rules : List.Forall₂ (Encodes P.typelessProtoDef.locKinds)
    P.typelessProtoDef.behaviour.rules s.r.rules
  padded : ∀ rule ∈ s.r.rules, Padded (maxLocId P.typelessProtoDef) rule
  memoryBits : s.w.memoryBits =
    (BitSet.fromIter (idsOfKind P.typelessProtoDef.locKinds (· == .memInitialized))
      ).padTrailingZeroesToCapacity (maxLocId P.typelessProtoDef)
  ready : s.w.active.ready =
    BitSet.fromIter (idsOfKind P.typelessProtoDef.locKinds LocKind.isMem)
  memRefs : s.w.active.memRefs = initialMemRefs initMems
  commitment : s.w.commitment = none
  readyTentative : s.w.readyTentative = ∅
  awaitingStates : s.w.awaitingStates = []

/-- The tables give a declared location the type it is declared with. -/
theorem TablesOk.lookup_eq_typeAt {P : Proto D} {types : HashMap LocId TypeId}
    {infos : HashMap TypeId (TypeInfo D)} (hok : TablesOk P types infos)
    (htypes : TypesDefined P.typelessProtoDef.locKinds types) {l : LocId} {k : LocKind}
    (hk : P.typelessProtoDef.locKinds.lookup l = some k) : types.lookup l = P.typeAt l := by
  obtain ⟨t, ht⟩ := htypes l k hk
  obtain ⟨i, hi, hit⟩ := hok.declared l t ht
  rw [ht, Proto.typeAt, hi, Option.map_some, hit]

theorem WellFormedRule.of_tables {P : Proto D} {types : HashMap LocId TypeId}
    {infos : HashMap TypeId (TypeInfo D)} (hok : TablesOk P types infos)
    (htypes : TypesDefined P.typelessProtoDef.locKinds types) {actions : List ActionDef} :
    WellFormedRule P.typelessProtoDef.locKinds (types.lookup ·) actions ↔
      WellFormedRule P.typelessProtoDef.locKinds P.typeAt actions := by
  have heq : ∀ l k, P.typelessProtoDef.locKinds.lookup l = some k →
      types.lookup l = P.typeAt l := fun _ _ hk => hok.lookup_eq_typeAt htypes hk
  constructor
  · intro h
    refine ⟨h.putters, ?_, h.selfPut, h.apart⟩
    intro a ha g hg
    obtain ⟨k, hk, hget, hty⟩ := h.getters a ha g hg
    obtain ⟨kp, hkp, -⟩ := h.putters a ha
    exact ⟨k, hk, hget, by rw [← heq g k hk, ← heq a.putter kp hkp, hty]⟩
  · intro h
    refine ⟨h.putters, ?_, h.selfPut, h.apart⟩
    intro a ha g hg
    obtain ⟨k, hk, hget, hty⟩ := h.getters a ha g hg
    obtain ⟨kp, hkp, -⟩ := h.putters a ha
    exact ⟨k, hk, hget, by rw [heq g k hk, heq a.putter kp hkp, hty]⟩

theorem ok_of_liftBuild {α : Type} {x : Except BuildStop α} {a : α} {b b' : Build D}
    (h : (liftBuild x : BuildM D α).run b = .ok a b') : x = .ok a ∧ b' = b := by
  cases x with
  | error e => cases h
  | ok a' =>
      cases h
      exact ⟨rfl, rfl⟩

/-- What `finish` returns. -/
theorem built_of_finish {P : Proto D} {b b' : Build D} {s : ProtoAll D}
    (h : (finish P).run b = .ok s b') : Built P b.builder.initMems s := by
  rw [finish] at h
  obtain ⟨⟨types, infos⟩, b₁, htables, h⟩ := Effect.ok_of_bind_ok h
  obtain ⟨ports, b₂, hports, h⟩ := Effect.ok_of_bind_ok h
  obtain ⟨_, _, hget, h⟩ := Effect.ok_of_bind_ok h
  cases hget
  obtain ⟨spaces, b₅, hspaces, h⟩ := Effect.ok_of_bind_ok h
  obtain ⟨rules, b₆, hrules, h⟩ := Effect.ok_of_bind_ok h
  obtain ⟨_, _, hget, h⟩ := Effect.ok_of_bind_ok h
  cases hget
  cases h
  obtain ⟨htab, rfl⟩ := ok_of_liftBuild htables
  obtain ⟨-, rfl⟩ := ok_of_liftBuild hports
  obtain ⟨hok, hids, -⟩ := (typeTables_spec _ (tablesOk_empty P)).2 _ htab
  have htypes : TypesDefined P.typelessProtoDef.locKinds types := fun l k hl =>
    hids l (mem_keys_iff_lookup.2 ⟨k, hl⟩)
  obtain ⟨hiff, hres⟩ := run_buildRulesFrom htypes P.typelessProtoDef.behaviour.rules 0 b₅
  exact
    { spaces := ⟨infos, (run_buildSpaces hok htypes _ _).2 _ _ hspaces⟩
      wellFormed := fun r hr =>
        (WellFormedRule.of_tables hok htypes).1 ((hiff.1 ⟨_, _, hrules⟩).1 r hr)
      rules := (hres _ _ hrules).1
      padded := buildRulesFrom_padded hrules
      memoryBits := rfl
      ready := rfl
      memRefs := rfl
      commitment := rfl
      readyTentative := rfl
      awaitingStates := rfl }

/-- Without initialised memory `finish` succeeds iff the types are declared,
the rules well formed, and no guard stops the build; and it leaves the memory
as it was. -/
theorem finish_iff_of_uninitialized {P : Proto D} (hun : Uninitialized P) (b : Build D) :
    ((∃ s b', (finish P).run b = .ok s b') ↔
        (∀ l k, P.typelessProtoDef.locKinds.lookup l = some k → ∃ i, P.locType l = some i) ∧
          (∀ r ∈ P.typelessProtoDef.behaviour.rules,
            WellFormedRule P.typelessProtoDef.locKinds P.typeAt r.actions) ∧
          ∀ r ∈ P.typelessProtoDef.behaviour.rules, ¬ r.guard.StopsBuild P) ∧
      ∀ s b', (finish P).run b = .ok s b' →
        s.w.active.storage = b.builder.memStorage ∧ s.heap = b.heap := by
  obtain ⟨htiff, htres⟩ := typeTables_spec P.typelessProtoDef.locKinds.keys
    (tablesOk_empty P)
  have hkeys : (∀ l ∈ P.typelessProtoDef.locKinds.keys, ∃ i, P.locType l = some i) ↔
      ∀ l k, P.typelessProtoDef.locKinds.lookup l = some k → ∃ i, P.locType l = some i := by
    constructor
    · exact fun h l k hl => h l (mem_keys_iff_lookup.2 ⟨k, hl⟩)
    · intro h l hl
      obtain ⟨k, hk⟩ := mem_keys_iff_lookup.1 hl
      exact h l k hk
  cases htab : typeTables P P.typelessProtoDef.locKinds.keys ∅ ∅ with
  | error e =>
      have hrun : (finish P).run b = .error e b := by
        rw [finish, htab]
        rfl
      rw [hrun]
      refine ⟨⟨?_, ?_⟩, ?_⟩
      · rintro ⟨s, b', h⟩
        cases h
      · rintro ⟨hall, -⟩
        obtain ⟨r, hr⟩ := htiff.2 (hkeys.2 hall)
        rw [htab] at hr
        cases hr
      · intro s b' h
        cases h
  | ok r =>
      obtain ⟨types, infos⟩ := r
      obtain ⟨hok, hids, -⟩ := htres _ htab
      have htypes : TypesDefined P.typelessProtoDef.locKinds types := fun l k hl =>
        hids l (mem_keys_iff_lookup.2 ⟨k, hl⟩)
      have hdecl := hkeys.1 (htiff.1 ⟨_, htab⟩)
      obtain ⟨infos', hinfos⟩ := portInfos_ok types P.typelessProtoDef.locKinds.pairs
        fun l k h => htypes l k (mem_pairs.1 h)
      have hports : unclaimedPortsOf P.typelessProtoDef.locKinds types =
          .ok (collectMap infos') := by
        rw [unclaimedPortsOf, hinfos]
        rfl
      obtain ⟨spaces, hspaces⟩ := (run_buildSpaces hok htypes
        (List.range (maxLocId P.typelessProtoDef + 1)) b).1 hun
      obtain ⟨hiff, hres⟩ := run_buildRulesFrom htypes P.typelessProtoDef.behaviour.rules 0 b
      have hwf : (∀ r ∈ P.typelessProtoDef.behaviour.rules,
            WellFormedRule P.typelessProtoDef.locKinds (types.lookup ·) r.actions) ↔
          ∀ r ∈ P.typelessProtoDef.behaviour.rules,
            WellFormedRule P.typelessProtoDef.locKinds P.typeAt r.actions :=
        forall₂_congr fun r _ => WellFormedRule.of_tables hok htypes
      rw [hwf] at hiff
      -- what is left of `finish` is the rules
      have hrun : (finish P).run b = (buildRules P types >>= fun rules => do
          let b' ← get
          pure (protoOf P (collectMap infos') (initialMemRefs b.builder.initMems) spaces rules
            b')).run b := by
        rw [finish, htab]
        show (liftBuild (unclaimedPortsOf P.typelessProtoDef.locKinds types) >>= _).run b = _
        rw [hports]
        show (buildSpaces P types infos _ >>= fun spaces => buildRules P types >>= fun rules =>
          _).run b = _
        rw [Effect.run_bind_of_ok hspaces]
      rw [hrun]
      refine ⟨?_, ?_⟩
      · constructor
        · rintro ⟨s, b', h⟩
          obtain ⟨rules, b₁, hrules, -⟩ := Effect.ok_of_bind_ok h
          exact ⟨hdecl, hiff.1 ⟨rules, b₁, hrules⟩⟩
        · rintro ⟨-, hok⟩
          obtain ⟨rules, b₁, hrules⟩ := hiff.2 hok
          exact ⟨_, b₁, Effect.run_bind_of_ok hrules⟩
      · intro s b' h
        obtain ⟨rules, b₁, hrules, hlast⟩ := Effect.ok_of_bind_ok h
        cases hlast
        obtain ⟨-, rfl⟩ := hres rules _ hrules
        exact ⟨rfl, rfl⟩

/-- Guards that are `True` do not get in the way. -/
theorem finish_of_unguarded {P : Proto D} (hun : Uninitialized P)
    (htypes : ∀ l k, P.typelessProtoDef.locKinds.lookup l = some k → ∃ i, P.locType l = some i)
    (hrules : ∀ r ∈ P.typelessProtoDef.behaviour.rules,
      WellFormedRule P.typelessProtoDef.locKinds P.typeAt r.actions)
    (hguards : ∀ r ∈ P.typelessProtoDef.behaviour.rules, r.guard = .true) (b : Build D) :
    ∃ s b', (finish P).run b = .ok s b' := by
  refine (finish_iff_of_uninitialized hun b).1.2 ⟨htypes, hrules, fun r hr => ?_⟩
  exact not_stopsBuild_of_not P (by rw [hguards r hr]; rfl)

/-! ## The first state, location by location -/

section First

variable {P : Proto D} {s : ProtoAll D}

/-- Without initialised memory no location starts with a pointer. -/
theorem SpaceAt.ptr_eq_null {infos : HashMap TypeId (TypeInfo D)} {l : LocId} {sp : Space D}
    {p : PutterSpace D} (h : SpaceAt P infos l sp) (hun : Uninitialized P)
    (hp : sp.putter = some p) : p.ptr = .null := by
  cases h with
  | unused _ | getter _ => cases hp
  | putter _ _ | empty _ _ =>
      cases hp
      rfl
  | filled hk _ => exact absurd hk (hun l)

theorem Built.spaceAt {initMems : HashMap LocId Ptr} (h : Built P initMems s) :
    ∃ infos, ∀ l sp, s.getSpace l = some sp → SpaceAt P infos l sp := by
  obtain ⟨infos, hspaces⟩ := h.spaces
  refine ⟨infos, fun l sp hl => ?_⟩
  obtain ⟨hi, hget⟩ := List.getElem?_eq_some_iff.1 hl
  have := hspaces.get (hspaces.length_eq ▸ hi) hi
  simpa [hget] using this

theorem Built.ready_test {initMems : HashMap LocId Ptr} (h : Built P initMems s) (l : LocId) :
    s.w.active.ready.test l = isMemLoc P.typelessProtoDef.locKinds l := by
  rw [h.ready, BitSet.test_fromIter, Bool.eq_iff_iff, decide_eq_true_iff, mem_idsOfKind, isMemLoc,
    Option.any_eq_true]

end First

end ReoRs
