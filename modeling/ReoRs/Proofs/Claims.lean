import ReoRs.Lib.Holdings
import ReoRs.Proofs.Handshake
import ReoRs.Proto.Claim

/-!
# Who has a port

An entry of `unclaimed_ports` and a live `Putter` or `Getter` say the same
thing of an id: a role and a type. Nothing a program does with its ports makes
or loses such a thing; it goes from the map into a value and back. So what the
map and the live values say of an id together is what the definition said of
it when the instance was made, and as the definition says at most one thing of
an id, at most one of them has it.

A destructor overwrites the entry of its id. That this loses nothing is the
invariant again: while the port lives there is no entry.
-/

namespace ReoRs

variable {D : Type}

/-! ## What the definition says -/

def LocKind.portRole : LocKind → Option PortRole
  | portPutter => some .putter
  | portGetter => some .getter
  | memInitialized | memUninitialized => none

/-- The role and type of a port, for the ids that are ports. -/
def Proto.portInfo (P : Proto D) (id : LocId) : Option PortInfo := do
  let kind ← P.typelessProtoDef.locKinds.lookup id
  let role ← kind.portRole
  let t ← P.typeAt id
  pure ⟨role, t⟩

/-- A map collected from a function's graph is that function, on the ids that
were collected. -/
theorem lookup_foldl_insert {K V : Type} [DecidableEq K] {f : K → Option V} :
    ∀ {kvs : List (K × V)}, (∀ kv ∈ kvs, f kv.1 = some kv.2) → ∀ (m : HashMap K V) (k : K),
      (kvs.foldl (fun m kv => m.insert kv.1 kv.2) m).lookup k =
        if k ∈ kvs.map (·.1) then f k else m.lookup k
  | [], _, _, _ => (if_neg List.not_mem_nil).symm
  | (k', v) :: kvs, hf, m, k => by
      obtain ⟨hkv, hf⟩ := List.forall_mem_cons.1 hf
      rw [List.foldl_cons, lookup_foldl_insert hf, List.map_cons]
      by_cases hmem : k ∈ kvs.map (·.1)
      · rw [if_pos hmem, if_pos (List.mem_cons_of_mem _ hmem)]
      · rw [if_neg hmem]
        by_cases hk : k = k'
        · subst hk
          rw [AList.lookup_insert, if_pos List.mem_cons_self, hkv]
        · rw [AList.lookup_insert_ne hk, if_neg]
          intro hcon
          rcases List.mem_cons.1 hcon with heq | hcon
          · exact hk heq
          · exact hmem hcon

theorem portInfos_cons (types : HashMap LocId TypeId) (id : LocId) (kind : LocKind)
    (kvs : List (LocId × LocKind)) : portInfos types ((id, kind) :: kvs) =
      match kind.portRole with
      | some role => do
          let t ← typeOf types id
          let infos ← portInfos types kvs
          pure ((id, ⟨role, t⟩) :: infos)
      | none => portInfos types kvs := by
  cases kind <;> rfl

/-- The `filter_map` keeps the ports, each with its role and type. -/
theorem mem_portInfos {types : HashMap LocId TypeId} {id : LocId} {info : PortInfo} :
    ∀ {kvs : List (LocId × LocKind)} {infos : List (LocId × PortInfo)},
      portInfos types kvs = .ok infos → ((id, info) ∈ infos ↔
        ∃ kind, (id, kind) ∈ kvs ∧ kind.portRole = some info.role ∧
          types.lookup id = some info.typeId) := by
  intro kvs
  induction kvs with
  | nil =>
      intro infos h
      cases h
      exact iff_of_false List.not_mem_nil fun ⟨_, hmem, _⟩ => absurd hmem List.not_mem_nil
  | cons kv kvs ih =>
      obtain ⟨l, kind⟩ := kv
      intro infos h
      rw [portInfos_cons] at h
      cases hrole : kind.portRole with
      | none =>
          rw [hrole] at h
          rw [ih h]
          constructor
          · exact fun ⟨k, hk, h⟩ => ⟨k, List.mem_cons_of_mem _ hk, h⟩
          · rintro ⟨k, hk, hkr, ht⟩
            rcases List.mem_cons.1 hk with heq | hk
            · cases heq
              rw [hrole] at hkr
              cases hkr
            · exact ⟨k, hk, hkr, ht⟩
      | some role =>
          rw [hrole] at h
          cases ht : types.lookup l with
          | none => simp [typeOf, ht, bind, Except.bind] at h
          | some t =>
              cases hrest : portInfos types kvs with
              | error e => simp [typeOf, ht, hrest, bind, Except.bind] at h
              | ok rest =>
                  simp only [typeOf, ht, hrest, bind, Except.bind, pure, Except.pure,
                    Except.ok.injEq] at h
                  subst h
                  rw [List.mem_cons, ih hrest]
                  constructor
                  · rintro (heq | ⟨k, hk, h⟩)
                    · cases heq
                      exact ⟨kind, List.mem_cons_self, hrole, ht⟩
                    · exact ⟨k, List.mem_cons_of_mem _ hk, h⟩
                  · rintro ⟨k, hk, hkr, htid⟩
                    rcases List.mem_cons.1 hk with heq | hk
                    · cases heq
                      rw [hrole] at hkr
                      rw [ht] at htid
                      obtain ⟨r, t'⟩ := info
                      cases hkr
                      cases htid
                      exact .inl rfl
                    · exact .inr ⟨k, hk, hkr, htid⟩

theorem portInfo_eq_some {P : Proto D} {id : LocId} {info : PortInfo} :
    P.portInfo id = some info ↔ ∃ kind, P.typelessProtoDef.locKinds.lookup id = some kind ∧
      kind.portRole = some info.role ∧ P.typeAt id = some info.typeId := by
  simp only [Proto.portInfo, bind, pure, Option.bind_eq_some_iff, Option.some.injEq]
  constructor
  · rintro ⟨kind, hkind, role, hrole, t, ht, rfl⟩
    exact ⟨kind, hkind, hrole, ht⟩
  · rintro ⟨kind, hkind, hrole, ht⟩
    exact ⟨kind, hkind, info.role, hrole, info.typeId, ht, rfl⟩

/-- The ports of the definition, once the types are looked up in its tables. -/
theorem lookup_unclaimedPortsOf {P : Proto D} {types : HashMap LocId TypeId}
    (htypes : ∀ l k, P.typelessProtoDef.locKinds.lookup l = some k →
      types.lookup l = P.typeAt l) {ports : HashMap LocId PortInfo}
    (h : unclaimedPortsOf P.typelessProtoDef.locKinds types = .ok ports) (id : LocId) :
    ports.lookup id = P.portInfo id := by
  rw [unclaimedPortsOf] at h
  cases hinfos : portInfos types P.typelessProtoDef.locKinds.pairs with
  | error e =>
      rw [hinfos] at h
      cases h
  | ok infos =>
      rw [hinfos] at h
      cases h
      have hmem : ∀ id info, (id, info) ∈ infos ↔ P.portInfo id = some info := by
        intro id info
        rw [mem_portInfos hinfos, portInfo_eq_some]
        refine exists_congr fun kind => ?_
        rw [mem_pairs]
        exact and_congr_right fun hk => by rw [htypes id kind hk]
      rw [collectMap, lookup_foldl_insert (f := P.portInfo) fun kv hkv => (hmem _ _).1 hkv]
      split
      · rfl
      · next hnone =>
          cases hinfo : P.portInfo id with
          | none => rfl
          | some info => exact absurd (List.mem_map_of_mem ((hmem id info).2 hinfo)) hnone

/-- What `finish` puts into `unclaimed_ports`. -/
theorem unclaimedPorts_of_finish {P : Proto D} {b b' : Build D} {s : ProtoAll D}
    (h : (finish P).run b = .ok s b') (id : LocId) :
    s.w.unclaimedPorts.lookup id = P.portInfo id := by
  rw [finish] at h
  obtain ⟨⟨types, infos⟩, b₁, htables, h⟩ := Effect.ok_of_bind_ok h
  obtain ⟨ports, b₂, hports, h⟩ := Effect.ok_of_bind_ok h
  obtain ⟨_, _, hget, h⟩ := Effect.ok_of_bind_ok h
  cases hget
  obtain ⟨spaces, b₅, -, h⟩ := Effect.ok_of_bind_ok h
  obtain ⟨rules, b₆, -, h⟩ := Effect.ok_of_bind_ok h
  obtain ⟨_, _, hget, h⟩ := Effect.ok_of_bind_ok h
  cases hget
  cases h
  obtain ⟨htab, rfl⟩ := ok_of_liftBuild htables
  obtain ⟨hport, rfl⟩ := ok_of_liftBuild hports
  obtain ⟨hok, hids, -⟩ := (typeTables_spec _ (tablesOk_empty P)).2 _ htab
  exact lookup_unclaimedPortsOf (fun l k hk =>
    hok.lookup_eq_typeAt (fun l k hl => hids l (mem_keys_iff_lookup.2 ⟨k, hl⟩)) hk) hport id

/-! ## What a value has of an id -/

section Owns

variable (handle : ProtoHandle) (id : LocId)

/-- What a port is to the instance: a role and a type at its id. -/
def Port.owns {role : PortRole} (port : Port role) : Option PortInfo :=
  if port.c = ⟨handle, id⟩ then some ⟨role, port.typeId⟩ else none

def ClaimResult.owns : ClaimResult → Option PortInfo
  | gotGetter g => g.owns handle id
  | gotPutter p => p.owns handle id
  | notUnclaimed | typeMismatch => none

def Value.owns : Value → Option PortInfo
  | claimed result => result.owns handle id
  | port p => p.owns handle id

namespace Clients

/-- What the live values have of an id, each of them counted. -/
def owners (s : Clients D) : Multiset PortInfo := s.live.filterMap (Value.owns handle id)

/-- What the map and the live values have of an id together. -/
def holding (s : Clients D) : Multiset PortInfo :=
  Holdings.one ((s.protos.unclaimed handle).lookup id) + s.owners handle id

end Clients

end Owns

section Owners

variable {handle : ProtoHandle} {id : LocId}

theorem Instances.unclaimed_setUnclaimed (ps : Instances D) (h h' : ProtoHandle)
    (ports : HashMap LocId PortInfo) :
    (ps.setUnclaimed h ports).unclaimed h' = if h' = h then ports else ps.unclaimed h' := by
  rw [unclaimed, setUnclaimed, Function.update_apply]
  split
  · next heq => rfl
  · rfl

/-- A port that is dropped becomes the entry of its id, whatever that was. -/
theorem Port.lookup_drop {role : PortRole} (port : Port role) (ps : Instances D) :
    ((port.drop ps).unclaimed handle).lookup id =
      (port.owns handle id).or ((ps.unclaimed handle).lookup id) := by
  obtain ⟨⟨h, i⟩, t⟩ := port
  rw [drop, owns, Instances.unclaimed_setUnclaimed]
  by_cases hh : handle = h
  · subst hh
    by_cases hi : id = i
    · subst hi
      rw [if_pos rfl, if_pos rfl, AList.lookup_insert]
      rfl
    · rw [if_pos rfl, if_neg (fun hc => hi (congrArg PortCommon.id hc).symm),
        AList.lookup_insert_ne hi]
      rfl
  · rw [if_neg hh, if_neg fun hc => hh (congrArg PortCommon.p hc).symm]
    rfl

theorem ClaimResult.lookup_drop (result : ClaimResult) (ps : Instances D) :
    ((result.drop ps).unclaimed handle).lookup id =
      (result.owns handle id).or ((ps.unclaimed handle).lookup id) := by
  cases result with
  | gotGetter g => exact g.lookup_drop ps
  | gotPutter p => exact p.lookup_drop ps
  | notUnclaimed | typeMismatch => rfl

theorem Value.lookup_drop (value : Value) (ps : Instances D) :
    ((value.drop ps).unclaimed handle).lookup id =
      (value.owns handle id).or ((ps.unclaimed handle).lookup id) := by
  cases value with
  | claimed result => exact result.lookup_drop ps
  | port p => exact p.lookup_drop ps

/-- A claim takes the entry away and returns a port that is the same to the
instance, or returns none and does nothing. -/
theorem claim_cases (handle : ProtoHandle) (t : TypeId) (id : LocId) (ps : Instances D) :
    (∃ info, (ps.unclaimed handle).lookup id = some info ∧ info.typeId = t ∧
      (claim handle t id ps).1.claimedNothing = false ∧
      (claim handle t id ps).2 = ps.setUnclaimed handle ((ps.unclaimed handle).erase id) ∧
      ∀ h i, (claim handle t id ps).1.owns h i =
        if h = handle ∧ i = id then some info else none) ∨
    ((∀ info, (ps.unclaimed handle).lookup id = some info → info.typeId ≠ t) ∧
      (claim handle t id ps).1.claimedNothing = true ∧ (claim handle t id ps).2 = ps ∧
      ∀ h i, (claim handle t id ps).1.owns h i = none) := by
  rw [claim]
  cases hinfo : (ps.unclaimed handle).lookup id with
  | none => exact .inr ⟨nofun, rfl, rfl, fun _ _ => rfl⟩
  | some info =>
      dsimp only
      by_cases ht : info.typeId = t
      · subst ht
        rw [if_pos rfl]
        have howns : ∀ {role : PortRole} (h : ProtoHandle) (i : LocId),
            (⟨⟨handle, id⟩, info.typeId⟩ : Port role).owns h i =
              if h = handle ∧ i = id then some ⟨role, info.typeId⟩ else none := by
          intro role h i
          rw [Port.owns]
          refine if_congr ?_ rfl rfl
          rw [PortCommon.mk.injEq, eq_comm, and_congr_right_iff]
          exact fun _ => eq_comm
        refine .inl ⟨info, rfl, rfl, ?_⟩
        obtain ⟨role, t⟩ := info
        cases role with
        | putter | getter => exact ⟨rfl, rfl, howns⟩
      · rw [if_neg ht]
        refine .inr ⟨fun info' h => ?_, rfl, rfl, fun _ _ => rfl⟩
        cases h
        exact ht

theorem ClaimResult.tryInto_cases (result : ClaimResult) (role : PortRole) (ps : Instances D) :
    (∃ port : Port role, result.tryInto role ps = (.ok port, ps) ∧
      ∀ h i, port.owns h i = result.owns h i) ∨
    result.tryInto role ps = (.error true, result.drop ps) := by
  cases role with
  | putter | getter =>
      cases result with
      | gotPutter p | gotGetter p =>
          first
            | exact .inl ⟨p, rfl, fun _ _ => rfl⟩
            | exact .inr rfl
      | notUnclaimed | typeMismatch => exact .inr rfl

end Owners

/-! ## Nothing is made or lost -/

namespace Clients

theorem owners_cons (handle : ProtoHandle) (id : LocId) (protos : Instances D) (value : Value)
    (live : Multiset Value) :
    (⟨protos, value ::ₘ live⟩ : Clients D).owners handle id =
      Holdings.one (value.owns handle id) + live.filterMap (Value.owns handle id) :=
  Holdings.filterMap_cons _ _ _

theorem holding_drop {handle : ProtoHandle} {id : LocId} {protos : Instances D} {value : Value}
    {live : Multiset Value}
    (h : Multiset.card ((⟨protos, value ::ₘ live⟩ : Clients D).holding handle id) ≤ 1) :
    (⟨value.drop protos, live⟩ : Clients D).holding handle id =
      (⟨protos, value ::ₘ live⟩ : Clients D).holding handle id := by
  rw [holding, owners_cons] at h
  rw [holding, holding, owners_cons]
  show Holdings.one (((value.drop protos).unclaimed handle).lookup id) + live.filterMap _ = _
  rw [value.lookup_drop]
  exact Holdings.one_or_add h

/-- A claim moves what it takes from the map into its result. -/
theorem holding_claim (handle handle' : ProtoHandle) (id id' : LocId) (t : TypeId)
    (s : Clients D) :
    (⟨(claim handle' t id' s.protos).2, .claimed (claim handle' t id' s.protos).1 ::ₘ s.live⟩ :
      Clients D).holding handle id = s.holding handle id := by
  rw [holding, owners_cons, ← add_assoc, holding, owners]
  refine congrArg (· + _) ?_
  show Holdings.one (((claim handle' t id' s.protos).2.unclaimed handle).lookup id) +
    Holdings.one ((claim handle' t id' s.protos).1.owns handle id) = _
  rcases claim_cases handle' t id' s.protos with ⟨info, hinfo, -, -, hps, howns⟩ |
    ⟨-, -, hps, howns⟩
  · rw [hps, howns, Instances.unclaimed_setUnclaimed]
    by_cases hh : handle = handle'
    · subst hh
      by_cases hi : id = id'
      · subst hi
        rw [if_pos rfl, if_pos ⟨rfl, rfl⟩, AList.lookup_erase, hinfo, Holdings.one_none, zero_add]
      · rw [if_pos rfl, if_neg fun hc => hi hc.2, AList.lookup_erase_ne hi, Holdings.one_none,
          add_zero]
    · rw [if_neg hh, if_neg fun hc => hh hc.1, Holdings.one_none, add_zero]
  · rw [hps, howns, Holdings.one_none, add_zero]

theorem holding_tryInto {handle : ProtoHandle} {id : LocId} {protos : Instances D}
    {result : ClaimResult} {live : Multiset Value} (role : PortRole)
    (h : Multiset.card ((⟨protos, .claimed result ::ₘ live⟩ : Clients D).holding handle id) ≤ 1) :
    (⟨(result.tryInto role protos).2, Value.converted (result.tryInto role protos).1 + live⟩ :
      Clients D).holding handle id =
      (⟨protos, .claimed result ::ₘ live⟩ : Clients D).holding handle id := by
  rcases result.tryInto_cases role protos with ⟨port, hres, howns⟩ | hres
  · rw [hres, Value.converted, Multiset.singleton_add, holding, holding, owners_cons, owners_cons]
    show _ + (Holdings.one (port.owns handle id) + _) = _
    rw [howns]
    rfl
  · rw [hres, Value.converted, zero_add]
    exact holding_drop h

end Clients

/-- What a step does for an id that at most one holder has. -/
theorem ClaimStep.holding_eq {s t : Clients D} {a : ClaimAct} (h : ClaimStep s a t)
    {handle : ProtoHandle} {id : LocId} (hone : Multiset.card (s.holding handle id) ≤ 1) :
    t.holding handle id = s.holding handle id := by
  cases h with
  | claim handle' t id' => exact s.holding_claim handle handle' id id' t
  | tryInto role result => exact Clients.holding_tryInto role hone
  | drop value => exact Clients.holding_drop hone
  | elsewhere hsame =>
      rw [Clients.holding, Clients.holding, hsame]
      rfl

/-- What any steps do. -/
theorem Clients.reach_holding {s t : Clients D} {hist : List ClaimAct}
    (hr : Run.Reach ClaimStep s hist t) {handle : ProtoHandle} {id : LocId}
    (hone : Multiset.card (s.holding handle id) ≤ 1) :
    t.holding handle id = s.holding handle id :=
  Run.Reach.preserves (P := fun u => u.holding handle id = s.holding handle id) rfl
    (fun heq hs => (hs.holding_eq (by rwa [heq])).trans heq) hr

/-! ## Claims are exclusive and reversible -/

/-- The ports of one definition, with the map of one instance and whatever is
live. -/
structure Exclusive (P : Proto D) (handle : ProtoHandle) (s : Clients D) : Prop where
  /-- a port is in the map or has one owner, and keeps its role and type -/
  placed : ∀ id info, P.portInfo id = some info →
    ((s.protos.unclaimed handle).lookup id = some info ∧ s.owners handle id = 0) ∨
      ((s.protos.unclaimed handle).lookup id = none ∧ s.owners handle id = {info})
  /-- nothing else is a port -/
  noOther : ∀ id, P.portInfo id = none →
    (s.protos.unclaimed handle).lookup id = none ∧ s.owners handle id = 0
  /-- a claim succeeds iff the id is unclaimed and the type is its type -/
  succeeds_iff : ∀ t id, (claim handle t id s.protos).1.claimedNothing = false ↔
    (s.protos.unclaimed handle).lookup id ≠ none ∧
      ∃ info, P.portInfo id = some info ∧ info.typeId = t
  /-- and then returns the port, with its role and type -/
  granted : ∀ t id, (claim handle t id s.protos).1.claimedNothing = false →
    (claim handle t id s.protos).1.owns handle id = P.portInfo id
  /-- one that fails does nothing, and returns no port -/
  refused : ∀ t id, (claim handle t id s.protos).1.claimedNothing = true →
    (claim handle t id s.protos).2 = s.protos ∧
      ∀ h i, (claim handle t id s.protos).1.owns h i = none
  /-- a conversion that fails makes the port claimable again -/
  unconverted : ∀ result role, .claimed result ∈ s.live →
    (result.tryInto role s.protos).1 = .error true → ∀ id info,
      result.owns handle id = some info →
        (claim handle info.typeId id (result.tryInto role s.protos).2).1.owns handle id =
          some info
  /-- and so does a drop -/
  dropped : ∀ value ∈ s.live, ∀ id info, value.owns handle id = some info →
    (claim handle info.typeId id (value.drop s.protos)).1.owns handle id = some info

/-- A claim of the right type finds the entry. -/
theorem owns_claim {handle : ProtoHandle} {id : LocId} {info : PortInfo} {ps : Instances D}
    (h : (ps.unclaimed handle).lookup id = some info) :
    (claim handle info.typeId id ps).1.owns handle id = some info := by
  rcases claim_cases handle info.typeId id ps with ⟨info', hinfo, -, -, -, howns⟩ | ⟨hne, -⟩
  · rw [howns, if_pos ⟨rfl, rfl⟩, ← hinfo, h]
  · exact absurd rfl (hne info h)

/-- Where map and owners have of each id what the definition says of it, that
is all there is to say. -/
theorem exclusive_of_holding {P : Proto D} {handle : ProtoHandle} {s : Clients D}
    (h : ∀ id, s.holding handle id = Holdings.one (P.portInfo id)) : Exclusive P handle s := by
  have hplaced : ∀ id, ((s.protos.unclaimed handle).lookup id = P.portInfo id ∧
      s.owners handle id = 0) ∨ ((s.protos.unclaimed handle).lookup id = none ∧
        s.owners handle id = Holdings.one (P.portInfo id)) :=
    fun id => Holdings.eq_or_of_one_add (h id)
  have hentry : ∀ {id info}, (s.protos.unclaimed handle).lookup id = some info →
      P.portInfo id = some info := by
    intro id info hinfo
    rcases hplaced id with ⟨heq, -⟩ | ⟨hnone, -⟩
    · rw [← heq, hinfo]
    · rw [hinfo] at hnone
      cases hnone
  refine ⟨?_, ?_, ?_, ?_, ?_, ?_, ?_⟩
  · intro id info hinfo
    have := hplaced id
    rwa [hinfo] at this
  · intro id hinfo
    rcases hplaced id with ⟨heq, ho⟩ | ⟨hnone, ho⟩
    · exact ⟨heq.trans hinfo, ho⟩
    · exact ⟨hnone, by rw [ho, hinfo, Holdings.one_none]⟩
  · intro t id
    rcases claim_cases handle t id s.protos with ⟨info, hinfo, ht, hgot, -⟩ | ⟨hne, hnot, -⟩
    · exact iff_of_true hgot ⟨by rw [hinfo]; exact nofun, info, hentry hinfo, ht⟩
    · rw [hnot]
      refine iff_of_false nofun ?_
      rintro ⟨hsome, info, hinfo, ht⟩
      obtain ⟨info', hinfo'⟩ := Option.ne_none_iff_exists'.1 hsome
      cases (hentry hinfo').symm.trans hinfo
      exact hne info hinfo' ht
  · intro t id hgot
    rcases claim_cases handle t id s.protos with ⟨info, hinfo, -, -, -, howns⟩ | ⟨-, hnot, -⟩
    · rw [howns, if_pos ⟨rfl, rfl⟩, hentry hinfo]
    · rw [hgot] at hnot
      cases hnot
  · intro t id hnot
    rcases claim_cases handle t id s.protos with ⟨info, -, -, hgot, -⟩ | ⟨-, -, hps, howns⟩
    · rw [hnot] at hgot
      cases hgot
    · exact ⟨hps, howns⟩
  · intro result role _ herr id info howns
    rcases result.tryInto_cases role s.protos with ⟨port, hres, -⟩ | hres
    · rw [hres] at herr
      cases herr
    · rw [hres]
      refine owns_claim ?_
      rw [result.lookup_drop, howns, Option.some_or]
  · intro value _ id info howns
    refine owns_claim ?_
    rw [value.lookup_drop, howns, Option.some_or]

/-- Port claims are exclusive and reversible: from a new instance on, after
any claims, conversions and drops, each port is in `unclaimed_ports` or has one
owner. -/
theorem exclusive_of_reach (P : Proto D) {b b' : Build D} {s : ProtoAll D}
    (hfin : (finish P).run b = .ok s b') {handle : ProtoHandle} {start t : Clients D}
    (hnew : start.protos handle = s) (hnone : ∀ id, start.owners handle id = 0)
    {hist : List ClaimAct} (hr : Run.Reach ClaimStep start hist t) : Exclusive P handle t := by
  have hstart : ∀ id, start.holding handle id = Holdings.one (P.portInfo id) := by
    intro id
    rw [Clients.holding, hnone, add_zero, Instances.unclaimed, hnew,
      unclaimedPorts_of_finish hfin]
  refine exclusive_of_holding fun id => ?_
  rw [Clients.reach_holding hr, hstart]
  rw [hstart]
  exact Holdings.card_one_le _

/-- A putter claimed and dropped again. -/
theorem exclusive_channel : ∃ s b t hist, (finish (channel 1)).run (.new .empty) = .ok s b ∧
    Run.Reach ClaimStep ⟨fun _ => s, 0⟩ hist t ∧ hist.length = 2 ∧ Exclusive (channel 1) 0 t := by
  obtain ⟨s, b, hfin⟩ := finish_channel (g := 1) (by decide)
  have hclaim := ClaimStep.claim (s := ⟨fun _ => s, 0⟩) 0 1 0
  have hrun := (Run.Reach.single hclaim).tail (.drop _)
  exact ⟨s, b, _, _, hfin, hrun, rfl,
    exclusive_of_reach (channel 1) hfin rfl (fun _ => rfl) hrun⟩

end ReoRs
