import ReoRs.Proofs.Claims
import ReoRs.Proto.Groups

/-!
# The members of a port group

A group has three records of its members: the bits it flags, the entries it
returns to `unclaimed_ports`, and the list that a callback indexes. `add_putter`
and `add_getter` write none of them. What they do is claim a port, and remember
the instance. So the records are right for as long as no port has been added,
and from the first one on they are wrong for good; the port it claimed is
nobody's to un-claim.
-/

namespace ReoRs

variable {D : Type}

/-! ## A group among the clients -/

/-- `add_putter` and `add_getter`, by the role. -/
def PortGroup.addPort : (role : PortRole) → ProtoHandle → TypeId → LocId → PortGroup →
    Instances D → Except GroupAddError (Grouped role) × PortGroup × Instances D
  | .putter => addPutter
  | .getter => addGetter

structure GroupClients (D : Type) where
  clients : Clients D
  group : PortGroup
  /-- the ports whose add returned `Ok`, newest first -/
  added : List (LocId × PortInfo)

namespace GroupClients

inductive Act where
  | add (role : PortRole) (handle : ProtoHandle) (t : TypeId) (id : LocId)
  | outside (a : ClaimAct)

def start (clients : Clients D) : GroupClients D := ⟨clients, .new, []⟩

/-- What a call of `add_putter` or `add_getter` leaves. -/
def addPort (role : PortRole) (handle : ProtoHandle) (t : TypeId) (id : LocId)
    (s : GroupClients D) : GroupClients D :=
  let (result, group, protos) := s.group.addPort role handle t id s.clients.protos
  { clients := { s.clients with protos }
    group
    added := match result with
      | .ok m => (m.c.id, ⟨role, m.typeId⟩) :: s.added
      | .error _ => s.added }

inductive Step : GroupClients D → Act → GroupClients D → Prop where
  | add {s : GroupClients D} (role : PortRole) (handle : ProtoHandle) (t : TypeId) (id : LocId) :
      Step s (.add role handle t id) (s.addPort role handle t id)
  | outside {s : GroupClients D} {a : ClaimAct} {clients : Clients D}
      (hstep : ClaimStep s.clients a clients) : Step s (.outside a) { s with clients }

/-- The id is unclaimed, with this role and type, and the group is of this
instance or of none yet. -/
def Addable (s : GroupClients D) : Act → Prop
  | .add role handle t id =>
      (s.clients.protos.unclaimed handle).lookup id = some ⟨role, t⟩ ∧
        (s.group.maybeProto = none ∨ s.group.maybeProto = some handle)
  | .outside _ => False

/-- The three records are of the ports that were added, an add that fails
does nothing, and dropping the group returns its ports. -/
structure OwnsAdded (s : GroupClients D) : Prop where
  members : ∀ id, s.group.members.test id = true ↔ ∃ info, (id, info) ∈ s.added
  memberInfo : ∀ id info, s.group.memberInfo.lookup id = some info ↔ (id, info) ∈ s.added
  indexed : ∀ id, id ∈ s.group.membersIndexed ↔ ∃ info, (id, info) ∈ s.added
  nodup : s.group.membersIndexed.Nodup
  failed : ∀ role handle t id e,
    (s.group.addPort role handle t id s.clients.protos).1 = .error e →
      (s.addPort role handle t id).group = s.group ∧
        ∀ h i, ((s.addPort role handle t id).clients.protos.unclaimed h).lookup i =
          (s.clients.protos.unclaimed h).lookup i
  returned : ∃ ps, s.group.drop s.clients.protos = .ok ps ∧ ∀ handle,
    s.group.maybeProto = some handle → ∀ id info, (id, info) ∈ s.added →
      (ps.unclaimed handle).lookup id = some info

end GroupClients

/-! ## One add -/

theorem lookup_unclaimed_erase (ps : Instances D) (h handle : ProtoHandle) (id i : LocId) :
    ((ps.setUnclaimed handle ((ps.unclaimed handle).erase id)).unclaimed h).lookup i =
      if h = handle ∧ i = id then none else (ps.unclaimed h).lookup i := by
  rw [Instances.unclaimed_setUnclaimed]
  by_cases hh : h = handle
  · subst hh
    rw [if_pos rfl]
    by_cases hi : i = id
    · rw [hi, if_pos ⟨rfl, rfl⟩, AList.lookup_erase]
    · rw [if_neg fun hc => hi hc.2, AList.lookup_erase_ne hi]
  · rw [if_neg hh, if_neg fun hc => hh hc.1]

/-- An add that finds what it wants claims it and remembers the instance. -/
theorem PortGroup.addPort_of_addable {role : PortRole} {handle : ProtoHandle} {t : TypeId}
    {id : LocId} {group : PortGroup} {ps : Instances D}
    (hport : (ps.unclaimed handle).lookup id = some ⟨role, t⟩)
    (hproto : group.maybeProto = none ∨ group.maybeProto = some handle) :
    group.addPort role handle t id ps = (.ok ⟨⟨handle, id⟩, t⟩,
      { group with maybeProto := some handle },
      ps.setUnclaimed handle ((ps.unclaimed handle).erase id)) := by
  have hget : group.maybeProto.getD handle = handle := by
    rcases hproto with h | h
    · rw [h]; rfl
    · rw [h]; rfl
  cases role with
  | putter | getter =>
      simp only [addPort, addPutter, addGetter, add, claim, hport, if_pos, ClaimResult.port, hget,
        ne_eq, not_true_eq_false, if_false]
      rfl

/-- A port that is claimed and dropped at once leaves the map as it was. -/
theorem Port.lookup_drop_claimed {role : PortRole} {handle : ProtoHandle} {t : TypeId} {id : LocId}
    {ps : Instances D} (hport : (ps.unclaimed handle).lookup id = some ⟨role, t⟩)
    (h : ProtoHandle) (i : LocId) :
    ((Port.drop (⟨⟨handle, id⟩, t⟩ : Port role)
      (ps.setUnclaimed handle ((ps.unclaimed handle).erase id))).unclaimed h).lookup i =
        (ps.unclaimed h).lookup i := by
  rw [Port.lookup_drop, lookup_unclaimed_erase, Port.owns]
  by_cases hc : h = handle ∧ i = id
  · obtain ⟨rfl, rfl⟩ := hc
    rw [if_pos rfl, hport, Option.some_or]
  · rw [if_neg hc, if_neg, Option.none_or]
    intro heq
    cases heq
    exact hc ⟨rfl, rfl⟩

/-- Any other add gives back what it claimed. -/
theorem PortGroup.addPort_of_not_addable {role : PortRole} {handle : ProtoHandle} {t : TypeId}
    {id : LocId} {group : PortGroup} {ps : Instances D}
    (hnot : ¬ ((ps.unclaimed handle).lookup id = some ⟨role, t⟩ ∧
      (group.maybeProto = none ∨ group.maybeProto = some handle))) :
    (∃ e, (group.addPort role handle t id ps).1 = .error e) ∧
      (group.addPort role handle t id ps).2.1 = group ∧
      ∀ h i, ((group.addPort role handle t id ps).2.2.unclaimed h).lookup i =
        (ps.unclaimed h).lookup i := by
  have hadd : ∃ wrongRole, group.addPort role handle t id ps =
      group.add role wrongRole handle t id ps := by
    cases role with
    | putter | getter => exact ⟨_, rfl⟩
  obtain ⟨wrongRole, hadd⟩ := hadd
  rw [hadd, add, claim]
  cases hinfo : (ps.unclaimed handle).lookup id with
  | none =>
      cases role with
      | putter | getter => exact ⟨⟨_, rfl⟩, rfl, fun _ _ => rfl⟩
  | some info =>
      dsimp only
      by_cases ht : info.typeId = t
      · subst ht
        rw [if_pos rfl]
        obtain ⟨role', t⟩ := info
        by_cases hrole : role' = role
        · -- the port is wanted, but the group is of another instance
          subst hrole
          have hother : ∃ p, group.maybeProto = some p ∧ p ≠ handle := by
            cases hp : group.maybeProto with
            | none => exact absurd ⟨hinfo, .inl hp⟩ hnot
            | some p => exact ⟨p, rfl, fun h => hnot ⟨hinfo, .inr (h ▸ hp)⟩⟩
          obtain ⟨p, hp, hne⟩ := hother
          have hgroup : { group with maybeProto := some p } = group := by rw [← hp]
          cases role' with
          | putter | getter =>
              simp only [ClaimResult.port, hp, Option.getD_some, hne, ne_eq, not_false_eq_true,
                if_true, hgroup]
              exact ⟨⟨_, rfl⟩, trivial, Port.lookup_drop_claimed hinfo⟩
        · cases role with
          | putter | getter =>
              cases role' with
              | putter | getter =>
                  first
                    | exact absurd rfl hrole
                    | exact ⟨⟨_, rfl⟩, rfl, Port.lookup_drop_claimed hinfo⟩
      · rw [if_neg ht]
        cases role with
        | putter | getter => exact ⟨⟨_, rfl⟩, rfl, fun _ _ => rfl⟩

namespace GroupClients

theorem added_addPort (s : GroupClients D) (role : PortRole) (handle : ProtoHandle) (t : TypeId)
    (id : LocId) : (s.addPort role handle t id).added =
      match (s.group.addPort role handle t id s.clients.protos).1 with
      | .ok m => (m.c.id, ⟨role, m.typeId⟩) :: s.added
      | .error _ => s.added := rfl

theorem addPort_of_addable {s : GroupClients D} {role : PortRole} {handle : ProtoHandle}
    {t : TypeId} {id : LocId} (h : s.Addable (.add role handle t id)) :
    (s.addPort role handle t id).added = (id, ⟨role, t⟩) :: s.added := by
  rw [added_addPort, PortGroup.addPort_of_addable h.1 h.2]

theorem addPort_of_not_addable {s : GroupClients D} {role : PortRole} {handle : ProtoHandle}
    {t : TypeId} {id : LocId} (h : ¬ s.Addable (.add role handle t id)) :
    (s.addPort role handle t id).added = s.added ∧
      (s.addPort role handle t id).group = s.group ∧
      ∀ h i, ((s.addPort role handle t id).clients.protos.unclaimed h).lookup i =
        (s.clients.protos.unclaimed h).lookup i := by
  obtain ⟨⟨e, he⟩, hgroup, hlookup⟩ := PortGroup.addPort_of_not_addable h
  refine ⟨?_, hgroup, hlookup⟩
  rw [added_addPort, he]

/-! ## Runs -/

/-- Nothing is written to a record. -/
def Unwritten (s : GroupClients D) : Prop :=
  s.group.members = ∅ ∧ s.group.memberInfo = ∅ ∧ s.group.membersIndexed = []

theorem Step.unwritten {s u : GroupClients D} {a : Act} (h : Step s a u) (hs : s.Unwritten) :
    u.Unwritten := by
  cases h with
  | outside _ => exact hs
  | add role handle t id =>
      by_cases hadd : s.Addable (.add role handle t id)
      · show PortGroup.members _ = _ ∧ PortGroup.memberInfo _ = _ ∧ _
        rw [addPort, PortGroup.addPort_of_addable hadd.1 hadd.2]
        exact hs
      · rw [Unwritten, (addPort_of_not_addable hadd).2.1]
        exact hs

theorem Step.added_eq_nil {s u : GroupClients D} {a : Act} (h : Step s a u) (hu : u.added = []) :
    s.added = [] ∧ ¬ s.Addable a := by
  cases h with
  | outside _ => exact ⟨hu, id⟩
  | add role handle t id =>
      by_cases hadd : s.Addable (.add role handle t id)
      · rw [addPort_of_addable hadd] at hu
        cases hu
      · exact ⟨(addPort_of_not_addable hadd).1.symm.trans hu, hadd⟩

theorem Step.added_of_not_addable {s u : GroupClients D} {a : Act} (h : Step s a u)
    (hadd : ¬ s.Addable a) : u.added = s.added := by
  cases h with
  | outside _ => rfl
  | add role handle t id => exact (addPort_of_not_addable hadd).1

/-- Empty records are right if nothing was added. -/
theorem ownsAdded_of_added_eq_nil {s : GroupClients D} (hs : s.Unwritten) (hnil : s.added = []) :
    s.OwnsAdded := by
  obtain ⟨hmembers, hinfo, hindexed⟩ := hs
  have hnone : ∀ {id info}, (id, info) ∉ s.added := by
    intro id info
    rw [hnil]
    exact List.not_mem_nil
  refine ⟨fun id => ?_, fun id info => ?_, fun id => ?_, ?_, ?_, ?_⟩
  · rw [hmembers, BitSet.test_empty]
    exact iff_of_false nofun fun ⟨_, h⟩ => hnone h
  · rw [hinfo, AList.lookup_empty]
    exact iff_of_false nofun hnone
  · rw [hindexed]
    exact iff_of_false List.not_mem_nil fun ⟨_, h⟩ => hnone h
  · rw [hindexed]
    exact List.nodup_nil
  · intro role handle t id e he
    have hadd : ¬ s.Addable (.add role handle t id) := by
      intro hadd
      rw [PortGroup.addPort_of_addable hadd.1 hadd.2] at he
      cases he
    exact (addPort_of_not_addable hadd).2
  · rw [PortGroup.drop]
    cases hp : s.group.maybeProto with
    | some p => exact ⟨_, rfl, fun _ _ _ _ h => absurd h hnone⟩
    | none =>
        rw [hindexed]
        exact ⟨_, rfl, nofun⟩

/-- After any adds, and claims outside the group, the group owns exactly the
ports added to it iff none was: no add of the run was one that succeeds. -/
theorem ownsAdded_iff_of_reach {clients : Clients D} {hist : List Act} {s : GroupClients D}
    (hr : Run.Reach Step (start clients) hist s) :
    s.OwnsAdded ↔ Run.Reach (fun s a t => Step s a t ∧ ¬ s.Addable a) (start clients) hist s := by
  have hunwritten : s.Unwritten :=
    Run.Reach.preserves (P := Unwritten) ⟨rfl, rfl, rfl⟩ (fun hs h => h.unwritten hs) hr
  constructor
  · intro howns
    have hnil : s.added = [] := by
      cases hadded : s.added with
      | nil => rfl
      | cons port rest =>
          have hset := (howns.members port.1).2 ⟨port.2, by rw [hadded]; exact List.mem_cons_self⟩
          rw [hunwritten.1, BitSet.test_empty] at hset
          cases hset
    clear howns hunwritten
    induction hr with
    | refl => exact .refl
    | tail _ hstep ih =>
        obtain ⟨hbefore, hadd⟩ := hstep.added_eq_nil hnil
        exact .tail (ih hbefore) ⟨hstep, hadd⟩
  · intro hr'
    refine ownsAdded_of_added_eq_nil hunwritten ?_
    exact Run.Reach.preserves (P := fun s => s.added = []) rfl
      (fun hs h => (h.1.added_of_not_addable h.2).trans hs) hr'

/-- The port 1 of a channel is no putter. -/
theorem ownsAdded_channel : ∃ s b t, (finish (channel 1)).run (.new .empty) = .ok s b ∧
    Run.Reach Step (start ⟨fun _ => s, 0⟩) [.add .putter 0 1 1] t ∧
    (t.OwnsAdded ↔ Run.Reach (fun s a t => Step s a t ∧ ¬ s.Addable a) (start ⟨fun _ => s, 0⟩)
      [.add .putter 0 1 1] t) := by
  obtain ⟨s, b, hfin⟩ := finish_channel (g := 1) (by decide)
  have hrun := Run.Reach.single (Step.add (s := start ⟨fun _ => s, 0⟩) .putter 0 1 1)
  exact ⟨s, b, _, hfin, hrun, ownsAdded_iff_of_reach hrun⟩

/-- Once the putter of a channel has been added, the group has a member that
its records do not have. -/
theorem not_ownsAdded_channel : ∃ s b t, (finish (channel 1)).run (.new .empty) = .ok s b ∧
    Run.Reach Step (start ⟨fun _ => s, 0⟩) [.add .putter 0 1 0] t ∧
    t.added = [(0, ⟨.putter, 1⟩)] ∧ ¬ t.OwnsAdded := by
  obtain ⟨s, b, hfin⟩ := finish_channel (g := 1) (by decide)
  have hadd : (start ⟨fun _ => s, 0⟩).Addable (.add .putter 0 1 0) :=
    ⟨unclaimedPorts_of_finish hfin 0, .inl rfl⟩
  have hadded := addPort_of_addable hadd
  refine ⟨s, b, _, hfin, .single (Step.add .putter 0 1 0), hadded, fun howns => ?_⟩
  have hset := (howns.members 0).2 ⟨⟨.putter, 1⟩, by rw [hadded]; exact List.mem_cons_self⟩
  rw [((Step.add .putter 0 1 0).unwritten ⟨rfl, rfl, rfl⟩).1, BitSet.test_empty] at hset
  cases hset

end GroupClients

end ReoRs
