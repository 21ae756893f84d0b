import ReoRs.Proofs.Asking

/-!
# While the instance is committed

A commitment counts down as the tentative ports come back, and
`ready_set_coordinate` tells them by the bit it clears: `set_to` returns what
the bit was, so `!set_to(my_id, false)` is true of the callers that were not
tentative. The countdown therefore runs on everyone else's calls. The ports
the rule waits for come and go without being counted, in whatever order they
come, and this is so of every committed instance.
-/

namespace ReoRs

variable {D : Type}

open ProtoAll

/-! ## What a commitment is to do -/

/-- `exhaust_rules` has committed the instance to a rule, and waits for the
tentative ports `S`, which are some of the rule's own. -/
structure CommittedTo (s : ProtoAll D) (i : RuleId) (rule : RunRule D) (S : List LocId) : Prop where
  found : s.r.rules[i]? = some rule
  commitment : s.w.commitment = some ⟨i, S.length⟩
  tentative : ∀ l, s.w.readyTentative.test l = true ↔ l ∈ S
  nodup : S.Nodup
  nonempty : S ≠ []
  own : ∀ l ∈ S, rule.guardReady.test l = true

/-- What an event is to do to a committed instance, after the events `h`. -/
structure Honours (rule : RunRule D) (S : List LocId) (h : List (CommitAct × Bool))
    (t : ProtoAll D) (a : CommitAct) (went : Bool) (u : ProtoAll D) : Prop where
  /-- The actions run as the last of `S` reports, and only then. -/
  last : went = true ↔ ∃ l ∈ S, a = .report l ∧ .report l ∉ h.map Prod.fst ∧
    ∀ k ∈ S, k ≠ l → .report k ∈ h.map Prod.fst
  outside : ∀ l, a.caller = some l → l ∉ S → u.w.commitment = t.w.commitment
  /-- No other rule fires. -/
  quiet : went = false → u.w.memoryBits = t.w.memoryBits
  /-- Nothing the rule counted on has been withdrawn. -/
  intact : went = true → ∀ l, rule.guardReady.test l = true →
    t.w.active.ready.test l = true ∨ a.caller = some l

/-- Every event does so, as long as the rule's actions have not run. -/
def CommitmentHonoured (s : ProtoAll D) (rule : RunRule D) (S : List LocId) : Prop :=
  ∀ h t, Run.Reach CommitStep s h t → (∀ x ∈ h, x.2 = false) →
    ∀ a went u, CommitStep t (a, went) u → Honours rule S h t a went u

/-! ## What a call does -/

/-- The caller is ready, and not tentative any more. -/
def ProtoAll.checkIn (s : ProtoAll D) (l : LocId) : ProtoAll D :=
  { s.setReady l true with w := { (s.setReady l true).w with
      readyTentative := (s.w.readyTentative.setTo l false).1 } }

def ProtoAll.recount (s : ProtoAll D) (c : Commitment) : ProtoAll D :=
  { s with w := { s.w with commitment := some c } }

/-- A tentative caller is not counted. -/
theorem run_readySet_tentative {s : ProtoAll D} {c : Commitment} {l : LocId}
    (hc : s.w.commitment = some c) (hl : s.w.readyTentative.test l = true) :
    (readySet l).run s = .ok false (s.checkIn l) := by
  obtain ⟨r, ⟨bits, active, commitment, tentative, waiters, ports⟩, heap⟩ := s
  obtain rfl : commitment = some c := hc
  have hwas : (tentative.setTo l false).2 = true := (BitSet.setTo_snd _ _ _).trans hl
  rw [readySet, EStateM.run_bind, EStateM.run_modify]
  simp only [EStateM.run_bind, EStateM.run_get, ProtoAll.setReady, hwas]
  rfl

/-- Any other caller is, in its place. -/
theorem run_readySet_other {s : ProtoAll D} {c : Commitment} {l : LocId}
    (hc : s.w.commitment = some c) (hl : s.w.readyTentative.test l = false)
    (hmore : c.awaiting - 1 ≠ 0) :
    (readySet l).run s =
      .ok false ((s.checkIn l).recount { c with awaiting := c.awaiting - 1 }) := by
  obtain ⟨r, ⟨bits, active, commitment, tentative, waiters, ports⟩, heap⟩ := s
  obtain rfl : commitment = some c := hc
  have hwas : (tentative.setTo l false).2 = false := (BitSet.setTo_snd _ _ _).trans hl
  have hpos : c.awaiting ≠ 0 := by omega
  rw [readySet, EStateM.run_bind, EStateM.run_modify]
  simp only [EStateM.run_bind, EStateM.run_get, ProtoAll.setReady, hwas, Bool.not_false, if_true]
  simp only [EStateM.run_set, hpos, hmore, if_false]
  rfl

/-- The tentative ports may report one after the other; the commitment stays
as it was. -/
theorem reach_reports {c : Commitment} : ∀ {ls : List LocId} {s : ProtoAll D}, ls.Nodup →
    s.w.commitment = some c → (∀ l ∈ ls, s.w.readyTentative.test l = true) →
      ∃ t, Run.Reach CommitStep s (ls.reverse.map fun l => (.report l, false)) t ∧
        t.w.commitment = some c ∧
        ∀ l, l ∉ ls → t.w.readyTentative.test l = s.w.readyTentative.test l
  | [], s, _, hc, _ => ⟨s, .refl, hc, fun _ _ => rfl⟩
  | k :: ls, s, hnd, hc, htent => by
      rw [List.nodup_cons] at hnd
      have hrun := run_readySet_tentative hc (htent k List.mem_cons_self)
      have hother : ∀ l, l ≠ k →
          (s.checkIn k).w.readyTentative.test l = s.w.readyTentative.test l :=
        fun l hl => BitSet.test_setTo_ne _ _ hl
      have hck : (s.checkIn k).w.commitment = some c := hc
      obtain ⟨t, hreach, hct, hrest⟩ := reach_reports hnd.2 hck fun l hl => by
        rw [hother l fun h => hnd.1 (h ▸ hl)]
        exact htent l (List.mem_cons_of_mem k hl)
      refine ⟨t, ?_, hct, ?_⟩
      · have := Run.Reach.head (CommitStep.report hrun) hreach
        rwa [List.reverse_cons, List.map_append]
      · intro l hl
        rw [List.mem_cons, not_or] at hl
        rw [hrest l hl.2, hother l hl.1]

/-- The last report does not run the rule. -/
theorem CommittedTo.not_honoured {s : ProtoAll D} {i : RuleId} {rule : RunRule D} {S : List LocId}
    (hc : CommittedTo s i rule S) : ¬ CommitmentHonoured s rule S := by
  intro h
  obtain ⟨first, last, rfl⟩ : ∃ first last, S = first ++ [last] :=
    ⟨_, _, (List.dropLast_append_getLast hc.nonempty).symm⟩
  obtain ⟨hnd, -, hapart⟩ := List.nodup_append.1 hc.nodup
  have hnot : last ∉ first := fun hin => hapart last hin last (List.mem_singleton_self last) rfl
  obtain ⟨t, hreach, hct, htent⟩ := reach_reports hnd hc.commitment fun l hl =>
    (hc.tentative l).2 (List.mem_append_left _ hl)
  have hlast : t.w.readyTentative.test last = true := by
    rw [htent last hnot]
    exact (hc.tentative last).2 (List.mem_append_right _ (List.mem_singleton_self last))
  have hrun := run_readySet_tentative hct hlast
  have hhist : ∀ k, CommitAct.report k ∈ (first.reverse.map fun l => (CommitAct.report l,
      false)).map Prod.fst ↔ k ∈ first := by
    intro k
    simp
  have hquiet : ∀ x ∈ first.reverse.map fun l => (CommitAct.report l, false), x.2 = false := by
    intro x hx
    obtain ⟨l, -, rfl⟩ := List.mem_map.1 hx
    rfl
  have hhon := h _ t hreach hquiet (.report last) false _ (.report hrun)
  have hwent : false = true := hhon.last.2 ⟨last,
    List.mem_append_right _ (List.mem_singleton_self last), rfl,
    fun hin => hnot ((hhist last).1 hin), fun k hk hne => (hhist k).2 (by
      rcases List.mem_append.1 hk with hk | hk
      · exact hk
      · exact absurd (List.mem_singleton.1 hk) hne)⟩
  cases hwent

/-- No commitment is honoured. The reports of the ports it waits for leave it
as it is, and every other call counts it down. -/
theorem commitment_not_honoured {s : ProtoAll D} {i : RuleId} {rule : RunRule D} {S : List LocId}
    (hc : CommittedTo s i rule S) :
    ¬ CommitmentHonoured s rule S ∧
      (∀ l ∈ S, ∃ t, (readySet l).run s = .ok false t ∧ t.w.commitment = s.w.commitment) ∧
      ∀ l, l ∉ S → 1 < S.length → ∃ t, (readySet l).run s = .ok false t ∧
        t.w.commitment = some ⟨i, S.length - 1⟩ := by
  refine ⟨hc.not_honoured, ?_, ?_⟩
  · intro l hl
    exact ⟨_, run_readySet_tentative hc.commitment ((hc.tentative l).2 hl), rfl⟩
  · intro l hl hmore
    have hnot : s.w.readyTentative.test l = false := by
      cases h : s.w.readyTentative.test l with
      | false => rfl
      | true => exact absurd ((hc.tentative l).1 h) hl
    exact ⟨_, run_readySet_other hc.commitment hnot (Nat.sub_ne_zero_of_lt hmore), rfl⟩

/-! ## The putter of a channel -/

/-- What a pass that commits leaves behind. -/
def ProtoAll.committed (s : ProtoAll D) (i : RuleId) (rule : RunRule D) (ls : List LocId) :
    ProtoAll D :=
  ({ tellAll i ls s with w := { s.w with
      memoryBits := assignMemoryBits s.w.memoryBits rule } }).recount ⟨i, ls.length⟩

/-- With the putter of the channel tentative the pass commits, and waits for
it. The one it tells is the getter. -/
theorem exhaustPass_standoff :
    exhaustPass.run (standoff 0) =
        .ok (.committed 0) ((standoff 0).committed 0 channelRule [1]) ∧
      CommittedTo ((standoff 0).committed 0 channelRule [1]) 0 channelRule [0] := by
  have hiter : (standoff 0).w.active.ready.iterAnd (standoff 0).w.readyTentative = [1] := by
    decide
  have hask : (askTentatives BitSet.iterAnd 0).run (standoff 0) =
      .ok 1 (tellAll 0 [1] (standoff 0)) := by
    refine (run_askTentatives_iff (by rw [hiter]; exact List.nodup_singleton 1)).2 ?_
    rw [hiter]
    refine ⟨fun l hl => ?_, rfl, rfl⟩
    obtain rfl := List.mem_singleton.1 hl
    rfl
  constructor
  · rw [run_exhaustPass_of_selected (selected_standoff 0), fireRule_eq, fireRuleWith,
      Effect.run_bind_of_ok hask]
    rfl
  · exact {
      found := rfl
      commitment := rfl
      tentative := fun l => tentative_standoff.trans List.mem_singleton.symm
      nodup := List.nodup_singleton 0
      nonempty := List.cons_ne_nil 0 []
      own := by
        intro l hl
        obtain rfl := List.mem_singleton.1 hl
        decide }

/-- The putter comes back, and goes uncounted. -/
theorem commitment_standoff :
    ¬ CommitmentHonoured ((standoff 0).committed 0 channelRule [1]) channelRule [0] :=
  (commitment_not_honoured exhaustPass_standoff.2).1

/-- So the commitment to the channel is not honoured: the rule does not fire
when its putter reports. -/
theorem not_honoured_standoff : ∃ t, exhaustPass.run (standoff 0) = .ok (.committed 0) t ∧
    CommittedTo t 0 channelRule [0] ∧ ¬ CommitmentHonoured t channelRule [0] :=
  ⟨_, exhaustPass_standoff.1, exhaustPass_standoff.2, exhaustPass_standoff.2.not_honoured⟩

end ReoRs
