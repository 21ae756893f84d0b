import ReoRs.Proofs.Firing
import ReoRs.Proofs.Instantiate
import ReoRs.Proto.Commitment

/-!
# Who is asked to commit

The loop before a firing intersects the ready set with the tentative set, and
the rule it fires has no part in that. So the ports that are told are all the
tentative ports there are, and these are the rule's own only if no other port
happens to be tentative. `asksOwn_iff` says that this is the whole story, with
`iter_and` taken to be the intersection.
-/

namespace ReoRs

variable {D : Type}

open ProtoAll

/-! ## The loop -/

/-- A tentative port is told iff its dropbox is empty. -/
theorem run_sendTentative_iff {s t : ProtoAll D} {i : RuleId} {l : LocId} :
    (sendTentative i l).run s = .ok () t ↔
      s.getDropbox l = some ⟨none⟩ ∧ t = s.setDropbox l (some i) := by
  rw [sendTentative, EStateM.run_bind, EStateM.run_get]
  cases hbox : s.getDropbox l with
  | none =>
      simp only [hbox]
      constructor
      · intro h
        cases h
      · rintro ⟨h, -⟩
        cases h
  | some box =>
      obtain ⟨slot⟩ := box
      simp only [hbox]
      rw [send, EStateM.run_bind, EStateM.run_get]
      simp only [hbox]
      cases slot with
      | none =>
          constructor
          · intro h
            cases h
            exact ⟨rfl, rfl⟩
          · rintro ⟨-, rfl⟩
            rfl
      | some m =>
          constructor
          · intro h
            cases h
          · rintro ⟨h, -⟩
            cases h

theorem getDropbox_setDropbox_ne (s : ProtoAll D) {id l : LocId} (m : Option Nat) (h : l ≠ id) :
    (s.setDropbox id m).getDropbox l = s.getDropbox l := by
  rw [getDropbox, getSpace_setDropbox_ne s m h]
  rfl

theorem getDropbox_setDropbox {s : ProtoAll D} {l : LocId} {b : MsgDropbox}
    (h : s.getDropbox l = some b) (m : Option Nat) :
    (s.setDropbox l m).getDropbox l = some ⟨m⟩ := by
  rw [getDropbox, Option.bind_eq_some_iff] at h
  obtain ⟨sp, hsp, hb⟩ := h
  rw [getDropbox, getSpace_setDropbox, if_pos rfl, hsp]
  cases sp with
  | poPu p b' | poGe b' => rfl
  | memo p | temp p | unused => cases hb

theorem getDropbox_tellAll {i : Nat} {l : LocId} : ∀ {ls : List LocId} {s : ProtoAll D},
    ls.Nodup → l ∈ ls → s.getDropbox l = some ⟨none⟩ →
      (tellAll i ls s).getDropbox l = some ⟨some i⟩
  | k :: ls, s, hnd, hl, hbox => by
      rw [List.nodup_cons] at hnd
      rw [tellAll_cons]
      rcases List.mem_cons.1 hl with rfl | hl
      · rw [getDropbox, getSpace_tellAll_of_notMem hnd.1]
        exact getDropbox_setDropbox hbox (some i)
      · have hne : l ≠ k := fun h => hnd.1 (h ▸ hl)
        exact getDropbox_tellAll hnd.2 hl (by rw [getDropbox_setDropbox_ne s _ hne, hbox])

/-- All are told iff all dropboxes are empty. -/
theorem run_sendTentatives_iff {i : RuleId} : ∀ {ls : List LocId} {s t : ProtoAll D}, ls.Nodup →
    ((Effect.forEach (sendTentative i) ls).run s = .ok () t ↔
      (∀ l ∈ ls, s.getDropbox l = some ⟨none⟩) ∧ t = tellAll i ls s)
  | [], s, t, _ => by
      constructor
      · intro h
        cases h
        exact ⟨by simp, rfl⟩
      · rintro ⟨-, rfl⟩
        rfl
  | k :: ls, s, t, hnd => by
      rw [List.nodup_cons] at hnd
      have hother : ∀ l ∈ ls, (s.setDropbox k (some i)).getDropbox l = s.getDropbox l := by
        intro l hl
        exact getDropbox_setDropbox_ne s _ fun h => hnd.1 (h ▸ hl)
      rw [Effect.run_forEach_cons, tellAll_cons]
      constructor
      · intro h
        obtain ⟨_, u, hone, hrest⟩ := Effect.ok_of_bind_ok h
        obtain ⟨hbox, rfl⟩ := run_sendTentative_iff.1 hone
        obtain ⟨hboxes, ht⟩ := (run_sendTentatives_iff hnd.2).1 hrest
        refine ⟨?_, ht⟩
        intro l hl
        rcases List.mem_cons.1 hl with rfl | hl
        · exact hbox
        · rw [← hother l hl, hboxes l hl]
      · rintro ⟨hboxes, ht⟩
        rw [Effect.run_bind_of_ok (run_sendTentative_iff.2 ⟨hboxes k List.mem_cons_self, rfl⟩)]
        refine (run_sendTentatives_iff hnd.2).2 ⟨fun l hl => ?_, ht⟩
        rw [hother l hl, hboxes l (List.mem_cons_of_mem k hl)]

theorem run_askTentatives_iff {inter : BitSet → BitSet → List LocId} {s t : ProtoAll D}
    {i : RuleId} {n : Nat} (hnd : (inter s.w.active.ready s.w.readyTentative).Nodup) :
    (askTentatives inter i).run s = .ok n t ↔
      (∀ l ∈ inter s.w.active.ready s.w.readyTentative, s.getDropbox l = some ⟨none⟩) ∧
        n = (inter s.w.active.ready s.w.readyTentative).length ∧
        t = tellAll i (inter s.w.active.ready s.w.readyTentative) s := by
  rw [askTentatives, EStateM.run_bind, EStateM.run_get]
  show (Effect.forEach (sendTentative i) (inter s.w.active.ready s.w.readyTentative) >>=
    fun _ => pure (inter s.w.active.ready s.w.readyTentative).length).run s = _ ↔ _
  generalize inter s.w.active.ready s.w.readyTentative = ls at hnd
  constructor
  · intro h
    obtain ⟨_, u, hloop, hlen⟩ := Effect.ok_of_bind_ok h
    obtain ⟨hboxes, rfl⟩ := (run_sendTentatives_iff hnd).1 hloop
    cases hlen
    exact ⟨hboxes, rfl, rfl⟩
  · rintro ⟨hboxes, rfl, rfl⟩
    exact Effect.run_bind_of_ok ((run_sendTentatives_iff hnd).2 ⟨hboxes, rfl⟩)

/-! ## The rule's own ports -/

/-- The rule's own tentative ports are told, and counted, and no one else; if
there are none the rule fires at once. -/
def AsksOwn (inter : BitSet → BitSet → List LocId) (s : ProtoAll D) (i : RuleId)
    (rule : RunRule D) : Prop :=
  ∃ (own : List LocId) (t : ProtoAll D), own.Nodup ∧
    (∀ l, l ∈ own ↔ rule.guardReady.test l = true ∧ s.w.readyTentative.test l = true) ∧
    (askTentatives inter i).run s = .ok own.length t ∧
    (∀ l ∈ own, s.getDropbox l = some ⟨none⟩ ∧ t.getDropbox l = some ⟨some i⟩) ∧
    (∀ l, l ∉ own → t.getSpace l = s.getSpace l) ∧
    t.w.readyTentative = s.w.readyTentative ∧
    (fireRuleWith inter i rule).run s =
      (if own = [] then fireNow i rule else commitTo i rule own.length).run t

/-- A function that lists the intersection of two sets. -/
def Intersects (inter : BitSet → BitSet → List LocId) : Prop :=
  ∀ a b, (inter a b).Nodup ∧ ∀ l, l ∈ inter a b ↔ a.test l = true ∧ b.test l = true

/-- They are the rule's own exactly if of the tentative ports those are ready
that the rule involves; and telling them takes empty dropboxes. -/
theorem asksOwn_iff {inter : BitSet → BitSet → List LocId} (hinter : Intersects inter)
    (s : ProtoAll D) (i : RuleId) (rule : RunRule D) :
    AsksOwn inter s i rule ↔
      ∀ l, s.w.readyTentative.test l = true →
        (s.w.active.ready.test l = true ↔ rule.guardReady.test l = true) ∧
        (rule.guardReady.test l = true → s.getDropbox l = some ⟨none⟩) := by
  obtain ⟨hnd, hmem⟩ := hinter s.w.active.ready s.w.readyTentative
  constructor
  · rintro ⟨own, t, -, hown, hask, htold, hothers, -, -⟩ l hl
    obtain ⟨hboxes, -, rfl⟩ := (run_askTentatives_iff hnd).1 hask
    refine ⟨⟨fun hready => ?_, fun hguard => ?_⟩,
      fun hguard => (htold l ((hown l).2 ⟨hguard, hl⟩)).1⟩
    · -- a told port that is not the rule's own has a message it should not have
      have hin := (hmem l).2 ⟨hready, hl⟩
      by_contra hnot
      have hsame := hothers l fun h => hnot ((hown l).1 h).1
      have hbox := getDropbox_tellAll (i := i) hnd hin (hboxes l hin)
      rw [getDropbox, hsame] at hbox
      cases (hboxes l hin).symm.trans hbox
    · -- one of its own that is not told has none
      obtain ⟨hempty, hfull⟩ := htold l ((hown l).2 ⟨hguard, hl⟩)
      by_contra hnot
      have hout : l ∉ inter s.w.active.ready s.w.readyTentative := fun h => hnot ((hmem l).1 h).1
      rw [getDropbox, getSpace_tellAll_of_notMem hout] at hfull
      cases hempty.symm.trans hfull
  · intro h
    have hown : ∀ l, l ∈ inter s.w.active.ready s.w.readyTentative ↔
        rule.guardReady.test l = true ∧ s.w.readyTentative.test l = true := by
      intro l
      rw [hmem l]
      exact and_congr_left fun hl => (h l hl).1
    have hboxes : ∀ l ∈ inter s.w.active.ready s.w.readyTentative,
        s.getDropbox l = some ⟨none⟩ := by
      intro l hl
      obtain ⟨hguard, htent⟩ := (hown l).1 hl
      exact (h l htent).2 hguard
    have hask := (run_askTentatives_iff (i := i) hnd).2 ⟨hboxes, rfl, rfl⟩
    refine ⟨_, _, hnd, hown, hask, ?_, ?_, ?_, ?_⟩
    · exact fun l hl => ⟨hboxes l hl, getDropbox_tellAll hnd hl (hboxes l hl)⟩
    · exact fun l hl => getSpace_tellAll_of_notMem hl
    · rw [(tellAll_rest _ _ _).1]
    · rw [fireRuleWith, Effect.run_bind_of_ok hask]
      cases inter s.w.active.ready s.w.readyTentative with
      | nil => rfl
      | cons l ls => rfl

/-! ## The rule that is selected -/

/-- The scan goes past a rule. -/
def Skipped (s : ProtoAll D) (rule : RunRule D) : Prop :=
  isReady s.w.memoryBits s.w.active.ready rule = false ∨
    isReady s.w.memoryBits s.w.active.ready rule = true ∧
      evalFormula s rule.guardPred = .ok false

/-- Rule `i` is the first the bits and its guard allow. -/
structure Selected (s : ProtoAll D) (i : RuleId) (rule : RunRule D) : Prop where
  found : s.r.rules[i]? = some rule
  before : ∀ j r, j < i → s.r.rules[j]? = some r → Skipped s r
  enabled : Enabled s rule
  noTemps : ∀ r ∈ s.r.rules, r.tempMems = []

theorem run_tryRules_of_skipped {s : ProtoAll D} {n : RuleId} {r : RunRule D}
    {rest : List (RunRule D)} (htemp : r.tempMems = []) (h : Skipped s r) :
    (tryRules n (r :: rest)).run s = (tryRules (n + 1) rest).run s := by
  rw [tryRules, EStateM.run_bind, EStateM.run_get]
  rcases h with h | ⟨h, hguard⟩
  · simp only [h]
    rfl
  · simp only [h, if_true]
    rw [buildTemps, htemp, Effect.run_bind_of_ok (Effect.run_forEach_nil _ s),
      Effect.run_bind_of_ok (run_reading_ok hguard), if_neg (by simp), unbuildTemps, htemp,
      Effect.run_bind_of_ok (Effect.run_forEach_nil _ s)]

theorem run_tryRules_of_enabled {s : ProtoAll D} {n : RuleId} {r : RunRule D}
    {rest : List (RunRule D)} (htemp : r.tempMems = []) (h : Enabled s r) :
    (tryRules n (r :: rest)).run s = (fireRule n r).run s := by
  rw [tryRules, EStateM.run_bind, EStateM.run_get]
  simp only [h.1, if_true]
  rw [buildTemps, htemp, Effect.run_bind_of_ok (Effect.run_forEach_nil _ s),
    Effect.run_bind_of_ok (run_reading_ok h.2), if_pos rfl]

/-- The rule `exhaust_rules` selects is the one it goes on to ask for. -/
theorem run_exhaustPass_of_selected {s : ProtoAll D} {i : RuleId} {rule : RunRule D}
    (h : Selected s i rule) : exhaustPass.run s = (fireRule i rule).run s := by
  suffices hscan : ∀ (rest : List (RunRule D)) (n k : Nat), (∀ r ∈ rest, r ∈ s.r.rules) →
      rest[k]? = some rule → (∀ j r, j < k → rest[j]? = some r → Skipped s r) →
        (tryRules n rest).run s = (fireRule (n + k) rule).run s by
    rw [exhaustPass, EStateM.run_bind, EStateM.run_get]
    have := hscan s.r.rules 0 i (fun _ hr => hr) h.found h.before
    rwa [Nat.zero_add] at this
  intro rest
  induction rest with
  | nil =>
      intro n k _ hk
      cases hk
  | cons r rest ih =>
      intro n k hsub hk hbefore
      have htemp := h.noTemps r (hsub r List.mem_cons_self)
      cases k with
      | zero =>
          obtain rfl : r = rule := Option.some.inj hk
          exact run_tryRules_of_enabled htemp h.enabled
      | succ k =>
          rw [run_tryRules_of_skipped htemp (hbefore 0 r (Nat.zero_lt_succ k) rfl),
            ih (n + 1) k (fun x hx => hsub x (List.mem_cons_of_mem r hx)) hk
              fun j x hj hx => hbefore (j + 1) x (Nat.succ_lt_succ hj) hx,
            Nat.add_right_comm, Nat.add_assoc]

/-! ## A tentative port and a rule -/

/-- The intersection of two sets, listed. -/
def both (a b : BitSet) : List LocId :=
  (List.range (64 * a.data.length)).filter fun l => a.test l && b.test l

theorem intersects_both : Intersects both := by
  intro a b
  refine ⟨List.nodup_range.filter _, fun l => ?_⟩
  rw [both, List.mem_filter, List.mem_range, Bool.and_eq_true]
  refine and_iff_right_of_imp fun h => ?_
  have hlt := BitSet.lt_length_of_test h.1
  rw [BitSet.bitsPerChunk, Nat.div_lt_iff_lt_mul (by decide), Nat.mul_comm] at hlt
  exact hlt

/-- The rule of a channel from 0 to 1, as `build_rules` compiles it. -/
def channelRule : RunRule Nat where
  guardReady := BitSet.fromIter [0, 1]
  guardFull := ⟨[0#64]⟩
  tempMems := []
  guardPred := .true
  assignVals := ⟨[0#64]⟩
  assignMask := ⟨[0#64]⟩
  actions := [⟨0, [], [1]⟩]

/-- The channel and a third port, 2. All three are ready, and one port is only
tentatively so. -/
def standoff (tentative : LocId) : ProtoAll Nat where
  r := ⟨[channelRule],
    [.poPu (.new (.stack 0) cellInfo) .new, .poGe .new, .poPu (.new (.stack 2) cellInfo) .new]⟩
  w := {
    memoryBits := ⟨[0#64]⟩
    active := { ready := BitSet.fromIter [0, 1, 2], storage := ∅, memRefs := ∅ }
    commitment := none
    readyTentative := BitSet.fromIter [tentative]
    awaitingStates := []
    unclaimedPorts := ∅ }
  heap := .empty

theorem selected_standoff (tentative : LocId) : Selected (standoff tentative) 0 channelRule where
  found := rfl
  before := by
    intro j r hj
    cases hj
  enabled := by
    have hready : isReady ⟨[0#64]⟩ (BitSet.fromIter [0, 1, 2]) channelRule = true := by decide
    exact ⟨hready, by rw [channelRule, evalFormula]; rfl⟩
  noTemps := by
    intro r hr
    obtain rfl := List.mem_singleton.1 hr
    rfl

theorem tentative_standoff {t l : LocId} : (standoff t).w.readyTentative.test l = true ↔ l = t := by
  rw [standoff, BitSet.test_fromIter, decide_eq_true_iff, List.mem_singleton]

/-- The putter of the channel is asked. -/
theorem asksOwn_standoff : Selected (standoff 0) 0 channelRule ∧
    AsksOwn both (standoff 0) 0 channelRule := by
  refine ⟨selected_standoff 0, (asksOwn_iff intersects_both (standoff 0) 0 channelRule).2 ?_⟩
  intro l hl
  obtain rfl := tentative_standoff.1 hl
  exact ⟨by decide, fun _ => rfl⟩

/-- A port that has nothing to do with the channel is asked too. -/
theorem not_asksOwn_standoff : Intersects both ∧ Selected (standoff 2) 0 channelRule ∧
    ¬ AsksOwn both (standoff 2) 0 channelRule := by
  refine ⟨intersects_both, selected_standoff 2, fun h => ?_⟩
  have hiff := ((asksOwn_iff intersects_both (standoff 2) 0 channelRule).1 h 2
    (tentative_standoff.2 rfl)).1
  exact absurd (hiff.1 (by decide)) (by decide)

end ReoRs
