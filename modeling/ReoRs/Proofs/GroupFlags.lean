import ReoRs.Proofs.IsReady
import ReoRs.Proto.Groups

/-!
# The flags of a port group

`deliberate` changes the flags of its members chunk by chunk, in
`ready_tentative` and `ready` at once, and stops with the shortest vector. A
member's flag is therefore changed where both vectors have its chunk, and left
as it is everywhere else. No other step makes a vector shorter, so a group
that could flag its members can take the flags back, provided they are still
ready: a firing may have come first.

`ready_tentative` has no chunks to begin with.
-/

namespace ReoRs

variable {D : Type}

open Effect (Keeps keeps_pure keeps_throw keeps_set keeps_modify keeps_get_bind keeps_forEach
  keeps_zoom)

/-! ## The zipped loops -/

section Zip

variable {holds : Chunk → Chunk → Bool} {change : Chunk → Chunk → Chunk}

/-- A loop that gets through changes either vector as far as the other
reaches. -/
theorem zipMembers_of_ok : ∀ {ts rs ms : List Chunk},
    (zipMembers holds change ts rs ms).1 = true →
      (zipMembers holds change ts rs ms).2 =
        (Words.zipInto change ts (ms.take rs.length), Words.zipInto change rs (ms.take ts.length))
  | [], rs, ms, _ => by
      rw [List.length_nil, List.take_zero, Words.zipInto_nil_right]
      rfl
  | t :: ts, [], ms, _ => by
      rw [List.length_nil, List.take_zero, Words.zipInto_nil_right]
      rfl
  | t :: ts, r :: rs, [], _ => rfl
  | t :: ts, r :: rs, m :: ms, h => by
      rw [zipMembers] at h ⊢
      split at h
      · next hholds =>
          rw [if_pos hholds]
          have ih := @zipMembers_of_ok ts rs ms h
          generalize zipMembers holds change ts rs ms = z at ih
          obtain ⟨ok, ts', rs'⟩ := z
          cases ih
          rfl
      · cases h

theorem zipMembers_ok_iff : ∀ {ts rs ms : List Chunk},
    (zipMembers holds change ts rs ms).1 = true ↔
      ∀ n r m, n < ts.length → rs[n]? = some r → ms[n]? = some m → holds r m = true
  | [], rs, ms => iff_of_true rfl nofun
  | t :: ts, [], ms => iff_of_true rfl nofun
  | t :: ts, r :: rs, [] => iff_of_true rfl nofun
  | t :: ts, r :: rs, m :: ms => by
      rw [zipMembers]
      split
      · next hholds =>
          show (zipMembers holds change ts rs ms).1 = true ↔ _
          rw [zipMembers_ok_iff]
          constructor
          · intro h n r' m' hn hr hm
            cases n with
            | zero =>
                cases hr
                cases hm
                exact hholds
            | succ n => exact h n r' m' (Nat.lt_of_succ_lt_succ hn) hr hm
          · intro h n r' m' hn hr hm
            exact h (n + 1) r' m' (Nat.succ_lt_succ hn) hr hm
      · next hnot => exact iff_of_false nofun fun h => hnot (h 0 r m (Nat.succ_pos _) rfl rfl)

/-- No vector gets shorter, whether the loop gets through or not. -/
theorem length_zipMembers (holds : Chunk → Chunk → Bool) (change : Chunk → Chunk → Chunk) :
    ∀ (ts rs ms : List Chunk),
    (zipMembers holds change ts rs ms).2.1.length = ts.length ∧
      (zipMembers holds change ts rs ms).2.2.length = rs.length
  | [], rs, ms => ⟨rfl, rfl⟩
  | t :: ts, [], ms => ⟨rfl, rfl⟩
  | t :: ts, r :: rs, [] => ⟨rfl, rfl⟩
  | t :: ts, r :: rs, m :: ms => by
      rw [zipMembers]
      split
      · obtain ⟨hts, hrs⟩ := length_zipMembers holds change ts rs ms
        exact ⟨congrArg (· + 1) hts, congrArg (· + 1) hrs⟩
      · exact ⟨rfl, rfl⟩

end Zip

/-! ## The two steps -/

section Steps

variable {s : ProtoAll D} {members : BitSet}

def ProtoAll.setFlags (s : ProtoAll D) (tentative ready : List Chunk) : ProtoAll D :=
  { s with w := { s.w with
      readyTentative := ⟨tentative⟩, active := { s.w.active with ready := ⟨ready⟩ } } }

/-- Both vectors have the chunk of this id. -/
def ProtoAll.Reaches (s : ProtoAll D) (l : LocId) : Prop :=
  l / 64 < s.w.readyTentative.data.length ∧ l / 64 < s.w.active.ready.data.length

instance (l : LocId) : Decidable (s.Reaches l) := inferInstanceAs (Decidable (_ ∧ _))

theorem decide_reaches (s : ProtoAll D) (l : LocId) : decide (s.Reaches l) =
    (decide (l / 64 < s.w.readyTentative.data.length) &&
      decide (l / 64 < s.w.active.ready.data.length)) :=
  (decide_eq_decide.2 Iff.rfl).trans (Bool.decide_and _ _)

theorem run_changeMembers (holds : Chunk → Chunk → Bool) (change : Chunk → Chunk → Chunk)
    (members : BitSet) (s : ProtoAll D) : (changeMembers holds change members).run s =
      let z := zipMembers holds change s.w.readyTentative.data s.w.active.ready.data members.data
      (if z.1 then pure () else throw .membersReady : Proc D Unit).run (s.setFlags z.2.1 z.2.2) :=
  rfl

theorem run_changeMembers_of_holds {holds : Chunk → Chunk → Bool}
    {change : Chunk → Chunk → Chunk} (h : ∀ (n : Nat) (r m : Chunk),
      s.w.active.ready.data[n]? = some r → members.data[n]? = some m → holds r m = true) :
    (changeMembers holds change members).run s = .ok () (s.setFlags
      (Words.zipInto change s.w.readyTentative.data
        (members.data.take s.w.active.ready.data.length))
      (Words.zipInto change s.w.active.ready.data
        (members.data.take s.w.readyTentative.data.length))) := by
  have hok : (zipMembers holds change s.w.readyTentative.data s.w.active.ready.data
      members.data).1 = true := zipMembers_ok_iff.2 fun n r m _ => h n r m
  rw [run_changeMembers]
  dsimp only
  rw [if_pos hok, zipMembers_of_ok hok]
  rfl

theorem getLsbD_chunk {b : BitSet} {n k : Nat} {c : Chunk} (hc : b.data[n]? = some c)
    (hk : k < 64) : c.getLsbD k = b.test (64 * n + k) := by
  rw [BitSet.test_eq_mem]
  exact Words.getLsbD_of_getElem? hc hk

theorem test_zipInto_or_take (a b : BitSet) (n : Nat) (l : LocId) :
    (⟨Words.zipInto (· ||| ·) a.data (b.data.take n)⟩ : BitSet).test l =
      (a.test l || (decide (l / 64 < a.data.length) && (decide (l / 64 < n) && b.test l))) := by
  rw [BitSet.test_eq_mem, BitSet.test_eq_mem, BitSet.test_eq_mem]
  show Words.mem (Words.zipInto _ a.data _) l = _
  rw [Words.mem_zipInto_or, Words.mem_take]

theorem test_zipInto_andNot_take (a b : BitSet) (n : Nat) (l : LocId) :
    (⟨Words.zipInto (fun x y => x &&& ~~~ y) a.data (b.data.take n)⟩ : BitSet).test l =
      (a.test l && !(decide (l / 64 < n) && b.test l)) := by
  rw [BitSet.test_eq_mem, BitSet.test_eq_mem, BitSet.test_eq_mem]
  show Words.mem (Words.zipInto _ a.data _) l = _
  rw [Words.mem_zipInto_andNot _ _ _ (by decide), Words.mem_take]

/-- The batch step flags the members within reach. -/
theorem run_batchFlag (hunready : ∀ l, members.test l = true → s.w.active.ready.test l = false) :
    ∃ t, (batchFlag members).run s = .ok () t ∧ ∀ l,
      t.w.active.ready.test l =
        (s.w.active.ready.test l || (decide (s.Reaches l) && members.test l)) ∧
      t.w.readyTentative.test l =
        (s.w.readyTentative.test l || (decide (s.Reaches l) && members.test l)) := by
  refine ⟨_, run_changeMembers_of_holds fun n r m hr hm => ?_, fun l => ⟨?_, ?_⟩⟩
  · rw [beq_iff_eq]
    refine BitVec.eq_of_getLsbD_eq fun k hk => ?_
    rw [BitVec.getLsbD_and, getLsbD_chunk hr hk, getLsbD_chunk hm hk, BitVec.getLsbD_zero]
    cases hmem : members.test (64 * n + k) with
    | false => exact Bool.and_false _
    | true => rw [hunready _ hmem, Bool.false_and]
  · refine (test_zipInto_or_take s.w.active.ready members _ l).trans ?_
    rw [decide_reaches, Bool.and_left_comm, Bool.and_assoc]
  · refine (test_zipInto_or_take s.w.readyTentative members _ l).trans ?_
    rw [decide_reaches, Bool.and_assoc]

/-- The assertion of the commit step is about the members within reach. -/
theorem ready_of_commitFlag {id : LocId} {t : ProtoAll D}
    (h : (commitFlag members id).run s = .ok () t) {l : LocId} (hreach : s.Reaches l)
    (hl : members.test l = true) : s.w.active.ready.test l = true := by
  obtain ⟨_, u, hchange, -⟩ := Effect.ok_of_bind_ok h
  rw [run_changeMembers] at hchange
  dsimp only at hchange
  split at hchange
  · next hok =>
      rw [BitSet.test_eq_mem] at hl
      have hr := List.getElem?_eq_getElem hreach.2
      have hm := List.getElem?_eq_getElem (Words.lt_length_of_mem hl)
      have hholds := eq_of_beq (zipMembers_ok_iff.1 hok _ _ _ hreach.1 hr hm)
      have hbit := congrArg (·.getLsbD (l % 64)) hholds
      simp only [BitVec.getLsbD_and] at hbit
      rw [Words.mem_of_getElem? hm] at hl
      rw [hl, Bool.and_true] at hbit
      rw [BitSet.test_eq_mem, Words.mem_of_getElem? hr, hbit]
  · cases hchange

/-- The commit step takes the flags of ready members within reach back. -/
theorem run_commitFlag (hready : ∀ l, members.test l = true → s.w.active.ready.test l = true)
    (hreach : ∀ l, members.test l = true → s.Reaches l) (id : LocId) :
    ∃ t, (commitFlag members id).run s = .ok () t ∧ ∀ l,
      t.w.active.ready.test l = (s.w.active.ready.test l && !members.test l) ∧
      t.w.readyTentative.test l =
        if l = id then true else (s.w.readyTentative.test l && !members.test l) := by
  have hcomplete : ∀ (n : Nat) (r m : Chunk), s.w.active.ready.data[n]? = some r →
      members.data[n]? = some m → ((r &&& m) == m) = true := by
    intro n r m hr hm
    rw [beq_iff_eq]
    refine BitVec.eq_of_getLsbD_eq fun k hk => ?_
    rw [BitVec.getLsbD_and, getLsbD_chunk hr hk, getLsbD_chunk hm hk]
    cases hmem : members.test (64 * n + k) with
    | false => exact Bool.and_false _
    | true => rw [hready _ hmem, Bool.and_true]
  have hchange : (changeMembers _ (fun flags members => flags &&& ~~~ members) members).run s =
      .ok () _ := run_changeMembers_of_holds hcomplete
  refine ⟨_, Effect.run_bind_of_ok hchange, fun l => ⟨?_, ?_⟩⟩
  · refine (test_zipInto_andNot_take s.w.active.ready members _ l).trans ?_
    cases hmem : members.test l with
    | false => rw [Bool.and_false]
    | true => rw [decide_eq_true (hreach l hmem).1, Bool.and_true]
  · refine (BitSet.test_setTo _ id true l).trans ?_
    refine if_congr Iff.rfl rfl ?_
    refine (test_zipInto_andNot_take s.w.readyTentative members _ l).trans ?_
    cases hmem : members.test l with
    | false => rw [Bool.and_false]
    | true => rw [decide_eq_true (hreach l hmem).2, Bool.and_true]

end Steps

/-! ## No vector gets shorter -/

/-- Neither vector of flags is shorter than it was. -/
structure Longer (s t : ProtoAll D) : Prop where
  tentative : s.w.readyTentative.data.length ≤ t.w.readyTentative.data.length
  ready : s.w.active.ready.data.length ≤ t.w.active.ready.data.length

namespace Longer

variable {s t : ProtoAll D}

theorem refl (s : ProtoAll D) : Longer s s := ⟨Nat.le_refl _, Nat.le_refl _⟩

theorem reaches (h : Longer s t) {l : LocId} (hl : s.Reaches l) : t.Reaches l :=
  ⟨Nat.lt_of_lt_of_le hl.1 h.tentative, Nat.lt_of_lt_of_le hl.2 h.ready⟩

theorem setReady (h : Longer s t) (l : LocId) (v : Bool) : Longer s (t.setReady l v) :=
  ⟨h.tentative, Nat.le_trans h.ready (BitSet.length_le_setTo _ l v)⟩

theorem subtract (h : Longer s t) (rule : RunRule D) : Longer s { t with w := { t.w with
    active := { t.w.active with ready := subtractReadiness t.w.active.ready rule } } } :=
  ⟨h.tentative, Nat.le_trans h.ready (Nat.le_of_eq (length_subtractReadiness _ rule).symm)⟩

theorem robust : Robust (fun _ => True) (Longer s) where
  setPtr h _ _ := ⟨h.tentative, h.ready⟩
  setReady h _ v := h.setReady _ v
  setDropbox h _ _ := ⟨h.tentative, h.ready⟩
  beginHandOff h _ _ _ := ⟨h.tentative, h.ready⟩
  mapMemRefs h _ := ⟨h.tentative, h.ready⟩
  store _ _ _ _ := keeps_zoom (fun _ _ h => ⟨h.tentative, h.ready⟩) _
  dispose _ _ _ := keeps_zoom (fun _ _ h => ⟨h.tentative, h.ready⟩) _

theorem keeps_buildTemps (rule : RunRule D) : Keeps (Longer s) (buildTemps rule) := by
  refine keeps_forEach (fun temp => keeps_get_bind fun t ht => ?_) rule.tempMems
  split
  · refine Keeps.bind (keeps_zoom (fun _ _ h => ⟨h.tentative, h.ready⟩) _) fun dest => ?_
    refine (robust.overwriteNullPtr trivial dest).bind fun _ => ?_
    refine (keeps_compute temp.func).bind fun v => ?_
    refine Keeps.bind (keeps_modify fun t h => ⟨h.tentative, h.ready⟩) fun _ => ?_
    exact robust.countRefs dest 1
  · exact keeps_throw _

theorem keeps_unbuildTemps (rule : RunRule D) : Keeps (Longer s) (unbuildTemps rule) := by
  refine keeps_forEach (fun temp => keeps_get_bind fun t ht => ?_) rule.tempMems
  split
  · exact robust.makeEmpty true trivial
  · exact keeps_throw _

theorem keeps_notifyStateWaiters : Keeps (Longer s) notifyStateWaiters :=
  keeps_notifyStateWaiters_of_setDropbox (fun h _ _ => ⟨h.tentative, h.ready⟩)
    fun h _ => ⟨h.tentative, h.ready⟩

theorem keeps_sendTentative (i : RuleId) (id : LocId) :
    Keeps (Longer s) (sendTentative i id) := by
  refine keeps_get_bind fun t _ => ?_
  split
  · exact robust.send id i
  · exact keeps_throw _

theorem keeps_fireRule (i : RuleId) (rule : RunRule D) : Keeps (Longer s) (fireRule i rule) := by
  refine keeps_get_bind fun t _ => ?_
  refine Keeps.bind (keeps_forEach (keeps_sendTentative i) _) fun _ => ?_
  refine Keeps.bind (keeps_modify fun t h => ⟨h.tentative, h.ready⟩) fun _ => ?_
  split
  · refine Keeps.bind (keeps_modify fun t h => ⟨h.tentative, h.ready⟩) fun _ => ?_
    exact keeps_pure _
  · refine Keeps.bind (keeps_modify fun t h => h.subtract rule) fun _ => ?_
    refine (robust.fire rule).bind fun _ => ?_
    exact keeps_notifyStateWaiters.bind fun _ => keeps_pure _

theorem keeps_tryRules : ∀ (i : RuleId) (rules : List (RunRule D)),
    Keeps (Longer s) (tryRules i rules)
  | i, [] => keeps_pure _
  | i, rule :: rest => by
      refine keeps_get_bind fun t _ => ?_
      split
      · refine (keeps_buildTemps rule).bind fun _ => (keeps_reading _).bind fun pass => ?_
        split
        · exact keeps_fireRule i rule
        · exact (keeps_unbuildTemps rule).bind fun _ => keeps_tryRules (i + 1) rest
      · exact keeps_tryRules (i + 1) rest

theorem keeps_exhaustPass : Keeps (Longer (D := D) s) exhaustPass :=
  keeps_get_bind fun t _ => keeps_tryRules 0 t.r.rules

theorem keeps_readySet (id : LocId) : Keeps (Longer s) (readySet (D := D) id) := by
  refine Keeps.bind (keeps_modify fun t h => h.setReady id true) fun _ => ?_
  refine keeps_get_bind fun t ht => ?_
  split
  · exact keeps_pure _
  · next c hc =>
      refine Keeps.bind (keeps_set ?_) fun _ => ?_
      · exact ⟨Nat.le_trans ht.tentative (BitSet.length_le_setTo _ id false), ht.ready⟩
      · split
        · split
          · exact keeps_throw _
          refine Keeps.bind (keeps_modify fun t h => ⟨h.tentative, h.ready⟩) fun _ => ?_
          split
          · split
            · exact keeps_throw _
            · next rule hrule =>
                refine Keeps.bind (keeps_modify fun t h => h.subtract rule) fun _ => ?_
                refine (robust.fire rule).bind fun _ => ?_
                refine keeps_notifyStateWaiters.bind fun _ => ?_
                refine Keeps.bind (keeps_modify fun t h => ⟨h.tentative, h.ready⟩) fun _ => ?_
                exact keeps_pure _
          · exact keeps_pure _
        · exact keeps_pure _

theorem keeps_finalizeMemo (id : LocId) (moved : Bool) :
    Keeps (Longer s) (finalizeMemo (D := D) id moved) :=
  (robust.makeEmpty _ trivial).bind fun _ => keeps_readySet id

theorem keeps_changeMembers (holds : Chunk → Chunk → Bool) (change : Chunk → Chunk → Chunk)
    (members : BitSet) : Keeps (Longer (D := D) s) (changeMembers holds change members) := by
  intro t ht
  rw [run_changeMembers]
  obtain ⟨htenta, hready⟩ := length_zipMembers holds change
    t.w.readyTentative.data t.w.active.ready.data members.data
  have hlonger : Longer s (t.setFlags
      (zipMembers holds change t.w.readyTentative.data t.w.active.ready.data members.data).2.1
      (zipMembers holds change t.w.readyTentative.data t.w.active.ready.data members.data).2.2) :=
    ⟨Nat.le_trans ht.tentative (Nat.le_of_eq htenta.symm),
      Nat.le_trans ht.ready (Nat.le_of_eq hready.symm)⟩
  have hend : ∀ ok : Bool,
      Keeps (Longer s) (if ok then pure () else throw .membersReady : Proc D Unit) := by
    intro ok
    split
    · exact keeps_pure _
    · exact keeps_throw _
  exact hend _ _ hlonger

theorem keeps_commitFlag (members : BitSet) (id : LocId) :
    Keeps (Longer (D := D) s) (commitFlag members id) := by
  refine (keeps_changeMembers _ _ members).bind fun _ => keeps_modify fun t h => ?_
  exact ⟨Nat.le_trans h.tentative (BitSet.length_le_setTo _ id true), h.ready⟩

end Longer

namespace Coordination

/-- No step of a call makes a vector shorter. -/
theorem Step.longer {c c' : Coordination D} {a : Act D} (h : Step c a c') :
    Longer c.proto c'.proto := by
  have hrefl := Longer.refl c.proto
  cases h with
  | offer _ _ => exact ⟨hrefl.tentative, hrefl.ready⟩
  | request _ _ => exact hrefl
  | arrive _ _ hrun => exact (Longer.keeps_readySet _).of_ok hrefl hrun
  | fire _ _ hrun => exact Longer.keeps_exhaustPass.of_ok hrefl hrun
  | leave _ _ hrun => exact Longer.keeps_exhaustPass.of_ok hrefl hrun
  | panic _ hrun => exact Longer.keeps_exhaustPass.of_error hrefl hrun
  | receive _ _ => exact ⟨hrefl.tentative, hrefl.ready⟩
  | withdraw _ _ _ => exact ⟨hrefl.tentative, (hrefl.setReady _ false).ready⟩
  | acquire _ _ _ => exact ⟨hrefl.tentative, hrefl.ready⟩
  | finalizePort _ _ hrun => exact (Longer.robust.send _ _).of_ok hrefl hrun
  | finalizeCell _ _ _ hrun => exact (Longer.keeps_finalizeMemo _ _).of_ok hrefl hrun
  | fault _ _ _ hrun => exact (Longer.keeps_finalizeMemo _ _).of_error hrefl hrun

end Coordination

namespace Grouping

theorem Step.longer {s t : Grouping D} {a : Act D} (h : Step s a t) :
    Longer s.c.proto t.c.proto := by
  cases h with
  | call _ hstep => exact hstep.longer
  | carryOut _ _ _ _ hrun _ => exact (Longer.keeps_readySet _).of_ok (Longer.refl _) hrun
  | panic _ _ hrun => exact (Longer.keeps_readySet _).of_error (Longer.refl _) hrun
  | batch _ => exact (Longer.keeps_changeMembers _ _ _).final (Longer.refl _)
  | commit _ _ hrun =>
      have hcommit := (Longer.keeps_commitFlag _ _).of_ok (Longer.refl _) hrun
      exact (Longer.keeps_changeMembers _ _ _).final hcommit
  | lose _ _ hrun => exact (Longer.keeps_commitFlag _ _).of_ok (Longer.refl _) hrun
  | fault _ _ hrun => exact (Longer.keeps_commitFlag _ _).of_error (Longer.refl _) hrun

/-- What both vectors have they keep. -/
theorem reach_reaches {s t : Grouping D} {hist : List (Act D)} (hr : Run.Reach Step s hist t)
    {l : LocId} (hl : s.c.proto.Reaches l) : t.c.proto.Reaches l :=
  Run.Reach.preserves (P := fun u => u.c.proto.Reaches l) hl (fun hu hs => hs.longer.reaches hu) hr

/-! ## Flags in full -/

/-- The batch step has flagged every member and nothing else, which is enough
for a rule whose ports are members to be selected. -/
structure Batched (members : BitSet) (s p : ProtoAll D) : Prop where
  flagged : ∀ l, members.test l = true →
    p.w.active.ready.test l = true ∧ p.w.readyTentative.test l = true
  others : ∀ l, members.test l = false →
    p.w.active.ready.test l = s.w.active.ready.test l ∧
      p.w.readyTentative.test l = s.w.readyTentative.test l
  selectable : ∀ rule : RunRule D, (∀ l, rule.guardReady.test l = true →
    (members.test l = true ∨ s.w.active.ready.test l = true) ∧
      p.w.memoryBits.test l = rule.guardFull.test l) →
    isReady p.w.memoryBits p.w.active.ready rule = true

/-- The commit step has taken all flags of the members back but the one of the
port that was selected. -/
structure Committed (members : BitSet) (id : LocId) (t q : ProtoAll D) : Prop where
  unready : ∀ l, members.test l = true → q.w.active.ready.test l = false
  tentative : ∀ l, members.test l = true → (q.w.readyTentative.test l = true ↔ l = id)
  others : ∀ l, members.test l = false →
    q.w.active.ready.test l = t.w.active.ready.test l ∧
      q.w.readyTentative.test l = t.w.readyTentative.test l

/-- The batch step at `s` and the commit step at `t` get through and do what
they are for. -/
structure FlaggedInFull (members : BitSet) (id : LocId) (s t : ProtoAll D) : Prop where
  batch : ∃ p, (batchFlag members).run s = .ok () p ∧ Batched members s p
  commit : ∃ q, (commitFlag members id).run t = .ok () q ∧ Committed members id t q

/-- The batch step does its work iff every member is within reach. -/
theorem batched_iff {members : BitSet} {s : ProtoAll D}
    (hunready : ∀ l, members.test l = true → s.w.active.ready.test l = false) :
    (∃ p, (batchFlag members).run s = .ok () p ∧ Batched members s p) ↔
      ∀ l, members.test l = true → s.Reaches l := by
  obtain ⟨p, hrun, hflags⟩ := run_batchFlag hunready
  constructor
  · rintro ⟨p', hbatch, hfull⟩ l hl
    cases hbatch.symm.trans hrun
    have hset := (hfull.flagged l hl).1
    rw [(hflags l).1, hunready l hl, hl, Bool.false_or, Bool.and_true] at hset
    exact of_decide_eq_true hset
  · intro hreach
    have hmember : ∀ l, (decide (s.Reaches l) && members.test l) = members.test l := by
      intro l
      cases hl : members.test l with
      | false => rw [Bool.and_false]
      | true => rw [decide_eq_true (hreach l hl), Bool.and_true]
    simp only [hmember] at hflags
    refine ⟨p, hrun, fun l hl => ?_, fun l hl => ?_, fun rule hrule => ?_⟩
    · rw [(hflags l).1, (hflags l).2, hl, Bool.or_true, Bool.or_true]
      exact ⟨rfl, rfl⟩
    · rw [(hflags l).1, (hflags l).2, hl, Bool.or_false, Bool.or_false]
      exact ⟨rfl, rfl⟩
    · refine (isReady_iff _ _ rule).2 fun l _ hl => ⟨?_, (hrule l hl).2⟩
      rw [(hflags l).1, Bool.or_eq_true]
      exact (hrule l hl).1.symm

/-- The commit step of members within reach does its work iff they are still
ready. -/
theorem committed_iff {members : BitSet} {id : LocId} {t : ProtoAll D}
    (hreach : ∀ l, members.test l = true → t.Reaches l) (hid : members.test id = true) :
    (∃ q, (commitFlag members id).run t = .ok () q ∧ Committed members id t q) ↔
      ∀ l, members.test l = true → t.w.active.ready.test l = true := by
  constructor
  · rintro ⟨q, hrun, -⟩ l hl
    exact ready_of_commitFlag hrun (hreach l hl) hl
  · intro hready
    obtain ⟨q, hcommit, hq⟩ := run_commitFlag hready hreach id
    refine ⟨q, hcommit, fun l hl => ?_, fun l hl => ?_, fun l hl => ⟨?_, ?_⟩⟩
    · rw [(hq l).1, hl, Bool.not_true, Bool.and_false]
    · rw [(hq l).2, hl, Bool.not_true, Bool.and_false]
      by_cases h : l = id <;> simp [h]
    · rw [(hq l).1, hl, Bool.not_false, Bool.and_true]
    · have hne : l ≠ id := by
        rintro rfl
        rw [hid] at hl
        cases hl
      rw [(hq l).2, if_neg hne, hl, Bool.not_false, Bool.and_true]

/-- A group of unready ports, from its batch step to the commit step for one
of them with whatever happens between, is flagged in full iff both vectors have
the chunk of each member beforehand, and the members are all ready when the
lock is taken again. -/
theorem flaggedInFull_iff {members : BitSet} {id : LocId} {s t : Grouping D}
    {hist : List (Act D)}
    (hunready : ∀ l, members.test l = true → s.c.proto.w.active.ready.test l = false)
    (hid : members.test id = true) (hrun : Run.Reach Step (s.batched members) hist t) :
    FlaggedInFull members id s.c.proto t.c.proto ↔
      (∀ l, members.test l = true → s.c.proto.Reaches l) ∧
        ∀ l, members.test l = true → t.c.proto.w.active.ready.test l = true := by
  have hlong : Longer s.c.proto (s.batched members).c.proto :=
    (Longer.keeps_changeMembers _ _ members).final (Longer.refl _)
  have hlater : (∀ l, members.test l = true → s.c.proto.Reaches l) →
      ∀ l, members.test l = true → t.c.proto.Reaches l :=
    fun hreach l hl => reach_reaches hrun (hlong.reaches (hreach l hl))
  constructor
  · intro h
    have hreach := (batched_iff hunready).1 h.batch
    exact ⟨hreach, (committed_iff (hlater hreach) hid).1 h.commit⟩
  · rintro ⟨hreach, hready⟩
    exact ⟨(batched_iff hunready).2 hreach, (committed_iff (hlater hreach) hid).2 hready⟩

/-! ## A group that is flagged in full -/

/-- Putter 3 puts to getter 64, and putter 0 to getter 1. -/
def twoLinks : Proto Nat where
  typelessProtoDef := ⟨⟨[⟨.true, [⟨3, [64]⟩]⟩, ⟨.true, [⟨0, [1]⟩]⟩]⟩,
    collectMap [(0, .portPutter), (1, .portGetter), (2, .portGetter), (3, .portPutter),
      (64, .portGetter)]⟩
  fillMemory := fun _ => none
  defFunc := fun _ => none
  locType := fun _ => some cellInfo

set_option maxRecDepth 8000 in
/-- The put at 3 fires at once, as its getter's chunk is not there to be looked
at. That wakes a group of 64, which gives the tentative flags their chunks. A
group of 0 and 1 is then woken by the pass of port 2. -/
theorem twoLinks_runs : ∃ s b s₁ s₂ s₃ s₄ s₅ s₆ s₇ s₈ t rule,
    (finish twoLinks).run (.new .empty) = .ok s b ∧
    (∃ sp, s.getSpace 3 = some (.poPu sp .new)) ∧
    (readySet 3).run (s.offer 3 (.data 7)) = .ok true s₁ ∧ s₁.r.rules[0]? = some rule ∧
    exhaustPass.run s₁ = .ok (.fired 0) s₂ ∧ exhaustPass.run s₂ = .ok .quiet s₃ ∧
    Effect.final (batchFlag (BitSet.fromIter [64])) s₃ = s₄ ∧
    s₄.getDropbox 64 = some ⟨some 3⟩ ∧
    (commitFlag (BitSet.fromIter [64]) 64).run s₄ = .ok () s₅ ∧
    Effect.final (dropLockedProto (BitSet.fromIter [64])) s₅ = s₆ ∧
    s₆.w.active.ready = ⟨[0#64]⟩ ∧ s₆.w.readyTentative = ⟨[0#64, 1#64]⟩ ∧
    Effect.final (batchFlag (BitSet.fromIter [0, 1])) s₆ = s₇ ∧
    s₇.getSpace 2 = some (.poGe .new) ∧
    (readySet 2).run s₇ = .ok true s₈ ∧
    exhaustPass.run s₈ = .ok (.committed 1) t ∧ t.getDropbox 1 = some ⟨some 1⟩ ∧
    t.w.active.ready = ⟨[7#64]⟩ :=
  ⟨_, _, _, _, _, _, _, _, _, _, _, _, rfl, ⟨_, rfl⟩, rfl, rfl, rfl, rfl, rfl, rfl, rfl, rfl, rfl,
    rfl, rfl, rfl, rfl, rfl, rfl, rfl⟩

/-- A getter arrives, and its pass commits to a rule. -/
theorem reach_commitment {s : Grouping D} {p : LocId} {i : RuleId} {box : MsgDropbox}
    {u v : ProtoAll D} (hlost : s.lost = false) (hfree : s.c.locked = false)
    (hidle : s.c.calls p = .idle) (hge : s.c.proto.getSpace p = some (.poGe box))
    (hget : (readySet p).run s.c.proto = .ok true u)
    (hpass : exhaustPass.run u = .ok (.committed i) v) :
    ∃ hist t, Run.Reach Step s hist t ∧ t.c.proto = v ∧ t.c.locked = false := by
  have hcall : ∀ a : Coordination.Act D, s.lost = true → a.underLock = false := by simp [hlost]
  have hrequest := Run.Reach.single (Step.call (hcall (.request p)) (.request hidle hge))
  have harrive := hrequest.tail
    (.call (hcall (.arrive p)) (.arrive (Function.update_self ..) hfree hget))
  exact ⟨_, _, harrive.tail (.call (hcall .leave) (.leave rfl (fun _ h => by cases h) hpass)),
    rfl, rfl⟩

theorem flaggedInFull_twoLinks : ∃ s b h g hist t,
    (finish twoLinks).run (.new .empty) = .ok s b ∧
    Run.Reach Step ⟨.start s, false⟩ h g ∧ g.c.locked = false ∧
    Run.Reach Step (g.batched (BitSet.fromIter [0, 1])) hist t ∧ t.c.locked = false ∧
    t.c.proto.Woken (BitSet.fromIter [0, 1]) 1 ∧
    FlaggedInFull (BitSet.fromIter [0, 1]) 1 g.c.proto t.c.proto := by
  obtain ⟨s, b, s₁, s₂, s₃, s₄, s₅, s₆, s₇, s₈, u, rule, hfin, ⟨sp, hpu⟩, hput, hrule, hfire,
    hquiet, rfl, hmsg, hcommit, rfl, hready, htenta, rfl, hge, hget, hpass, hwake, hend⟩ :=
    twoLinks_runs
  have hcall : ∀ a : Coordination.Act Nat, false = true → a.underLock = false := by simp
  have hfirst : Run.Reach Step ⟨.start s, false⟩ [.call .leave, .call (.fire 0),
      .call (.arrive 3), .call (.offer 3 (.data 7))] _ :=
    .tail (.tail (.tail (.tail .refl (.call (hcall _) (.offer rfl hpu)))
      (.call (hcall _) (.arrive rfl rfl hput))) (.call (hcall _) (.fire rfl hrule hfire)))
      (.call (hcall _) (.leave rfl (fun _ h => by cases h) hquiet))
  have hbatch := hfirst.tail (show Step _ (.batch (BitSet.fromIter [64])) _ from .batch rfl)
  have hgroup := hbatch.tail (.commit rfl ⟨rfl, _, hmsg⟩ hcommit)
  obtain ⟨g, h, hreach, hproto, hlost, hlock, hidle⟩ : ∃ g h,
      Run.Reach Step ⟨.start s, false⟩ h g ∧
      g.c.proto = Effect.final (dropLockedProto (BitSet.fromIter [64])) s₅ ∧
      g.lost = false ∧ g.c.locked = false ∧ g.c.calls 2 = .idle :=
    ⟨_, _, hgroup, rfl, rfl, rfl, rfl⟩
  rw [← hproto] at hready htenta hge hget
  obtain ⟨hist, t, hlater, rfl, hfree⟩ := reach_commitment
    (s := g.batched (BitSet.fromIter [0, 1])) hlost hlock hidle hge hget hpass
  have hmember : ∀ l, (BitSet.fromIter [0, 1]).test l = true → l = 0 ∨ l = 1 := by
    intro l hl
    rw [BitSet.test_fromIter, decide_eq_true_iff] at hl
    simpa using hl
  refine ⟨s, b, h, g, hist, t, hfin, hreach, hlock, hlater, hfree, ⟨rfl, _, hwake⟩, ?_⟩
  refine (flaggedInFull_iff (fun l hl => ?_) rfl hlater).2 ⟨fun l hl => ?_, fun l hl => ?_⟩
  · rw [hready]
    rcases hmember l hl with rfl | rfl
    · rfl
    · rfl
  · rw [ProtoAll.Reaches, hready, htenta]
    rcases hmember l hl with rfl | rfl
    · decide
    · decide
  · rw [hend]
    rcases hmember l hl with rfl | rfl
    · rfl
    · rfl

/-- The putter of a new channel is not ready. -/
theorem channel_unready {s : ProtoAll Nat} {b : Build Nat}
    (hfin : (finish (channel 1)).run (.new .empty) = .ok s b) (l : LocId)
    (hl : (BitSet.fromIter [0]).test l = true) : s.w.active.ready.test l = false := by
  rw [BitSet.test_fromIter, decide_eq_true_iff, List.mem_singleton] at hl
  subst hl
  rw [(built_of_finish hfin).ready_test]
  rfl

/-- In a new instance no port can be flagged. -/
theorem not_flaggedInFull_channel : ∃ s b, (finish (channel 1)).run (.new .empty) = .ok s b ∧
    (∀ l, (BitSet.fromIter [0]).test l = true → s.w.active.ready.test l = false) ∧
    ∀ t, ¬ FlaggedInFull (BitSet.fromIter [0]) 0 s t := by
  obtain ⟨s, b, hfin⟩ := finish_channel (g := 1) (by decide)
  have hunready := channel_unready hfin
  refine ⟨s, b, hfin, hunready, fun t hfull => ?_⟩
  have hreach := (batched_iff hunready).1 hfull.batch 0 (by decide)
  have hnone := hreach.1
  rw [(built_of_finish hfin).readyTentative] at hnone
  exact Nat.not_lt_zero _ hnone

end Grouping

end ReoRs
