import ReoRs.Proofs.Ledger
import ReoRs.Proto.HandOff

/-!
# What every hand-off keeps

The facts about a single hand-off that hold whatever the type, the source and
the mix of callers: a step is one of two things, roles and descriptors never
change, the ledger of `Ledger.lean` balances over all getters, and no run is
longer than the getters' ranks add up to. The two contract theorems are built
on these in the files that follow.
-/

namespace ReoRs

variable {D : Type}

namespace HandOff

open AcquirePc

/-! ## One step -/

/-- A step is a `finalize` or an `acquireStep` whose transfer does not
fault. -/
theorem Step.cases {s t : HandOff D} {i : Nat} (h : Step s i t) :
    ∃ g, s.getters[i]? = some g ∧
      ((∃ b, g.pc = .finalize b ∧ t = s.finish i g b) ∨
        ∃ a v, acquireStep s.kind s.space g.pc = some a ∧ a.written s.heap = some v ∧
          t = s.advance i g a v) := by
  simp only [Step, step, Option.bind_eq_bind] at h
  obtain ⟨g, hg, h⟩ := Option.bind_eq_some_iff.1 h
  refine ⟨g, hg, ?_⟩
  split at h
  · next b hpc =>
      cases h
      exact .inl ⟨b, hpc, rfl⟩
  · obtain ⟨a, ha, h⟩ := Option.bind_eq_some_iff.1 h
    obtain ⟨v, hv, h⟩ := Option.bind_eq_some_iff.1 h
    cases h
    exact .inr ⟨a, v, ha, hv, rfl⟩

theorem step_finish {s : HandOff D} {i : Nat} {g : GetterState D} {b : Bool}
    (hg : s.getters[i]? = some g) (hpc : g.pc = .finalize b) : Step s i (s.finish i g b) := by
  simp [Step, step, hg, hpc]

theorem step_advance {s : HandOff D} {i : Nat} {g : GetterState D} {a : Acquired D}
    {v : Option (Datum D)} (hg : s.getters[i]? = some g)
    (ha : acquireStep s.kind s.space g.pc = some a) (hv : a.written s.heap = some v) :
    Step s i (s.advance i g a v) := by
  have hfin : ∀ b, g.pc ≠ .finalize b := by
    intro b hb
    rw [hb] at ha
    cases ha
  simp only [Step, step, Option.bind_eq_bind, hg, Option.bind_some, ha, hv]

theorem written_of_transfer_none {a : Acquired D} {h : Heap D} (ht : a.transfer = none) :
    a.written h = some none := by
  rw [Acquired.written, ht]

/-- A step that transfers nothing is never held up by the memory. -/
theorem step_advance_of_none {s : HandOff D} {i : Nat} {g : GetterState D} {a : Acquired D}
    (hg : s.getters[i]? = some g) (ha : acquireStep s.kind s.space g.pc = some a)
    (ht : a.transfer = none) : Step s i (s.advance i g a none) :=
  step_advance hg ha (written_of_transfer_none ht)

/-- Who has not got a step in front of it is waiting, is done, or would
fault. -/
theorem pc_of_stuck {s : HandOff D} {i : Nat} {g : GetterState D}
    (hg : s.getters[i]? = some g) (h : ∀ t, ¬ Step s i t) :
    g.pc = .returned ∨ (g.pc = .winnerWait ∧ s.space.moverSema = 0) ∨
      (g.pc.reads = true ∧ ∀ a, acquireStep s.kind s.space g.pc = some a →
        a.written s.heap = none) := by
  have hnone : ∀ a, acquireStep s.kind s.space g.pc = some a → a.written s.heap = none := by
    intro a ha
    cases hv : a.written s.heap with
    | none => rfl
    | some v => exact absurd (step_advance hg ha hv) (h _)
  cases hpc : g.pc with
  | returned => exact .inl rfl
  | winnerWait =>
      refine .inr (.inl ⟨rfl, ?_⟩)
      by_contra hs
      have ha : acquireStep s.kind s.space g.pc =
          some ⟨{ s.space with moverSema := s.space.moverSema - 1 }, .finalize true, none⟩ := by
        rw [hpc, acquireStep, if_pos (by omega)]
      exact absurd (step_advance_of_none hg ha rfl) (h _)
  | copyData | winnerMove | loserClone => exact .inr (.inr ⟨rfl, hpc ▸ hnone⟩)
  | finalize b => exact absurd (step_finish hg hpc) (h _)
  | askMove =>
      exact absurd (step_advance_of_none hg (hpc ▸ acquireStep_askMove _ _) rfl) (h _)
  | signalAsk =>
      exact absurd (step_advance_of_none hg (hpc ▸ acquireStep_signalAsk _ _) rfl) (h _)
  | storeMoved | copyCountdown | loadMoved | winnerCountdown | loserCountdown | release
  | signalCountdown =>
      exact absurd (step_advance_of_none hg (by rw [hpc]; rfl) rfl) (h _)

end HandOff

/-! ## Roles and ranks -/

namespace AcquirePc

/-- The points a getter of the given type and role can be at. -/
def inRole (isCopy wants : Bool) : AcquirePc → Bool
  | storeMoved | copyData => isCopy && wants
  | copyCountdown | loadMoved => isCopy
  | askMove | winnerCountdown | winnerMove | winnerWait | loserClone | loserCountdown =>
      !isCopy && wants
  | signalCountdown | signalAsk => !isCopy && !wants
  | release => !isCopy
  | finalize _ | returned => true

theorem inRole_entry (isCopy wants : Bool) :
    (entry isCopy wants).inRole isCopy wants = true := by
  cases isCopy <;> cases wants <;> rfl

/-- A bound on the steps a getter has left. -/
def rank : AcquirePc → Nat
  | returned => 0
  | finalize _ | release => 1
  | winnerMove | winnerWait | loadMoved | signalAsk | loserCountdown => 2
  | winnerCountdown | loserClone | signalCountdown | copyCountdown => 3
  | askMove | copyData => 4
  | storeMoved => 5

end AcquirePc

open AcquirePc

theorem countDown_pc (p : PutterSpace D) (last other : AcquirePc) :
    (p.countDown last other).pc = last ∨ (p.countDown last other).pc = other := by
  rw [PutterSpace.countDown]
  by_cases h : p.clonerCountdown = 1 <;> simp [h]

/-- Where a step leads keeps the role and lowers the rank. -/
theorem acquireStep_role {kind : SourceKind} {p : PutterSpace D} {pc : AcquirePc}
    {a : Acquired D} {isCopy wants : Bool} (h : acquireStep kind p pc = some a)
    (hrole : pc.inRole isCopy wants = true) :
    a.pc.inRole isCopy wants = true ∧ a.pc.rank < pc.rank := by
  cases pc with
  | storeMoved | copyData | loadMoved | winnerMove | loserClone | release =>
      cases h
      exact ⟨by simp_all [inRole], by simp [rank]⟩
  | copyCountdown | winnerCountdown | loserCountdown | signalCountdown =>
      cases h
      rcases countDown_pc p _ _ with hpc | hpc <;> rw [hpc] <;>
        simp_all [inRole, rank]
  | askMove =>
      rw [acquireStep_askMove] at h
      cases h
      by_cases hw : p.moveFlags.moveFlags = 0#8 <;> simp_all [inRole, rank]
  | signalAsk =>
      rw [acquireStep_signalAsk] at h
      cases h
      by_cases hw : p.moveFlags.moveFlags = 0#8 <;> simp_all [inRole, rank]
  | winnerWait =>
      simp only [acquireStep] at h
      split at h <;> cases h
      simp [inRole, rank]
  | finalize _ | returned => cases h

namespace HandOff

/-- A step of one getter leaves the others where they are. -/
theorem Step.other {s t : HandOff D} {i j : Nat} (h : Step s i t) (hij : i ≠ j) :
    t.getters[j]? = s.getters[j]? := by
  obtain ⟨g, hg, ⟨b, hpc, rfl⟩ | ⟨a, v, ha, hv, rfl⟩⟩ := h.cases
  · exact List.getElem?_set_ne hij
  · exact List.getElem?_set_ne hij

theorem getElem?_advance {s : HandOff D} {i : Nat} {g : GetterState D}
    (hg : s.getters[i]? = some g) (a : Acquired D) (v : Option (Datum D)) :
    (s.advance i g a v).getters[i]? = some { g with pc := a.pc, out := v.toList ++ g.out } := by
  simp [advance, List.getElem?_set_self', hg]

theorem getElem?_finish {s : HandOff D} {i : Nat} {g : GetterState D}
    (hg : s.getters[i]? = some g) (b : Bool) :
    (s.finish i g b).getters[i]? = some { g with pc := .returned } := by
  simp [finish, List.getElem?_set_self', hg]

theorem start_getElem? {source : FiringSource} {p : PutterSpace D} {heap : Heap D}
    {wants : List Bool} {i : Nat} {w : Bool} (h : wants[i]? = some w) :
    (start source p heap wants).getters[i]? = some ⟨w, entry p.typeInfo.isCopy w, []⟩ := by
  simp [start, h]

/-! ## What never changes -/

/-- The part of a state that the steps leave alone. -/
structure Setup (source : FiringSource) (info : TypeInfo D) (heap : Heap D) (wants : List Bool)
    (s : HandOff D) : Prop where
  kind : s.kind = source.kind
  heap : s.heap = heap
  typeInfo : s.space.typeInfo = info
  roles : s.getters.map (·.wantsData) = wants
  inRole : ∀ g ∈ s.getters, g.pc.inRole info.isCopy g.wantsData = true

section Setup

variable {source : FiringSource} {info : TypeInfo D} {heap : Heap D} {wants : List Bool}

theorem Setup.step {s t : HandOff D} {i : Nat} (hs : Setup source info heap wants s)
    (h : Step s i t) : Setup source info heap wants t := by
  obtain ⟨g, hg, ⟨b, hpc, rfl⟩ | ⟨a, v, ha, hv, rfl⟩⟩ := h.cases
  · refine ⟨hs.kind, hs.heap, ?_, ?_, ?_⟩
    · rw [finish]
      split
      · exact hs.typeInfo
      · exact hs.typeInfo
    · refine Eq.trans (Count.map_set_of_eq hg ?_) hs.roles
      rfl
    · exact Count.forall_mem_set hs.inRole rfl
  · refine ⟨hs.kind, hs.heap, (acquireStep_typeInfo ha).trans hs.typeInfo, ?_, ?_⟩
    · refine Eq.trans (Count.map_set_of_eq hg ?_) hs.roles
      rfl
    · have hrole := hs.inRole g (List.mem_of_getElem? hg)
      exact Count.forall_mem_set hs.inRole (acquireStep_role ha hrole).1

theorem setup_start (p : PutterSpace D) :
    Setup source p.typeInfo heap wants (start source p heap wants) where
  kind := rfl
  heap := rfl
  typeInfo := rfl
  roles := by simp [start, Function.comp_def]
  inRole := by
    intro g hg
    obtain ⟨w, -, rfl⟩ := List.mem_map.1 hg
    exact inRole_entry _ _

theorem Setup.of_reachable {p : PutterSpace D} {s : HandOff D}
    (h : Reachable (start source p heap wants) s) : Setup source p.typeInfo heap wants s := by
  obtain ⟨_, h⟩ := h
  exact h.preserves (setup_start p) fun hs hstep => hs.step hstep

theorem Setup.length {s : HandOff D} (hs : Setup source info heap wants s) :
    s.getters.length = wants.length := by
  rw [← hs.roles, List.length_map]

/-- There is a data caller iff some call wants data. -/
theorem Setup.exists_wantsData_iff {s : HandOff D} (hs : Setup source info heap wants s) :
    (∃ g ∈ s.getters, g.wantsData = true) ↔ true ∈ wants := by
  rw [← hs.roles, List.mem_map]

theorem Setup.countP_wantsData {s : HandOff D} (hs : Setup source info heap wants s) :
    s.getters.countP (·.wantsData) = wants.count true := by
  rw [← hs.roles, List.count, List.countP_map]
  congr 1
  funext g
  simp

end Setup

/-! ## Every run ends -/

def rank (s : HandOff D) : Nat := (s.getters.map (·.pc.rank)).sum

theorem Step.rank_lt {s t : HandOff D} {i : Nat} {info : TypeInfo D} {source : FiringSource}
    {heap : Heap D} {wants : List Bool} (hs : Setup source info heap wants s) (h : Step s i t) :
    t.rank < s.rank := by
  obtain ⟨g, hg, ⟨b, hpc, rfl⟩ | ⟨a, v, ha, hv, rfl⟩⟩ := h.cases
  · have hsum := Count.sum_map_set_add (f := fun g => g.pc.rank) hg { g with pc := .returned }
    have hlt : AcquirePc.returned.rank < g.pc.rank := by rw [hpc]; exact Nat.one_pos
    simp only [rank, finish]
    simp only at hsum
    omega
  · have hlt := (acquireStep_role ha (hs.inRole g (List.mem_of_getElem? hg))).2
    have hsum := Count.sum_map_set_add (f := fun g => g.pc.rank) hg
      { g with pc := a.pc, out := v.toList ++ g.out }
    simp only [rank, advance]
    simp only at hsum
    omega

/-! ## The ledger over all getters -/

/-- How many getters have not passed their `fetch_sub`. -/
def pendings (gs : List (GetterState D)) : Nat := gs.countP (·.pc.pending)

/-- How many getters have the last-out duty in hand. -/
def lastOuts (gs : List (GetterState D)) : Nat := gs.countP (·.pc.lastOut)

theorem pendings_set {gs : List (GetterState D)} {i : Nat} {g : GetterState D}
    (hg : gs[i]? = some g) (g' : GetterState D) :
    pendings (gs.set i g') + g.pc.pending.toNat = pendings gs + g'.pc.pending.toNat :=
  Count.countP_set_add hg g'

theorem lastOuts_set {gs : List (GetterState D)} {i : Nat} {g : GetterState D}
    (hg : gs[i]? = some g) (g' : GetterState D) :
    lastOuts (gs.set i g') + g.pc.lastOut.toNat = lastOuts gs + g'.pc.lastOut.toNat :=
  Count.countP_set_add hg g'

theorem pendings_pos {gs : List (GetterState D)} {i : Nat} {g : GetterState D}
    (hg : gs[i]? = some g) (hpc : g.pc.pending = true) : 0 < pendings gs :=
  Count.countP_pos_of_getElem? hg hpc

theorem lastOuts_pos {gs : List (GetterState D)} {i : Nat} {g : GetterState D}
    (hg : gs[i]? = some g) (hpc : g.pc.lastOut = true) : 0 < lastOuts gs :=
  Count.countP_pos_of_getElem? hg hpc

end HandOff

def HandOffEvent.isFinalized : HandOffEvent → Bool
  | .finalized _ _ => true
  | .transferred _ _ => false

/-- How often `finalize` was called. -/
def finalizes (log : List HandOffEvent) : Nat := log.countP HandOffEvent.isFinalized

@[simp] theorem finalizes_nil : finalizes [] = 0 := rfl

@[simp] theorem finalizes_finalized (i : Nat) (b : Bool) (log : List HandOffEvent) :
    finalizes (.finalized i b :: log) = finalizes log + 1 :=
  List.countP_cons_of_pos rfl

@[simp] theorem finalizes_transferred (i : Nat) (t : Transfer) (log : List HandOffEvent) :
    finalizes (.transferred i t :: log) = finalizes log :=
  List.countP_cons_of_neg (by simp [HandOffEvent.isFinalized])

namespace HandOff

/-- The countdown counts the getters that are pending. Once it is zero there
is one duty, permit or call of `finalize`, and no event follows a call of
`finalize`. -/
structure Books (s : HandOff D) : Prop where
  countdown : s.space.clonerCountdown = pendings s.getters
  duty : lastOuts s.getters + s.space.moverSema + finalizes s.log =
    if s.space.clonerCountdown = 0 then 1 else 0
  closing : 0 < finalizes s.log → ∃ i b rest, s.log = .finalized i b :: rest

theorem Books.duty_le {s : HandOff D} (hs : Books s) :
    lastOuts s.getters + s.space.moverSema + finalizes s.log ≤ 1 := by
  rw [hs.duty]
  split <;> omega

theorem Books.duty_of_pending {s : HandOff D} (hs : Books s) {i : Nat} {g : GetterState D}
    (hg : s.getters[i]? = some g) (hpc : g.pc.pending = true) :
    lastOuts s.getters + s.space.moverSema + finalizes s.log = 0 := by
  have hpos := pendings_pos hg hpc
  rw [hs.duty, if_neg (by rw [hs.countdown]; omega)]

/-- A getter that still reads has not seen a `finalize`. -/
theorem Books.not_finalized_of_reads {s : HandOff D} (hs : Books s) {i : Nat}
    {g : GetterState D} (hg : s.getters[i]? = some g) (hpc : g.pc.reads = true) :
    finalizes s.log = 0 := by
  rcases pending_or_lastOut_of_reads hpc with hpending | hlast
  · have := hs.duty_of_pending hg hpending
    omega
  · have := lastOuts_pos hg hlast
    have := hs.duty_le
    omega

/-- The last out is alone: nobody is pending, no permit is out, `finalize` has
not been called. -/
theorem Books.of_lastOut {s : HandOff D} (hs : Books s) {i : Nat} {g : GetterState D}
    (hg : s.getters[i]? = some g) (hpc : g.pc.lastOut = true) :
    pendings s.getters = 0 ∧ lastOuts s.getters = 1 ∧ s.space.moverSema = 0 ∧
      finalizes s.log = 0 := by
  have hpos := lastOuts_pos hg hpc
  have hduty := hs.duty
  split at hduty
  · next h0 =>
      rw [hs.countdown] at h0
      exact ⟨h0, by omega, by omega, by omega⟩
  · omega

theorem books_start {source : FiringSource} {p : PutterSpace D} {heap : Heap D}
    {wants : List Bool} (hsema : p.moverSema = 0) (hwants : wants ≠ []) :
    Books (start source p heap wants) := by
  have hall : pendings (start source p heap wants).getters = wants.length := by
    rw [pendings, List.countP_eq_length.2]
    · simp [start]
    · intro g hg
      obtain ⟨w, -, rfl⟩ := List.mem_map.1 hg
      exact pending_entry _ _
  have hlast : lastOuts (start source p heap wants).getters = 0 := by
    rw [lastOuts, List.countP_eq_zero]
    intro g hg
    obtain ⟨w, -, rfl⟩ := List.mem_map.1 hg
    simp [lastOut_of_pending (pending_entry p.typeInfo.isCopy w)]
  have hpos : wants.length ≠ 0 := by simpa using hwants
  refine ⟨hall.symm, ?_, ?_⟩
  · rw [hlast]
    show 0 + p.moverSema + 0 = if wants.length = 0 then 1 else 0
    rw [if_neg hpos]
    omega
  · intro h
    cases h

theorem finalizes_advance (s : HandOff D) (i : Nat) (g : GetterState D) (a : Acquired D)
    (v : Option (Datum D)) : finalizes (s.advance i g a v).log = finalizes s.log := by
  rw [advance]
  cases a.transfer <;> simp

theorem finish_counters (s : HandOff D) (i : Nat) (g : GetterState D) (b : Bool) :
    (s.finish i g b).space.clonerCountdown = s.space.clonerCountdown ∧
      (s.finish i g b).space.moverSema = s.space.moverSema ∧
      (s.finish i g b).space.moveFlags = s.space.moveFlags := by
  rw [finish]
  split <;> exact ⟨rfl, rfl, rfl⟩

theorem Books.finish {s : HandOff D} {i : Nat} {g : GetterState D} {b : Bool} (hs : Books s)
    (hg : s.getters[i]? = some g) (hpc : g.pc = .finalize b) : Books (s.finish i g b) := by
  obtain ⟨hc, hm, -⟩ := finish_counters s i g b
  have hpend := pendings_set hg { g with pc := .returned }
  have hlast := lastOuts_set hg { g with pc := .returned }
  have hduty := hs.duty
  have hcount := hs.countdown
  simp only [hpc, pending, lastOut, Bool.toNat_false, Bool.toNat_true] at hpend hlast
  refine ⟨?_, ?_, fun _ => ⟨i, b, s.log, rfl⟩⟩
  · rw [hc]
    show _ = pendings (s.getters.set i _)
    omega
  · rw [hc, hm]
    show lastOuts (s.getters.set i _) + _ + finalizes (_ :: s.log) = _
    rw [finalizes_finalized]
    omega

theorem Books.advance {s : HandOff D} {i : Nat} {g : GetterState D} {a : Acquired D}
    {v : Option (Datum D)} (hs : Books s) (hg : s.getters[i]? = some g)
    (ha : acquireStep s.kind s.space g.pc = some a) : Books (s.advance i g a v) := by
  have hpend := pendings_set hg { g with pc := a.pc, out := v.toList ++ g.out }
  have hlast := lastOuts_set hg { g with pc := a.pc, out := v.toList ++ g.out }
  have hlog := finalizes_advance s i g a v
  have hduty := hs.duty
  have hcount := hs.countdown
  have hclosing : 0 < finalizes (s.advance i g a v).log →
      ∃ j b rest, (s.advance i g a v).log = .finalized j b :: rest := by
    intro hpos
    rw [hlog] at hpos
    cases ht : a.transfer with
    | none =>
        obtain ⟨j, b, rest, hrest⟩ := hs.closing hpos
        exact ⟨j, b, rest, by simp [HandOff.advance, ht, hrest]⟩
    | some tr =>
        have := hs.not_finalized_of_reads hg (acquireStep_transfer ha ht).1
        omega
  refine ⟨?_, ?_, hclosing⟩
  · show a.space.clonerCountdown = pendings (s.getters.set i _)
    cases acquireStep_ledger ha with
    | countedDown hpre hpost hc hsm hl =>
        simp only [hpre, hpost, Bool.toNat_false, Bool.toNat_true] at hpend
        omega
    | moved hpre hc hd =>
        simp only [hpre] at hpend
        omega
  · rw [hlog]
    show lastOuts (s.getters.set i _) + a.space.moverSema + _ =
      if a.space.clonerCountdown = 0 then 1 else 0
    cases acquireStep_ledger ha with
    | countedDown hpre hpost hc hsm hl =>
        have hzero := hs.duty_of_pending hg hpre
        have hpos := pendings_pos hg hpre
        simp only [lastOut_of_pending hpre, hl, Bool.toNat_false] at hlast
        by_cases h1 : s.space.clonerCountdown = 1
        · simp only [h1, decide_true, Bool.toNat_true] at hlast
          rw [if_pos (by omega)]
          omega
        · simp only [h1, decide_false, Bool.toNat_false] at hlast
          rw [if_neg (by omega)]
          omega
    | moved hpre hc hd =>
        simp only at hlast
        rw [hc]
        omega

theorem Books.step {s t : HandOff D} {i : Nat} (hs : Books s) (h : Step s i t) : Books t := by
  obtain ⟨g, hg, ⟨b, hpc, rfl⟩ | ⟨a, v, ha, hv, rfl⟩⟩ := h.cases
  · exact hs.finish hg hpc
  · exact hs.advance hg ha

/-- Once `finalize` has been called nothing happens any more. -/
theorem Books.not_finalized_of_step {s t : HandOff D} {i : Nat} (hs : Books s)
    (h : Step s i t) : finalizes s.log = 0 := by
  obtain ⟨g, hg, ⟨b, hpc, -⟩ | ⟨a, v, ha, -, -⟩⟩ := h.cases
  · exact (hs.of_lastOut hg (by rw [hpc]; rfl)).2.2.2
  · cases acquireStep_ledger ha with
    | countedDown hpre _ _ _ _ =>
        have := hs.duty_of_pending hg hpre
        omega
    | moved _ _ hduty =>
        by_cases hpend : g.pc.pending = true
        · have := hs.duty_of_pending hg hpend
          omega
        · by_cases hlast : g.pc.lastOut = true
          · exact (hs.of_lastOut hg hlast).2.2.2
          · -- only a waiting winner is neither, and it takes a permit
            have hsema : 0 < s.space.moverSema := by
              cases hpc : g.pc <;> simp [hpc, pending, lastOut] at hpend hlast
              · rw [hpc] at ha
                by_contra h0
                rw [acquireStep, if_neg h0] at ha
                cases ha
              · rw [hpc] at ha
                cases ha
            have := hs.duty_le
            omega

theorem Books.lastOut_unique {s : HandOff D} (hs : Books s) {i j : Nat} {g g' : GetterState D}
    (hg : s.getters[i]? = some g) (hg' : s.getters[j]? = some g') (hpc : g.pc.lastOut = true)
    (hpc' : g'.pc.lastOut = true) : i = j ∧ g = g' := by
  have hle : s.getters.countP (·.pc.lastOut) ≤ 1 := le_of_eq (hs.of_lastOut hg hpc).2.1
  obtain rfl := Count.eq_of_countP_le_one hle hg hg' hpc hpc'
  exact ⟨rfl, Option.some.inj (hg.symm.trans hg')⟩

theorem Books.of_reachable {source : FiringSource} {p : PutterSpace D} {heap : Heap D}
    {wants : List Bool} {s : HandOff D} (hsema : p.moverSema = 0) (hwants : wants ≠ [])
    (h : Reachable (start source p heap wants) s) : Books s := by
  obtain ⟨_, h⟩ := h
  exact h.preserves (books_start hsema hwants) fun hs hstep => hs.step hstep

/-! ## Reachable states -/

section Reachable

variable {source : FiringSource} {p : PutterSpace D} {heap : Heap D} {wants : List Bool}

/-- The invariant rule of a hand-off: what a step preserves may lean on the
setup and on the books. -/
theorem Reachable.invariant {P : HandOff D → Prop} {s : HandOff D} (hsema : p.moverSema = 0)
    (hwants : wants ≠ []) (h0 : P (start source p heap wants))
    (hstep : ∀ {s i t}, Setup source p.typeInfo heap wants s → Books s → P s → Step s i t → P t)
    (h : Reachable (start source p heap wants) s) : P s := by
  obtain ⟨_, h⟩ := h
  refine (h.preserves
    (P := fun s => Setup source p.typeInfo heap wants s ∧ Books s ∧ P s)
    ⟨setup_start p, books_start hsema hwants, h0⟩ ?_).2.2
  intro s i t ⟨hset, hbooks, hP⟩ hst
  exact ⟨hset.step hst, hbooks.step hst, hstep hset hbooks hP hst⟩

theorem Reachable.trans {s t : HandOff D} {h : List Nat}
    (hs : Reachable (start source p heap wants) s) (ht : Run.Reach Step s h t) :
    Reachable (start source p heap wants) t := by
  obtain ⟨k, hk⟩ := hs
  exact ⟨h ++ k, hk.trans ht⟩

/-- Every run from a reachable state can be extended to a stuck one. -/
theorem Reachable.exists_stuck {I : HandOff D → Prop} {s : HandOff D} (hsema : p.moverSema = 0)
    (hwants : wants ≠ []) (hs : Reachable (start source p heap wants) s) (hI : I s)
    (hstep : ∀ {s i t}, Setup source p.typeInfo heap wants s → Books s → I s → Step s i t → I t) :
    ∃ t, Reachable (start source p heap wants) t ∧ Run.Stuck Step t ∧ I t := by
  obtain ⟨h, t, hst, hstuck, -, -, ht⟩ := @Run.exists_stuck _ _ Step rank
    (fun s => Setup source p.typeInfo heap wants s ∧ Books s ∧ I s)
    (fun ⟨hset, hbooks, hI⟩ hst =>
      ⟨⟨hset.step hst, hbooks.step hst, hstep hset hbooks hI hst⟩, hst.rank_lt hset⟩)
    s ⟨.of_reachable hs, .of_reachable hsema hwants hs, hI⟩
  exact ⟨t, hs.trans hst, hstuck, ht⟩

end Reachable

end HandOff

end ReoRs
