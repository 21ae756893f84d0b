import ReoRs.Proofs.PortsSteps

/-!
# A hand-off with one getter

With one getter to call, `perform_action` leaves a countdown of one and flags
that let the getter have its way, and `acquire_data` has one path for each of
the four kinds of getter there are. `OnTrack` says what the space of the
putter is like at each point of these paths, and `Underway` where the value is
meanwhile: behind the putter's pointer until it has been transferred, behind
the getter's out pointer from then on. Both are kept by every step.
-/

namespace ReoRs

variable {D : Type}

open ProtoAll

/-- A getter that wants data has it. -/
def AcquirePc.delivered : AcquirePc → Bool
  | copyCountdown | loadMoved | finalize _ | returned => true
  | storeMoved | copyData | askMove | winnerCountdown | winnerMove | winnerWait | loserClone
  | loserCountdown | release | signalCountdown | signalAsk => false

/-- The space of a putter whose one getter is at the point, having been called
by a `get` if `wants`. -/
def PutterSpace.OnTrack (sp : PutterSpace D) (wants : Bool) : AcquirePc → Prop
  | .storeMoved => wants = true ∧ sp.clonerCountdown = 1
  | .copyData => wants = true ∧ sp.clonerCountdown = 1 ∧ sp.moveFlags = ⟨MoveFlags.moveFlagMoved⟩
  | .copyCountdown => sp.clonerCountdown = 1 ∧
      sp.moveFlags = ⟨if wants then MoveFlags.moveFlagMoved else MoveFlags.moveFlagDisabled⟩
  | .loadMoved =>
      sp.moveFlags = ⟨if wants then MoveFlags.moveFlagMoved else MoveFlags.moveFlagDisabled⟩
  | .askMove => wants = true ∧ sp.clonerCountdown = 1 ∧ sp.moveFlags = ⟨MoveFlags.moveFlagDisabled⟩
  | .winnerCountdown => wants = true ∧ sp.clonerCountdown = 1
  | .winnerMove => wants = true
  | .signalCountdown =>
      wants = false ∧ sp.clonerCountdown = 1 ∧ sp.moveFlags = ⟨MoveFlags.moveFlagDisabled⟩
  | .signalAsk => wants = false ∧ sp.moveFlags = ⟨MoveFlags.moveFlagDisabled⟩
  | .finalize m => m = wants
  | .winnerWait | .loserClone | .loserCountdown | .release | .returned => False

/-- Where the value is that the getter is to have, `r` if it has asked for
it. -/
structure Underway (heap : Heap D) (sp : PutterSpace D) (wants : Bool) (pc : AcquirePc)
    (out r : Option (Datum D)) : Prop where
  track : sp.OnTrack wants pc
  offer : wants = true → pc.delivered = false → heap.read sp.ptr = r ∧ r ≠ none ∧ out = none
  got : wants = true → pc.delivered = true → out = r
  signal : wants = false → r = none ∧ out = none

section

variable {heap : Heap D} {sp : PutterSpace D} {wants : Bool} {pc : AcquirePc}
  {out r : Option (Datum D)}

theorem PutterSpace.OnTrack.pending_or_lastOut (h : sp.OnTrack wants pc) :
    pc.pending = true ∨ pc.lastOut = true := by
  cases pc with
  | winnerWait | returned => exact h.elim
  | storeMoved | copyData | copyCountdown | askMove | winnerCountdown | loserClone
  | loserCountdown | signalCountdown => exact .inl rfl
  | loadMoved | winnerMove | release | signalAsk | finalize m => exact .inr rfl

theorem PutterSpace.OnTrack.countdown (h : sp.OnTrack wants pc) (hpc : pc.pending = true) :
    sp.clonerCountdown = 1 := by
  cases pc with
  | storeMoved | copyData | askMove | winnerCountdown | signalCountdown =>
      first | exact h.2 | exact h.2.1
  | copyCountdown => exact h.1
  | loserClone | loserCountdown => exact h.elim
  | loadMoved | winnerMove | winnerWait | release | signalAsk | finalize m | returned => cases hpc

/-- What `perform_action` stores for one getter is a start. -/
theorem Underway.start {v : Datum D} (hread : heap.read sp.ptr = some v) (isCopy wants : Bool) :
    Underway heap (sp.beginHandOff 1 false) wants (.entry isCopy wants) none
      (if wants then some v else none) := by
  refine ⟨?_, ?_, ?_, ?_⟩
  · cases isCopy <;> cases wants <;> simp [AcquirePc.entry, PutterSpace.OnTrack,
      PutterSpace.beginHandOff, MoveFlags.reset]
  · intro hw _
    rw [hw]
    exact ⟨hread, by simp, rfl⟩
  · intro hw hd
    rw [hw] at hd
    cases isCopy <;> cases hd
  · intro hw
    rw [hw]
    exact ⟨rfl, rfl⟩

/-- The heap matters behind the putter's pointer only. -/
theorem Underway.congr {heap' : Heap D} (h : Underway heap sp wants pc out r)
    (hread : heap'.read sp.ptr = heap.read sp.ptr) : Underway heap' sp wants pc out r :=
  ⟨h.track, fun hw hd => hread ▸ h.offer hw hd, h.got, h.signal⟩

/-- A step without a transfer. -/
theorem Underway.quiet {sp' : PutterSpace D} {pc' : AcquirePc}
    (h : Underway heap sp wants pc out r) (htrack : sp'.OnTrack wants pc')
    (hptr : sp'.ptr = sp.ptr) (hpc : pc'.delivered = pc.delivered) :
    Underway heap sp' wants pc' out r :=
  ⟨htrack, fun hw hd => hptr ▸ h.offer hw (hpc ▸ hd), fun hw hd => h.got hw (hpc ▸ hd), h.signal⟩

/-- The transfer of a getter that wants data. -/
theorem Underway.transferred {sp' : PutterSpace D} {pc' : AcquirePc} {v : Option (Datum D)}
    (h : Underway heap sp wants pc out r) (hw : wants = true) (htrack : sp'.OnTrack wants pc')
    (hpc : pc.delivered = false) (hpc' : pc'.delivered = true)
    (hmoves : Transfers.actual sp.typeInfo heap (.copied sp.ptr) v) :
    Underway heap sp' wants pc' v r := by
  obtain ⟨hread, -, -⟩ := h.offer hw hpc
  refine ⟨htrack, fun _ hd => ?_, fun _ _ => ?_, fun hnot => ?_⟩
  · cases hd.symm.trans hpc'
  · rw [Transfers.actual, Transfer.value, TypeInfo.copied] at hmoves
    split at hmoves
    · cases hmoves
    · cases hmoves
      exact hread
  · cases hnot.symm.trans hw

/-- Every step of the getter. -/
theorem Underway.step {kind : SourceKind} {acq : Acquired D} {v : Option (Datum D)}
    (h : Underway heap sp wants pc out r) (hstep : acquireStep kind sp pc = some acq)
    (hmoves : ∀ t, acq.transfer = some t → Transfers.actual sp.typeInfo heap t v) :
    Underway heap acq.space wants acq.pc (if acq.transfer.isSome then v else out) r := by
  have htrack := h.track
  cases pc with
  | storeMoved =>
      cases hstep
      exact h.quiet ⟨htrack.1, htrack.2, rfl⟩ rfl rfl
  | copyData =>
      cases hstep
      obtain ⟨hw, hcount, hflags⟩ := htrack
      refine h.transferred hw ⟨?_, ?_⟩ rfl rfl (hmoves _ rfl)
      · exact (afterCopy_countdown kind sp).trans hcount
      · rw [afterCopy_moveFlags, hflags, hw]
        rfl
  | copyCountdown =>
      cases hstep
      obtain ⟨hcount, hflags⟩ := htrack
      rw [PutterSpace.countDown, if_pos hcount]
      exact h.quiet hflags rfl rfl
  | loadMoved =>
      cases hstep
      refine h.quiet ?_ rfl rfl
      show sp.moveFlags.didSomeoneMove = wants
      rw [show sp.moveFlags = _ from htrack]
      cases wants <;> rfl
  | askMove =>
      obtain ⟨hw, hcount, hflags⟩ := htrack
      rw [acquireStep_askMove, if_neg (by rw [hflags]; decide)] at hstep
      cases hstep
      exact h.quiet ⟨hw, hcount⟩ rfl rfl
  | winnerCountdown =>
      cases hstep
      obtain ⟨hw, hcount⟩ := htrack
      rw [PutterSpace.countDown, if_pos hcount]
      exact h.quiet hw rfl rfl
  | winnerMove =>
      cases hstep
      have hw : wants = true := htrack
      exact h.transferred hw hw.symm rfl rfl (hmoves _ rfl)
  | signalCountdown =>
      cases hstep
      obtain ⟨hw, hcount, hflags⟩ := htrack
      rw [PutterSpace.countDown, if_pos hcount]
      exact h.quiet ⟨hw, hflags⟩ rfl rfl
  | signalAsk =>
      obtain ⟨hw, hflags⟩ := htrack
      rw [acquireStep_signalAsk, if_neg (by rw [hflags]; decide)] at hstep
      cases hstep
      obtain ⟨hr, hout⟩ := h.signal hw
      exact ⟨hw.symm, fun hnot => (by cases hw.symm.trans hnot),
        fun hnot => (by cases hw.symm.trans hnot), fun _ => ⟨hr, hout⟩⟩
  | finalize m => cases hstep
  | winnerWait | loserClone | loserCountdown | release | returned => exact htrack.elim

/-- What the getter has by the end. -/
theorem Underway.result {m : Bool} (h : Underway heap sp wants (.finalize m) out r) :
    m = wants ∧ out = r := by
  refine ⟨h.track, ?_⟩
  cases hw : wants with
  | true => exact h.got hw rfl
  | false =>
      obtain ⟨hr, hout⟩ := h.signal hw
      rw [hr, hout]

end

/-! ## One getter at a time -/

namespace Ports

variable {s : Ports D} {owed : LocId → Nat}

/-- The getter has yet to finish with the putter. -/
def Serving (s : Ports D) (q g : LocId) : Prop :=
  s.pends q g = true ∨ s.acquiringAt AcquirePc.lastOut q g = true

/-- The location is a source with the space. -/
def Handing (s : ProtoAll D) (q : LocId) (kind : SourceKind) (sp : PutterSpace D) : Prop :=
  ∃ space, s.getSpace q = some space ∧ space.source = some (kind, sp)

theorem Handing.cases {p : ProtoAll D} {q : LocId} {kind : SourceKind} {sp : PutterSpace D}
    (h : Handing p q kind sp) : (kind = .port ∧ ∃ b, p.getSpace q = some (.poPu sp b)) ∨
      (kind = .memory ∧ p.getSpace q = some (.memo sp)) := by
  obtain ⟨space, hspace, hsource⟩ := h
  cases space with
  | poPu sp' b =>
      cases hsource
      exact .inl ⟨rfl, b, hspace⟩
  | memo sp' =>
      cases hsource
      exact .inr ⟨rfl, hspace⟩
  | poGe b | temp sp' | unused => cases hsource

theorem Handing.unique {p : ProtoAll D} {q : LocId} {kind kind' : SourceKind}
    {sp sp' : PutterSpace D} (h : Handing p q kind sp) (h' : Handing p q kind' sp') :
    kind = kind' ∧ sp = sp' := by
  obtain ⟨space, hspace, hsource⟩ := h
  obtain ⟨space', hspace', hsource'⟩ := h'
  cases hspace.symm.trans hspace'
  cases hsource.symm.trans hsource'
  exact ⟨rfl, rfl⟩

theorem Kept.lt_of_serving (h : Kept s owed) {q g : LocId} (hg : s.Serving q g) :
    g < s.proto.r.spaces.length := by
  have hlt : ∀ which : AcquirePc → Bool, s.acquiringAt which q g = true →
      g < s.proto.r.spaces.length := by
    intro which hat
    rw [acquiringAt] at hat
    split at hat
    · next x hx => exact (h.fits g x hx).lt
    · cases hat
  rcases hg with hg | hg
  · rcases Bool.or_eq_true_iff.1 hg with hg | hg
    · exact lt_of_told hg
    · exact hlt _ hg
  · exact hlt _ hg

/-- A source that serves a getter is owed a `finalize`. -/
theorem Kept.owed_of_serving (h : Kept s owed) {q g : LocId} {kind : SourceKind}
    {sp : PutterSpace D} (hfrom : Handing s.proto q kind sp) (hg : s.Serving q g) :
    0 < owed q := by
  obtain ⟨space, hspace, hsource⟩ := hfrom
  have hlt := h.lt_of_serving hg
  obtain ⟨hcount, hduty, -⟩ := h.books q _ (counters_of_source hspace hsource)
  rcases hg with hg | hg
  · have hpos := Count.upTo_pos hlt hg
    rw [← hcount] at hpos
    rw [if_pos hpos] at hduty
    omega
  · have hpos := Count.upTo_pos hlt hg
    omega

/-- The one getter of a source on track is alone. -/
theorem Kept.serving_unique (h : Kept s owed) {q g g' : LocId} (hone : owed q ≤ 1)
    {kind : SourceKind} {sp : PutterSpace D} (hfrom : Handing s.proto q kind sp)
    (hcountdown : s.pends q g = true → sp.clonerCountdown = 1) (hg : s.Serving q g)
    (hg' : s.Serving q g') : g' = g := by
  obtain ⟨space, hspace, hsource⟩ := hfrom
  have hlt := h.lt_of_serving hg
  have hlt' := h.lt_of_serving hg'
  obtain ⟨hcount, hduty, -⟩ := h.books q _ (counters_of_source hspace hsource)
  have hcount : sp.clonerCountdown = Count.upTo s.proto.r.spaces.length (s.pends q) := hcount
  have hduty : Count.upTo s.proto.r.spaces.length (s.acquiringAt AcquirePc.lastOut q) +
      sp.moverSema + (if 0 < sp.clonerCountdown then 1 else 0) = owed q := hduty
  have hnot : ∀ {x y : LocId}, x < s.proto.r.spaces.length → y < s.proto.r.spaces.length →
      s.pends q x = true → s.acquiringAt AcquirePc.lastOut q y = true → False := by
    intro x y hx hy hpends hlast
    have hpos := Count.upTo_pos hx hpends
    have hpos' := Count.upTo_pos hy hlast
    rw [← hcount] at hpos
    rw [if_pos hpos] at hduty
    omega
  rcases hg with hg | hg
  · rcases hg' with hg' | hg'
    · refine Count.eq_of_upTo_le_one ?_ hlt' hlt hg' hg
      rw [← hcount, hcountdown hg]
    · exact (hnot hlt hlt' hg hg').elim
  · rcases hg' with hg' | hg'
    · exact (hnot hlt' hlt hg' hg).elim
    · refine Count.eq_of_upTo_le_one ?_ hlt' hlt hg' hg
      omega

end Ports

end ReoRs
