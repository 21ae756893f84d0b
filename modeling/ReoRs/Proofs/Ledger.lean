import ReoRs.Lib.Count
import ReoRs.Proto.Acquire

/-!
# The ledger of a hand-off

Whatever the flags say, `acquire_data` keeps one balance. Every getter that
has not passed its `fetch_sub` yet is a unit of `cloner_countdown`. The one
that takes the countdown to zero is the last out, and from then on there is
exactly one of: a getter with the last-out duty in hand, a permit in the
semaphore, a `finalize` that was called. The duty changes hands through the
semaphore only, and nothing creates a second one.

That is the whole of what the completion of a hand-off, the soundness of its
deliveries and the handshake of a running protocol have in common, and it is
proved here about a single `acquireStep`.
-/

namespace ReoRs

variable {D : Type}

namespace AcquirePc

/-- The getter has not passed its `fetch_sub` yet. -/
def pending : AcquirePc → Bool
  | storeMoved | copyData | copyCountdown | askMove | winnerCountdown | loserClone
  | loserCountdown | signalCountdown => true
  | loadMoved | winnerMove | winnerWait | release | signalAsk | finalize _ | returned => false

/-- The getter has the last-out duty in hand. -/
def lastOut : AcquirePc → Bool
  | loadMoved | winnerMove | release | signalAsk | finalize _ => true
  | storeMoved | copyData | copyCountdown | askMove | winnerCountdown | winnerWait | loserClone
  | loserCountdown | signalCountdown | returned => false

/-- The getter was refused the move, or is to release the one that was not. -/
def lost : AcquirePc → Bool
  | loserClone | loserCountdown | release => true
  | storeMoved | copyData | copyCountdown | loadMoved | askMove | winnerCountdown | winnerMove
  | winnerWait | signalCountdown | signalAsk | finalize _ | returned => false

/-- The getter's next operation reads through the putter's pointer. -/
def reads : AcquirePc → Bool
  | copyData | winnerMove | loserClone => true
  | storeMoved | copyCountdown | loadMoved | askMove | winnerCountdown | winnerWait
  | loserCountdown | release | signalCountdown | signalAsk | finalize _ | returned => false

theorem pending_entry (isCopy wants : Bool) : (entry isCopy wants).pending = true := by
  cases isCopy <;> cases wants <;> rfl

theorem lost_entry (isCopy wants : Bool) : (entry isCopy wants).lost = false := by
  cases isCopy <;> cases wants <;> rfl

theorem pending_or_lastOut_of_reads {pc : AcquirePc} (h : pc.reads = true) :
    pc.pending = true ∨ pc.lastOut = true := by
  cases pc <;> first | exact .inl rfl | exact .inr rfl | cases h

theorem lastOut_of_pending {pc : AcquirePc} (h : pc.pending = true) : pc.lastOut = false := by
  cases pc <;> first | rfl | cases h

theorem pending_of_lastOut {pc : AcquirePc} (h : pc.lastOut = true) : pc.pending = false := by
  cases pc <;> first | rfl | cases h

end AcquirePc

open AcquirePc

/-- What a step did to the countdown, the semaphore and the duty: either the
getter passed its `fetch_sub`, and has the duty iff it was the last, or the
countdown stands and the duty moved at most between the getter and the
semaphore. -/
inductive LedgerStep (p : PutterSpace D) (pc : AcquirePc) (a : Acquired D) : Prop where
  | countedDown (hpre : pc.pending = true) (hpost : a.pc.pending = false)
      (hcount : a.space.clonerCountdown = p.clonerCountdown - 1)
      (hsema : a.space.moverSema = p.moverSema)
      (hlast : a.pc.lastOut = decide (p.clonerCountdown = 1))
  | moved (hpending : a.pc.pending = pc.pending)
      (hcount : a.space.clonerCountdown = p.clonerCountdown)
      (hduty : a.pc.lastOut.toNat + a.space.moverSema = pc.lastOut.toNat + p.moverSema)

theorem afterCopy_countdown (kind : SourceKind) (p : PutterSpace D) :
    (p.afterCopy kind).clonerCountdown = p.clonerCountdown := by cases kind <;> rfl

theorem afterCopy_sema (kind : SourceKind) (p : PutterSpace D) :
    (p.afterCopy kind).moverSema = p.moverSema := by cases kind <;> rfl

theorem afterCopy_moveFlags (kind : SourceKind) (p : PutterSpace D) :
    (p.afterCopy kind).moveFlags = p.moveFlags := by cases kind <;> rfl

theorem afterCopy_typeInfo (kind : SourceKind) (p : PutterSpace D) :
    (p.afterCopy kind).typeInfo = p.typeInfo := by cases kind <;> rfl

theorem countDown_ledger {p : PutterSpace D} {pc last other : AcquirePc}
    (hpre : pc.pending = true) (hlast : last.lastOut = true) (hother : other.lastOut = false)
    (hother' : other.pending = false) : LedgerStep p pc (p.countDown last other) := by
  refine .countedDown hpre ?_ rfl rfl ?_
  · by_cases h : p.clonerCountdown = 1
    · simp [PutterSpace.countDown, h, pending_of_lastOut hlast]
    · simp [PutterSpace.countDown, h, hother']
  · by_cases h : p.clonerCountdown = 1 <;> simp [PutterSpace.countDown, h, hlast, hother]

/-- Every step keeps the books. -/
theorem acquireStep_ledger {kind : SourceKind} {p : PutterSpace D} {pc : AcquirePc}
    {a : Acquired D} (h : acquireStep kind p pc = some a) : LedgerStep p pc a := by
  cases pc with
  | storeMoved =>
      cases h
      exact .moved rfl rfl rfl
  | copyData =>
      cases h
      exact .moved rfl (afterCopy_countdown kind p) (by simp [lastOut, afterCopy_sema])
  | copyCountdown =>
      cases h
      exact countDown_ledger rfl rfl rfl rfl
  | loadMoved =>
      cases h
      exact .moved rfl rfl rfl
  | askMove =>
      rw [acquireStep_askMove] at h
      cases h
      by_cases hw : p.moveFlags.moveFlags = 0#8
      · exact .moved (by simp [hw, pending]) rfl (by simp [hw, lastOut])
      · exact .moved (by simp [hw, pending]) rfl (by simp [hw, lastOut])
  | winnerCountdown =>
      cases h
      exact countDown_ledger rfl rfl rfl rfl
  | winnerMove =>
      cases h
      exact .moved rfl (afterCopy_countdown kind p) (by simp [lastOut, afterCopy_sema])
  | winnerWait =>
      simp only [acquireStep] at h
      split at h
      · next hs =>
          cases h
          exact .moved rfl rfl (by simp [lastOut]; omega)
      · cases h
  | loserClone =>
      cases h
      exact .moved rfl rfl rfl
  | loserCountdown =>
      cases h
      exact countDown_ledger rfl rfl rfl rfl
  | release =>
      cases h
      exact .moved rfl rfl (by simp [lastOut]; omega)
  | signalCountdown =>
      cases h
      exact countDown_ledger rfl rfl rfl rfl
  | signalAsk =>
      rw [acquireStep_signalAsk] at h
      cases h
      by_cases hw : p.moveFlags.moveFlags = 0#8
      · exact .moved (by simp [hw, pending]) rfl (by simp [hw, lastOut])
      · exact .moved (by simp [hw, pending]) rfl (by simp [hw, lastOut])
  | finalize b => cases h
  | returned => cases h

/-- Who takes a step is a unit of the countdown, has the duty, or gets a
permit. -/
theorem acquireStep_duty {kind : SourceKind} {p : PutterSpace D} {pc : AcquirePc}
    {a : Acquired D} (h : acquireStep kind p pc = some a) :
    pc.pending = true ∨ pc.lastOut = true ∨ 0 < p.moverSema := by
  cases pc with
  | storeMoved | copyData | copyCountdown | askMove | winnerCountdown | loserClone | loserCountdown
  | signalCountdown => exact .inl rfl
  | loadMoved | winnerMove | release | signalAsk => exact .inr (.inl rfl)
  | winnerWait =>
      simp only [acquireStep] at h
      split at h
      · next hs => exact .inr (.inr hs)
      · cases h
  | finalize b | returned => cases h

/-- While moving is enabled nobody is refused, so nobody releases a permit. -/
theorem acquireStep_moving {kind : SourceKind} {p : PutterSpace D} {pc : AcquirePc}
    {a : Acquired D} (h : acquireStep kind p pc = some a) (hsema : p.moverSema = 0)
    (hlost : pc.lost = false) (hflags : p.moveFlags.moveFlags ≠ 0#8) :
    a.space.moverSema = 0 ∧ a.pc.lost = false ∧ a.space.moveFlags.moveFlags ≠ 0#8 := by
  have hasked : p.moveFlags.askForMovePermission.2.moveFlags ≠ 0#8 := by
    intro hzero
    rw [MoveFlags.askForMovePermission] at hzero
    exact hflags (BitVec.or_eq_zero_iff.1 hzero).1
  cases pc with
  | storeMoved =>
      cases h
      exact ⟨hsema, rfl, (by decide : MoveFlags.moveFlagMoved ≠ 0#8)⟩
  | copyData | winnerMove =>
      cases h
      refine ⟨(afterCopy_sema kind p).trans hsema, rfl, ?_⟩
      rw [afterCopy_moveFlags]
      exact hflags
  | copyCountdown | winnerCountdown | signalCountdown =>
      cases h
      refine ⟨hsema, ?_, hflags⟩
      rw [PutterSpace.countDown]
      dsimp only
      split <;> rfl
  | loadMoved =>
      cases h
      exact ⟨hsema, rfl, hflags⟩
  | askMove =>
      rw [acquireStep_askMove, if_neg hflags] at h
      cases h
      exact ⟨hsema, rfl, hasked⟩
  | signalAsk =>
      rw [acquireStep_signalAsk, if_neg hflags] at h
      cases h
      exact ⟨hsema, rfl, hasked⟩
  | winnerWait =>
      rw [acquireStep, hsema, if_neg (Nat.lt_irrefl 0)] at h
      cases h
  | loserClone | loserCountdown | release => cases hlost
  | finalize b | returned => cases h

theorem acquireStep_typeInfo {kind : SourceKind} {p : PutterSpace D} {pc : AcquirePc}
    {a : Acquired D} (h : acquireStep kind p pc = some a) : a.space.typeInfo = p.typeInfo := by
  cases pc with
  | copyData | winnerMove =>
      cases h
      exact afterCopy_typeInfo kind p
  | winnerWait =>
      simp only [acquireStep] at h
      split at h <;> cases h
      rfl
  | storeMoved | copyCountdown | loadMoved | askMove | winnerCountdown | loserClone
  | loserCountdown | release | signalCountdown | signalAsk | finalize _ | returned =>
      cases h <;> rfl

/-- A step removes the pointer of a port at most. -/
theorem acquireStep_ptr {kind : SourceKind} {p : PutterSpace D} {pc : AcquirePc} {a : Acquired D}
    (h : acquireStep kind p pc = some a) :
    a.space.ptr = p.ptr ∨ a.space.ptr = .null ∧ kind = .port := by
  cases pc with
  | copyData | winnerMove =>
      cases h
      cases kind with
      | port => exact .inr ⟨rfl, rfl⟩
      | memory => exact .inl rfl
  | winnerWait =>
      simp only [acquireStep] at h
      split at h <;> cases h
      exact .inl rfl
  | storeMoved | copyCountdown | loadMoved | askMove | winnerCountdown | loserClone
  | loserCountdown | release | signalCountdown | signalAsk | finalize _ | returned =>
      cases h <;> exact .inl rfl

/-- What is transferred comes from behind the putter's pointer. -/
theorem acquireStep_transfer {kind : SourceKind} {p : PutterSpace D} {pc : AcquirePc}
    {a : Acquired D} {t : Transfer} (h : acquireStep kind p pc = some a)
    (ht : a.transfer = some t) : pc.reads = true ∧ (t = .copied p.ptr ∨ t = .cloned p.ptr) := by
  cases pc with
  | copyData | winnerMove =>
      cases h
      cases ht
      exact ⟨rfl, .inl rfl⟩
  | loserClone =>
      cases h
      cases ht
      exact ⟨rfl, .inr rfl⟩
  | winnerWait =>
      simp only [acquireStep] at h
      split at h <;> cases h
      cases ht
  | storeMoved | copyCountdown | loadMoved | askMove | winnerCountdown | loserCountdown
  | release | signalCountdown | signalAsk | finalize _ | returned =>
      cases h <;> cases ht

end ReoRs
