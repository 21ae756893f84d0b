import ReoRs.Lib.Count
import ReoRs.Proofs.Ledger
import ReoRs.Proofs.SoundSteps
import ReoRs.Proto.Ports

/-!
# The ports keep to the coordination

The calls of the ports are an environment of the coordinator as
`Coordination` has it. What has to be shown is that a putter gets at most one
`finalize` for each of its firings. The getters' books say so: a getter that
was told is a unit of the putter's countdown until it has counted down, and
the `finalize` the putter is owed is with the countdown, the semaphore, or one
getter.
-/

namespace ReoRs

variable {D : Type}

open ProtoAll

/-! ## Where the calls are -/

/-- What `Coordination` sees of a call. -/
def Phase.callState : Phase → CallState
  | entering => .entering
  | coordinating | awaiting | expired | late => .waiting
  | acquiring _ _ | finalizing _ => .idle

theorem Phase.callState_afterPass (ph : Phase) : ph.afterPass.callState = ph.callState := by
  cases ph <;> rfl

theorem Phase.callState_of_receives {ph : Phase} (h : ph.receives = true) :
    ph.callState = .waiting := by
  cases ph <;> first | rfl | cases h

/-- In the `acquire_data` of the putter, at one of the points `which`. -/
def Phase.isAt (which : AcquirePc → Bool) (q : LocId) : Phase → Bool
  | acquiring q' pc => q' == q && which pc
  | entering | coordinating | awaiting | expired | late | finalizing _ => false

theorem Phase.isAt_afterPass {which : AcquirePc → Bool} (h : which .returned = false) (q : LocId)
    (ph : Phase) : ph.afterPass.isAt which q = ph.isAt which q := by
  cases ph with
  | finalizing q' => simp [afterPass, isAt, h]
  | entering | coordinating | awaiting | expired | late | acquiring q' pc => rfl

theorem Phase.isAt_of_callState {which : AcquirePc → Bool} {ph : Phase}
    (h : ph.callState ≠ .idle) (q : LocId) : ph.isAt which q = false := by
  cases ph with
  | acquiring q' pc => exact absurd rfl h
  | entering | coordinating | awaiting | expired | late | finalizing q' => rfl

/-- The putter whose `acquire_data` the call is in. -/
def Phase.source : Phase → Option LocId
  | acquiring q _ | finalizing q => some q
  | entering | coordinating | awaiting | expired | late => none

theorem Phase.source_afterPass (ph : Phase) : ph.afterPass.source = ph.source := by
  cases ph <;> rfl

namespace ProtoAll

/-- The getter has a message from the putter. -/
def told (s : ProtoAll D) (q g : LocId) : Bool :=
  match s.getSpace g with
  | some (.poGe ⟨some m⟩) => m == q
  | _ => false

theorem told_congr {s t : ProtoAll D} {g : LocId} (h : t.getSpace g = s.getSpace g) (q : LocId) :
    t.told q g = s.told q g := by
  rw [told, told, h]

theorem told_eq_true {s : ProtoAll D} {q g : LocId} :
    s.told q g = true ↔ s.getSpace g = some (.poGe ⟨some q⟩) := by
  rw [told]
  constructor
  · intro h
    split at h
    · next m hm => rw [hm, eq_of_beq h]
    · cases h
  · intro h
    rw [h]
    exact beq_self_eq_true q

/-- The atomics of a source. -/
structure Counters where
  kind : SourceKind
  countdown : Nat
  permits : Nat
  flags : MoveFlags

def countersOf (kind : SourceKind) (sp : PutterSpace D) : Counters :=
  ⟨kind, sp.clonerCountdown, sp.moverSema, sp.moveFlags⟩

def counters (s : ProtoAll D) (q : LocId) : Option Counters :=
  (s.getSpace q).bind fun space => space.source.map fun x => countersOf x.1 x.2

theorem counters_congr {s t : ProtoAll D} {q : LocId} (h : t.getSpace q = s.getSpace q) :
    t.counters q = s.counters q := by
  rw [counters, counters, h]

theorem counters_of_source {s : ProtoAll D} {q : LocId} {space : Space D} {kind : SourceKind}
    {sp : PutterSpace D} (hspace : s.getSpace q = some space)
    (hsource : space.source = some (kind, sp)) :
    s.counters q = some (countersOf kind sp) := by
  rw [counters, hspace, Option.bind_some, hsource]
  rfl

end ProtoAll

namespace Ports

def callStateOf : Option (Active D) → CallState
  | none => .idle
  | some x => x.phase.callState

def callState (s : Ports D) (p : LocId) : CallState := callStateOf (s.calls p)

theorem callState_of_call {s : Ports D} {p : LocId} {c : PortCall D} {ph : Phase}
    {out : Option (Datum D)} (h : s.calls p = some ⟨c, ph, out⟩) :
    s.callState p = ph.callState := by
  rw [callState, h]
  rfl

theorem callState_setCall (s : Ports D) (p : LocId) (x : Option (Active D)) :
    (s.setCall p x).callState = Function.update s.callState p (callStateOf x) := by
  funext l
  rw [callState, setCall]
  by_cases h : l = p
  · subst h
    show callStateOf (Function.update s.calls l x l) = _
    rw [Function.update_self, Function.update_self]
  · show callStateOf (Function.update s.calls p x l) = _
    rw [Function.update_of_ne h, Function.update_of_ne h]
    rfl

/-- The getter is in the `acquire_data` of the putter, at one of the points
`which`. -/
def acquiringAt (which : AcquirePc → Bool) (s : Ports D) (q g : LocId) : Bool :=
  match s.calls g with
  | some x => x.phase.isAt which q
  | none => false

theorem acquiringAt_congr {which : AcquirePc → Bool} {s t : Ports D} {g : LocId}
    (h : t.calls g = s.calls g) (q : LocId) :
    t.acquiringAt which q g = s.acquiringAt which q g := by
  rw [acquiringAt, acquiringAt, h]

theorem acquiringAt_of_call {which : AcquirePc → Bool} {s : Ports D} {g : LocId}
    {c : PortCall D} {ph : Phase} {out : Option (Datum D)}
    (h : s.calls g = some ⟨c, ph, out⟩) (q : LocId) :
    s.acquiringAt which q g = ph.isAt which q := by
  rw [acquiringAt, h]

theorem acquiringAt_of_none {which : AcquirePc → Bool} {s : Ports D} {g : LocId}
    (h : s.calls g = none) (q : LocId) : s.acquiringAt which q g = false := by
  rw [acquiringAt, h]

theorem acquiringAt_of_busy {which : AcquirePc → Bool} {s : Ports D} {g : LocId}
    (h : s.callState g ≠ .idle) (q : LocId) : s.acquiringAt which q g = false := by
  rw [callState] at h
  rw [acquiringAt]
  cases hc : s.calls g with
  | none => rfl
  | some x =>
      rw [hc] at h
      exact Phase.isAt_of_callState h q

theorem calls_setCall_self (s : Ports D) (p : LocId) (x : Option (Active D)) :
    (s.setCall p x).calls p = x := by
  show Function.update s.calls p x p = x
  rw [Function.update_self]

/-- The getter has yet to count down for the putter. -/
def pends (s : Ports D) (q g : LocId) : Bool :=
  s.proto.told q g || s.acquiringAt AcquirePc.pending q g

/-! ## The books -/

/-- The books of one putter with the atomics `c`, owed `o` calls of
`finalize`. At a port moving is never disabled, and so nobody ever waits for a
permit there that comes. -/
structure BooksAt (s : Ports D) (q : LocId) (o : Nat) (c : Counters) : Prop where
  countdown : c.countdown = Count.upTo s.proto.r.spaces.length (s.pends q)
  duty : Count.upTo s.proto.r.spaces.length (s.acquiringAt AcquirePc.lastOut q) + c.permits +
    (if 0 < c.countdown then 1 else 0) = o
  moving : c.kind = .port → c.permits = 0 ∧ (∀ g, s.acquiringAt AcquirePc.lost q g = false) ∧
    (0 < o → c.flags.moveFlags ≠ 0#8)

def Books (s : Ports D) (owed : LocId → Nat) : Prop :=
  ∀ q c, s.proto.counters q = some c → BooksAt s q (owed q) c

/-- A location `get_data` and `get_signal` accept as a source. -/
def IsSource (s : ProtoAll D) (q : LocId) : Prop :=
  ∃ info, (s.getSpace q).map Space.shape = some (.poPu info) ∨
    (s.getSpace q).map Space.shape = some (.memo info)

/-- The call is one the port can make, and only a getter's is in
`acquire_data`. -/
inductive Fits (s : ProtoAll D) (p : LocId) (x : Active D) : Prop where
  | putter {info : TypeInfo D} {v : Datum D} (hput : x.call.datum = some v)
      (hshape : (s.getSpace p).map Space.shape = some (.poPu info))
      (hphase : x.phase.callState ≠ .idle)
  | getter (hget : x.call.datum = none) (hshape : (s.getSpace p).map Space.shape = some .poGe)
      (hsource : ∀ q, x.phase.source = some q → IsSource s q)

/-- What a state of the ports is to the coordinator, if putters are owed
`owed`. -/
def coordination (s : Ports D) (owed : LocId → Nat) : Coordination D :=
  ⟨s.proto, s.holder.isSome, s.callState, owed⟩

/-- Every call is at a port of its kind, and the books are right. -/
structure Kept (s : Ports D) (owed : LocId → Nat) : Prop where
  fits : ∀ p x, s.calls p = some x → Fits s.proto p x
  books : Books s owed

theorem Fits.congr {s t : ProtoAll D} {p : LocId} {x : Active D} (h : Fits s p x)
    (hshapes : t.shapes = s.shapes) : Fits t p x := by
  cases h with
  | putter hput hshape hphase =>
      exact .putter hput ((getSpace_shape hshapes p).trans hshape) hphase
  | getter hget hshape hsource =>
      refine .getter hget ((getSpace_shape hshapes p).trans hshape) fun q hq => ?_
      obtain ⟨info, hinfo⟩ := hsource q hq
      exact ⟨info, by rwa [getSpace_shape hshapes q]⟩

section

variable {s : ProtoAll D} {p : LocId} {c : PortCall D} {ph ph' : Phase}
  {out out' : Option (Datum D)}

/-- A call fits on in a later phase, unless it enters `acquire_data`. -/
theorem Fits.phase (h : Fits s p ⟨c, ph, out⟩)
    (hph : ph.callState ≠ .idle → ph'.callState ≠ .idle) (hsrc : ph'.source = ph.source) :
    Fits s p ⟨c, ph', out'⟩ := by
  cases h with
  | putter hput hshape hphase => exact .putter hput hshape (hph hphase)
  | getter hget hshape hsource => exact .getter hget hshape fun q hq => hsource q (hsrc ▸ hq)

/-- A getter's call fits in any phase with a source. -/
theorem Fits.ofGetter (h : Fits s p ⟨c, ph, out⟩) (hc : c.datum = none)
    (hsrc : ∀ q, ph'.source = some q → ph.source = some q ∨ IsSource s q) :
    Fits s p ⟨c, ph', out'⟩ := by
  cases h with
  | putter hput _ _ => cases hc.symm.trans hput
  | getter hget hshape hsource =>
      exact .getter hget hshape fun q hq => (hsrc q hq).elim (hsource q) id

end

theorem Fits.datum {s : ProtoAll D} {p : LocId} {x : Active D} (h : Fits s p x)
    (hidle : x.phase.callState = .idle) : x.call.datum = none := by
  cases h with
  | putter _ _ hphase => exact absurd hidle hphase
  | getter hget _ _ => exact hget

theorem Fits.lt {s : ProtoAll D} {p : LocId} {x : Active D} (h : Fits s p x) :
    p < s.r.spaces.length := by
  cases h with
  | putter _ hshape _ | getter _ hshape _ =>
      rw [Option.map_eq_some_iff] at hshape
      obtain ⟨sp, hsp, -⟩ := hshape
      exact (List.getElem?_eq_some_iff.1 hsp).1

theorem isSource_of_source {s : ProtoAll D} {q : LocId} {space : Space D}
    {x : SourceKind × PutterSpace D} (hspace : s.getSpace q = some space)
    (hsource : space.source = some x) : IsSource s q := by
  rw [IsSource, hspace]
  cases space with
  | poPu sp b => exact ⟨sp.typeInfo, .inl rfl⟩
  | memo sp => exact ⟨sp.typeInfo, .inr rfl⟩
  | poGe b | temp sp | unused => cases hsource

theorem IsSource.cases {s : ProtoAll D} {q : LocId} (h : IsSource s q) :
    (∃ sp b, s.getSpace q = some (.poPu sp b)) ∨ ∃ sp, s.getSpace q = some (.memo sp) := by
  obtain ⟨info, hshape⟩ := h
  cases hsp : s.getSpace q with
  | none =>
      rw [hsp] at hshape
      rcases hshape with h | h <;> cases h
  | some space =>
      rw [hsp] at hshape
      cases space with
      | poPu sp b => exact .inl ⟨sp, b, rfl⟩
      | memo sp => exact .inr ⟨sp, rfl⟩
      | poGe b | temp sp | unused => rcases hshape with h | h <;> cases h

theorem lt_of_told {s : ProtoAll D} {q g : LocId} (h : s.told q g = true) :
    g < s.r.spaces.length :=
  (List.getElem?_eq_some_iff.1 (told_eq_true.1 h)).1

section

variable {s t : Ports D} {owed : LocId → Nat}

/-- Nothing changed that the books are about. -/
theorem BooksAt.congr {q : LocId} {o : Nat} {c : Counters} (h : BooksAt s q o c)
    (hlen : t.proto.r.spaces.length = s.proto.r.spaces.length)
    (hpends : ∀ g, t.pends q g = s.pends q g)
    (hlast : ∀ g, t.acquiringAt AcquirePc.lastOut q g = s.acquiringAt AcquirePc.lastOut q g)
    (hlost : ∀ g, t.acquiringAt AcquirePc.lost q g = s.acquiringAt AcquirePc.lost q g) :
    BooksAt t q o c := by
  refine ⟨?_, ?_, fun hk => ?_⟩
  · rw [hlen, h.countdown]
    exact (Count.upTo_congr fun g _ => hpends g).symm
  · rw [hlen, Count.upTo_congr fun g _ => hlast g]
    exact h.duty
  · obtain ⟨hsema, hnot, hflags⟩ := h.moving hk
    exact ⟨hsema, fun g => (hlost g).trans (hnot g), hflags⟩

theorem Books.congr (h : Books s owed)
    (hlen : t.proto.r.spaces.length = s.proto.r.spaces.length)
    (hcounters : ∀ q, t.proto.counters q = s.proto.counters q)
    (hpends : ∀ q g, t.pends q g = s.pends q g)
    (hlast : ∀ q g, t.acquiringAt AcquirePc.lastOut q g = s.acquiringAt AcquirePc.lastOut q g)
    (hlost : ∀ q g, t.acquiringAt AcquirePc.lost q g = s.acquiringAt AcquirePc.lost q g) :
    Books t owed := fun q c hc =>
  (h q c (hcounters q ▸ hc)).congr hlen (hpends q) (hlast q) (hlost q)

/-- A putter that is owed nothing has no getters at work. -/
theorem BooksAt.closed {q : LocId} {c : Counters} (h : BooksAt s q 0 c) :
    c.countdown = 0 ∧ c.permits = 0 ∧
      (∀ g, g < s.proto.r.spaces.length → s.pends q g = false) ∧
        ∀ g, g < s.proto.r.spaces.length → s.acquiringAt AcquirePc.lastOut q g = false := by
  obtain ⟨hcount, hduty, -⟩ := h
  have hn : c.countdown = 0 := by
    by_contra hne
    rw [if_pos (Nat.pos_of_ne_zero hne)] at hduty
    omega
  rw [hn] at hcount hduty
  simp only [Nat.lt_irrefl, if_false] at hduty
  exact ⟨hn, by omega, Count.upTo_eq_zero.1 hcount.symm, Count.upTo_eq_zero.1 (by omega)⟩

/-- A getter with a duty at a putter is owed for. -/
theorem BooksAt.owed_pos {q g : LocId} {o : Nat} {c : Counters} (h : BooksAt s q o c)
    (hg : g < s.proto.r.spaces.length) (hlast : s.acquiringAt AcquirePc.lastOut q g = true) :
    0 < o := by
  have hduty := h.duty
  have := Count.upTo_pos hg hlast
  omega

end

/-! ## One atomic step of a getter -/

section

variable {s t : Ports D} {p q : LocId} {c : PortCall D} {pc pc' : AcquirePc}
  {out out' : Option (Datum D)}

theorem acquiringAt_self {which : AcquirePc → Bool}
    (hcall : s.calls p = some ⟨c, .acquiring q pc, out⟩) : s.acquiringAt which q p = which pc := by
  rw [acquiringAt_of_call hcall, Phase.isAt, beq_self_eq_true, Bool.true_and]

/-- A getter's move changes the counts of the getters by its own place. -/
theorem upTo_acquiringAt (which : AcquirePc → Bool)
    (hcall : s.calls p = some ⟨c, .acquiring q pc, out⟩)
    (hcall' : t.calls p = some ⟨c, .acquiring q pc', out'⟩)
    (hcalls : ∀ g, g ≠ p → t.calls g = s.calls g) {n : Nat} (hp : p < n) :
    Count.upTo n (t.acquiringAt which q) + (which pc).toNat =
      Count.upTo n (s.acquiringAt which q) + (which pc').toNat := by
  have h := Count.upTo_update (f := s.acquiringAt which q) (g := t.acquiringAt which q) hp
    fun g hg => acquiringAt_congr (hcalls g hg) q
  rwa [acquiringAt_self hcall, acquiringAt_self hcall'] at h

theorem upTo_pends (hcall : s.calls p = some ⟨c, .acquiring q pc, out⟩)
    (hcall' : t.calls p = some ⟨c, .acquiring q pc', out'⟩)
    (hcalls : ∀ g, g ≠ p → t.calls g = s.calls g)
    (htold : ∀ g, t.proto.told q g = s.proto.told q g) (hidle : s.proto.told q p = false)
    {n : Nat} (hp : p < n) : Count.upTo n (t.pends q) + pc.pending.toNat =
      Count.upTo n (s.pends q) + pc'.pending.toNat := by
  have h := Count.upTo_update (f := s.pends q) (g := t.pends q) hp fun g hg => by
    rw [pends, pends, htold, acquiringAt_congr (hcalls g hg)]
  rwa [pends, pends, htold, hidle, acquiringAt_self hcall, acquiringAt_self hcall',
    Bool.false_or, Bool.false_or] at h

/-- The books after a getter's step. -/
theorem BooksAt.acquire {kind : SourceKind} {sp : PutterSpace D} {acq : Acquired D} {o : Nat}
    (hbooks : BooksAt s q o (countersOf kind sp))
    (hcall : s.calls p = some ⟨c, .acquiring q pc, out⟩)
    (hcall' : t.calls p = some ⟨c, .acquiring q acq.pc, out'⟩)
    (hcalls : ∀ g, g ≠ p → t.calls g = s.calls g)
    (hlen : t.proto.r.spaces.length = s.proto.r.spaces.length)
    (hp : p < s.proto.r.spaces.length) (htold : ∀ g, t.proto.told q g = s.proto.told q g)
    (hidle : s.proto.told q p = false) (hstep : acquireStep kind sp pc = some acq) :
    BooksAt t q o (countersOf kind acq.space) ∧ 0 < o := by
  have hpends := upTo_pends hcall hcall' hcalls htold hidle hp
  have hlasts := upTo_acquiringAt AcquirePc.lastOut hcall hcall' hcalls hp
  obtain ⟨hcount, hduty, hmoving⟩ := hbooks
  have hcount : sp.clonerCountdown = Count.upTo s.proto.r.spaces.length (s.pends q) := hcount
  have hduty : Count.upTo s.proto.r.spaces.length (s.acquiringAt AcquirePc.lastOut q) +
      sp.moverSema + (if 0 < sp.clonerCountdown then 1 else 0) = o := hduty
  have hpos : 0 < o := by
    rcases acquireStep_duty hstep with hpc | hpc | hsema
    · have hunit : 0 < sp.clonerCountdown := by
        rw [hcount]
        refine Count.upTo_pos hp ?_
        rw [pends, acquiringAt_self hcall, hpc, Bool.or_true]
      rw [if_pos hunit] at hduty
      omega
    · have := Count.upTo_pos hp ((acquiringAt_self hcall).trans hpc)
      omega
    · omega
  have hmoving' : kind = .port → acq.space.moverSema = 0 ∧
      (∀ g, t.acquiringAt AcquirePc.lost q g = false) ∧
        (0 < o → acq.space.moveFlags.moveFlags ≠ 0#8) := by
    intro hk
    obtain ⟨hsema, hnot, hflags⟩ := hmoving hk
    have hpc : pc.lost = false := (acquiringAt_self hcall).symm.trans (hnot p)
    obtain ⟨hsema', hpc', hflags'⟩ := acquireStep_moving hstep hsema hpc (hflags hpos)
    refine ⟨hsema', fun g => ?_, fun _ => hflags'⟩
    by_cases hg : g = p
    · rw [hg, acquiringAt_self hcall', hpc']
    · rw [acquiringAt_congr (hcalls g hg), hnot]
  refine ⟨⟨?_, ?_, hmoving'⟩, hpos⟩
  · show acq.space.clonerCountdown = _
    rw [hlen]
    cases acquireStep_ledger hstep with
    | countedDown hpending hnot hcount' _ _ =>
        rw [hpending, hnot, Bool.toNat_true, Bool.toNat_false] at hpends
        omega
    | moved hpending hcount' _ =>
        rw [hpending] at hpends
        omega
  · show _ + acq.space.moverSema + (if 0 < acq.space.clonerCountdown then 1 else 0) = o
    rw [hlen]
    cases acquireStep_ledger hstep with
    | countedDown hpending hnot hcount' hsema hlast =>
        rw [hpending, hnot, Bool.toNat_true, Bool.toNat_false] at hpends
        rw [AcquirePc.lastOut_of_pending hpending, hlast, Bool.toNat_false] at hlasts
        have hunit : 0 < sp.clonerCountdown := by omega
        rw [if_pos hunit] at hduty
        rw [hcount', hsema]
        -- the last one to count down takes the duty over from the countdown
        by_cases hone : sp.clonerCountdown = 1
        · rw [decide_eq_true hone, Bool.toNat_true] at hlasts
          rw [hone, if_neg (by omega)]
          omega
        · rw [decide_eq_false hone, Bool.toNat_false] at hlasts
          rw [if_pos (by omega)]
          omega
    | moved _ hcount' hmoved =>
        rw [hcount']
        omega

end

end Ports

end ReoRs
