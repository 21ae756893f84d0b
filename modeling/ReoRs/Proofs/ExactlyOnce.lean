import ReoRs.Proofs.Disposal
import ReoRs.Proofs.GuardChecks
import ReoRs.Proofs.Instantiate
import ReoRs.Proofs.OwnershipFire

/-!
# Every datum has one owner

The accounts of a run: what the calls were given is what is owned by a call, a
cell or a getter, what was handed back to a caller, and what was dropped.
Every step keeps them, but for the return of a `put_timeout` that is told that
its datum was moved: it drops the datum that is another's by now, and breaks
them. So with no such return every datum has one owner at any time, and the
storage drops the rest when the instance goes.
-/

namespace ReoRs

variable {D : Type}

open ProtoAll Coordination

namespace Ports

/-- The accounts of the run `h`, newest action first, from an instance to a
state of its ports. -/
def Conserved (s₀ : ProtoAll D) (h : List (Act D)) (t : Ports D) : Prop :=
  (h.filterMap Act.given : Multiset (Datum D)) + s₀.heap.dropped =
    t.owners + h.filterMap Act.handedBack + t.dropped + t.proto.heap.dropped

/-- Dropping the instance drops what has been neither handed back nor dropped,
each datum once. -/
def Released (s₀ : ProtoAll D) (h : List (Act D)) (t : Ports D) : Prop :=
  ∃ u, Audit.dropStorage.run ⟨t.proto.mem, []⟩ = .ok () u ∧
    (h.filterMap Act.given : Multiset (Datum D)) + s₀.heap.dropped =
      h.filterMap Act.handedBack + t.dropped + u.mem.heap.dropped

/-- A pass is made where the bits tell the truth, and no guard panics in
it. -/
structure Regular (P : Proto D) (s : Ports D) (a : Act D) : Prop where
  truthful : s.holder.isSome = true → Truthful P s.proto
  unharmed : ∀ p, a ≠ .panic p

/-- What holds between the steps of a run, whether the accounts are right or
not. -/
inductive Orderly (P : Proto D) (s : Ports D) : Prop where
  | intro {infos : HashMap TypeId (TypeInfo D)} {owed : LocId → Nat} {A : Automaton D}
      (standing : Standing P infos s.proto) (sound : Sound (s.coordination owed))
      (kept : Kept s owed) (automaton : Matches s A) (framed : Framed s)
      (disposable : s.proto.Disposable) : Orderly P s

variable {P : Proto D} {infos : HashMap TypeId (TypeInfo D)} {s t : Ports D}
  {owed : LocId → Nat} {A : Automaton D} {a : Act D}

/-! ## What every step keeps -/

/-- What a pass comes to in a regular step. -/
theorem Regular.pass {p : LocId} (h : Regular P s a) (hs : Standing P infos s.proto)
    (hsound : Sound (s.coordination owed)) (hone : OneGetter P) (hlock : s.holder = some p) :
    PassOutcome P s.proto (exhaustPass.run s.proto) := by
  refine hsound.pass hs hone.noSelfPut hone.fanOutClones (h.truthful ?_)
  rw [hlock]
  rfl

section

variable (hs : Standing P infos s.proto) (hsound : Sound (s.coordination owed)) (hk : Kept s owed)
include hs hsound

/-- Leaving is all a pass does that fires no rule. -/
theorem eq_of_pass {p : LocId} (h : Regular P s a) (hone : OneGetter P)
    (hlock : s.holder = some p) {fin : PassEnd} {proto : ProtoAll D} (hend : ∀ i, fin ≠ .fired i)
    (hrun : exhaustPass.run s.proto = .ok fin proto) : proto = s.proto := by
  have hpass := h.pass hs hsound hone hlock
  rw [hrun] at hpass
  cases hpass with
  | @fired i _ _ _ _ _ _ _ _ => exact absurd rfl (hend i)
  | quiet => rfl

include hk

theorem Step.framed (hone : OneGetter P) (hreg : Regular P s a) (hframed : Framed s)
    (hstep : Step .actual s a t) : Framed t := by
  cases hstep with
  | @callPut p c v sp b hidle hspace hdatum =>
      intro l y w hy hw
      by_cases hl : l = p
      · subst hl
        rw [calls_setCall_self] at hy
        cases hy
        cases hdatum.symm.trans hw
        exact Function.update_self _ _ _
      · refine (Heap.read_write_ne s.proto.heap _ ?_).trans
          (hframed l y w ((Function.update_of_ne hl _ _).symm.trans hy) hw)
        simpa using hl
  | @callGet p c b hidle hspace hdatum =>
      refine hframed.setCall (fun y v hy hv => ?_) fun _ _ => rfl
      cases hy
      cases hdatum.symm.trans hv
  | enter hcall hfree hrun =>
      rw [run_readySet hs.ungrouped] at hrun
      cases hrun
      exact hframed.rephase hcall fun _ => rfl
  | @fire p i proto hlock hrun =>
      have hpass := hreg.pass hs hsound hone hlock
      rw [hrun] at hpass
      cases hpass with
      | fired _ _ _ _ _ hf =>
          intro l y v hy hv
          exact (hf.read (.stack l) (.inl (by simp))).trans (hframed l y v hy hv)
  | leave hlock hcall hend hrun =>
      obtain rfl := eq_of_pass hs hsound hreg hone hlock hend hrun
      exact hframed.rephase hcall fun _ => rfl
  | panic => exact absurd rfl (hreg.unharmed _)
  | expire hcall _ => exact hframed.rephase hcall fun _ => rfl
  | withdraw | putReturn =>
      exact hframed.return fun l hl => read_endCall_ne _ fun heq => hl (Ptr.stack.inj heq)
  | tooLate hcall _ _ => exact hframed.rephase hcall fun _ => rfl
  | receive hcall _ _ _ _ _ => exact hframed.rephase hcall fun _ => rfl
  | acquire hcall _ _ _ _ => exact hframed.rephase hcall fun _ => rfl
  | finalizePort hcall _ hrun =>
      obtain rfl := ok_of_send hrun
      exact hframed.rephase hcall fun _ => rfl
  | finalizeCell hcall _ hspace hrun =>
      obtain ⟨v, u, rfl, rfl, -, hemptied, -⟩ := emptied_of_finalize hs hsound hk hcall hspace hrun
      exact hframed.rephase hcall fun l => hemptied.read _
  | getReturn => exact hframed.return fun _ _ => rfl

omit hsound hk in
theorem Step.disposable (hd : s.proto.Disposable) (hstep : Step .actual s a t) :
    t.proto.Disposable := by
  have hprepare : ∀ rule : RunRule D, (s.proto.prepare rule).Disposable :=
    fun _ => hd.congr rfl rfl
  cases hstep with
  | callPut _ _ _ => exact hd.congr rfl (frame_offer _ _ _).shapes
  | callGet | expire | getReturn => exact hd
  | enter _ _ hrun =>
      rw [run_readySet hs.ungrouped] at hrun
      cases hrun
      exact hd.congr rfl rfl
  | fire _ hrun =>
      have hpass := exhaustPass_result hs.ungrouped hs.tempMems
      rw [hrun] at hpass
      cases hpass with
      | fired _ _ hran => exact (Disposable.robust.fire _).of_ok (hprepare _) hran
  | leave _ _ hend hrun =>
      have hpass := exhaustPass_result hs.ungrouped hs.tempMems
      rw [hrun] at hpass
      cases hpass with
      | quiet _ => exact hd
      | @fired i _ _ _ _ _ => exact absurd rfl (hend i)
  | panic _ hrun =>
      have hpass := exhaustPass_result hs.ungrouped hs.tempMems
      rw [hrun] at hpass
      cases hpass with
      | guardFault _ _ _ => exact hd
      | fireFault _ _ hran =>
          exact (Disposable.robust.fire _).of_error (hprepare _) hran
  | withdraw | tooLate => exact hd.congr rfl rfl
  | putReturn | receive => exact hd.congr rfl (shapes_setDropbox _ _ _)
  | @acquire p c q pc out v space kind sp acq hcall hspace hsource hstep' hmoves =>
      refine hd.congr rfl (shapes_mapSpace_of fun space' hspace' => ?_)
      cases hspace.symm.trans hspace'
      exact (acquiring_of_step hsource hstep').shape
  | finalizePort hcall _ hrun =>
      obtain rfl := ok_of_send hrun
      exact hd.congr rfl (shapes_setDropbox _ _ _)
  | finalizeCell _ _ _ hrun =>
      obtain ⟨_, u, hempty, hready⟩ := Effect.ok_of_bind_ok hrun
      have hu := (Disposable.robust.makeEmpty _ trivial).of_ok hd hempty
      have hframe := (keeps_makeEmpty _ _).of_ok (.refl s.proto) hempty
      rw [run_readySet (hframe.ungrouped hs.ungrouped)] at hready
      cases hready
      exact hu.congr rfl rfl

end

/-! ## One step of the accounts -/

/-- The accounts are right, and the step is not the bad return. -/
theorem Balanced.proper (h : Balanced s a t) (hnot : ¬ TimedPutMoved s a) :
    Balanced s a t ↔ ¬ TimedPutMoved s a := iff_of_true h hnot

/-- Every step keeps the accounts but for a `put_timeout` that was moved. -/
theorem Step.balanced (hs : Standing P infos s.proto) (hsound : Sound (s.coordination owed))
    (hk : Kept s owed) (h : Matches s A) (hframed : Framed s) (hd : s.proto.Disposable)
    (hone : OneGetter P) (hreg : Regular P s a) (hstep : Step .actual s a t) :
    Balanced s a t ↔ ¬ TimedPutMoved s a := by
  cases hstep with
  | callPut hidle hspace hdatum =>
      exact Balanced.proper (.callPut hk hsound hidle hspace hdatum) id
  | callGet hidle hspace hdatum => exact Balanced.proper (.callGet hidle hspace hdatum) id
  | enter hcall hfree hrun =>
      rw [run_readySet hs.ungrouped] at hrun
      cases hrun
      exact Balanced.proper (.rephase hcall rfl (fun _ => rfl) rfl (fun _ => rfl) rfl rfl) id
  | @fire p i proto hlock hrun =>
      have hpass := hreg.pass hs hsound hone hlock
      rw [hrun] at hpass
      cases hpass with
      | fired hr hrule henc _ hgen hf =>
          exact Balanced.proper (.fired h hk hsound henc hgen hf hs hone hr) id
  | @leave p c ph out fin proto hlock hcall hend hrun =>
      obtain rfl := eq_of_pass hs hsound hreg hone hlock hend hrun
      refine Balanced.proper (.rephase hcall rfl (fun _ => rfl) rfl (fun q => ?_) rfl rfl) id
      cases ph <;> first | rfl | exact Bool.and_false _
  | panic => exact absurd rfl (hreg.unharmed _)
  | expire hcall htimed =>
      exact Balanced.proper (.rephase hcall rfl (fun _ => rfl) rfl (fun _ => rfl) rfl rfl) id
  | @withdraw p c out hcall hfree hready =>
      refine Balanced.proper (.withdraw hk hsound h hcall hready) ?_
      rintro ⟨v, ph, out', -, hbox⟩
      cases (unboxed_of_fresh hsound (.inr hready) hbox).1
  | tooLate hcall hfree hready =>
      exact Balanced.proper (.rephase hcall rfl (fun _ => rfl) rfl (fun _ => rfl) rfl rfl) id
  | putReturn hcall hphase hdatum hmsg hmoved =>
      exact Balanced.putReturn hk hsound hcall hphase hdatum hmsg hmoved
  | receive hcall hphase hdatum hmsg hspace hsource =>
      exact Balanced.proper (.receive hcall hphase hdatum) id
  | acquire hcall hspace hsource hstep hmoves =>
      exact Balanced.proper
        (.acquire h hk hsound hframed hcall ⟨_, hspace, hsource⟩ hstep hmoves) id
  | finalizePort hcall hspace hrun =>
      obtain rfl := ok_of_send hrun
      exact Balanced.proper (.finalizePort h hk hsound rfl hcall hspace) id
  | @finalizeCell p c q m go out sp proto hcall hfree hspace hrun =>
      obtain ⟨v, u, rfl, rfl, hread, hemptied, hdropped⟩ :=
        emptied_of_finalize hs hsound hk hcall hspace hrun
      have hshape : Space.Shape.memo sp.typeInfo ∈ s.proto.shapes :=
        List.mem_map.2 ⟨_, List.mem_of_getElem? hspace, rfl⟩
      exact Balanced.proper (.finalizeCell h hk hsound hcall hspace hemptied hread hdropped
        (hd.cells _ hshape)) id
  | @getReturn p c q out hcall =>
      refine Balanced.proper (.getReturn hk hcall) ?_
      rintro ⟨v, ph, out', hcall', -⟩
      cases hcall.symm.trans hcall'
      cases (hk.fits p _ hcall).datum rfl

/-! ## Runs -/

theorem orderly_start {heap : Heap D} {b : Build D} {s₀ : ProtoAll D} (hun : Uninitialized P)
    (hdrop : P.NeedsDrop) (hfin : (finish P).run (.new heap) = .ok s₀ b) :
    Orderly P (start s₀) := by
  obtain ⟨infos, hs⟩ := (built_of_finish hfin).standing
  refine .intro hs (sound_start hun hfin) (kept_start hfin) (.start hun hfin) ?_
    (disposable_start hun hdrop hfin)
  intro p x v hx
  cases hx

theorem Orderly.step (h : Orderly P s) (hone : OneGetter P) (hreg : Regular P s a)
    (hstep : Step .actual s a t) : Orderly P t := by
  obtain ⟨hs, hsound, hk, hA, hframed, hd⟩ := h
  have hself := hone.noSelfPut
  have hclone := hone.fanOutClones
  obtain ⟨B, hB⟩ : ∃ B, Matches t B := by
    have hanswer := hstep.answered hs hone hsound hreg.truthful hk hA
    cases ha : a.observed with
    | none =>
        rw [ha] at hanswer
        exact ⟨_, hanswer⟩
    | some b =>
        rw [ha] at hanswer
        obtain ⟨B, -, hB⟩ := hanswer
        exact ⟨B, hB⟩
  have hframed' := hstep.framed hs hsound hk hone hreg hframed
  have hd' := hstep.disposable hs hd
  obtain ⟨owed', heq | ⟨a', hstep'⟩, hk'⟩ :=
    hstep.stepped hs hself hclone hsound hreg.truthful hk
  · have hproto : t.proto = s.proto := congrArg Coordination.proto heq
    exact .intro (hproto ▸ hs) (heq ▸ hsound) hk' hB hframed' hd'
  · exact .intro (hstep'.standing hs)
      (hstep'.sound hs hself hclone hsound hreg.truthful).1 hk' hB hframed' hd'

theorem owners_start {heap : Heap D} {b : Build D} {s₀ : ProtoAll D} (hun : Uninitialized P)
    (hfin : (finish P).run (.new heap) = .ok s₀ b) : (start s₀).owners = 0 := by
  refine Multiset.eq_zero_of_forall_notMem fun v hv => ?_
  obtain ⟨l, -, hl⟩ := Holdings.mem_total.1 hv
  rw [owned_of_none rfl] at hl
  split at hl
  · cases hl
  · obtain ⟨q, hq, -⟩ := Option.bind_eq_some_iff.1 hl
    cases (held_start hun hfin l).symm.trans hq

/-- A step keeps the accounts of a run if it keeps its own. -/
theorem Conserved.step_iff {s₀ : ProtoAll D} {h : List (Act D)} (hcons : Conserved s₀ h s) :
    Conserved s₀ (a :: h) t ↔ Balanced s a t := by
  rw [Conserved, Balanced, Holdings.coe_filterMap_cons, Holdings.coe_filterMap_cons]
  rw [Conserved] at hcons
  generalize (h.filterMap Act.given : Multiset (Datum D)) = given at hcons ⊢
  generalize (h.filterMap Act.handedBack : Multiset (Datum D)) = back at hcons ⊢
  have hleft : Holdings.one a.given + given + s₀.heap.dropped =
      back + (s.owners + Holdings.one a.given + s.dropped + s.proto.heap.dropped) := by
    rw [add_assoc, hcons]
    abel
  have hright : t.owners + (Holdings.one a.handedBack + back) + t.dropped +
      t.proto.heap.dropped =
        back + (t.owners + Holdings.one a.handedBack + t.dropped + t.proto.heap.dropped) := by
    abel
  rw [hleft, hright, add_right_inj]

/-- When all calls have returned only the cells own anything, and dropping the
instance drops that. -/
theorem released_iff {s₀ : ProtoAll D} {h : List (Act D)} (hs : Orderly P s)
    (hidle : ∀ p, s.calls p = none) : Released s₀ h s ↔ Conserved s₀ h s := by
  obtain ⟨-, hsound, -, hA, -, hd⟩ := hs
  obtain ⟨u, hrun, hu⟩ := run_drop_instance (s := s.proto) hsound.coherent hA.unshared hd
  have howners : s.owners = Holdings.total s.proto.r.spaces.length
      fun l => (s.proto.held l).bind s.proto.heap.read := by
    refine Holdings.total_congr fun l _ => ?_
    have htaken : s.taken l = false := by
      rw [Bool.eq_false_iff]
      intro hcon
      obtain ⟨g, -, hg⟩ := List.any_eq_true.1 hcon
      rw [hasTaken_of_none (hidle g)] at hg
      cases hg
    rw [owned_of_none (hidle l), htaken]
    rfl
  have hsum : (h.filterMap Act.handedBack : Multiset (Datum D)) + s.dropped + u.mem.heap.dropped =
      s.owners + h.filterMap Act.handedBack + s.dropped + s.proto.heap.dropped := by
    rw [hu, howners]
    abel
  rw [Conserved, ← hsum]
  constructor
  · rintro ⟨u', hrun', hsame⟩
    cases hrun.symm.trans hrun'
    exact hsame
  · exact fun hsame => ⟨u, hrun, hsame⟩

/-- The next step of a run with its accounts in order. -/
theorem Conserved.next_iff {s₀ : ProtoAll D} {h : List (Act D)} (hcons : Conserved s₀ h s)
    (hs : Orderly P s) (hone : OneGetter P) (hreg : Regular P s a) (hstep : Step .actual s a t) :
    Conserved s₀ (a :: h) t ↔ ¬ TimedPutMoved s a := by
  obtain ⟨hs, hsound, hk, hA, hframed, hd⟩ := hs
  rw [hcons.step_iff, hstep.balanced hs hsound hk hA hframed hd hone hreg]

/-- Runs without the bad return keep their accounts in order. -/
theorem conserved_of_reach {heap : Heap D} {b : Build D} {s₀ : ProtoAll D}
    (hun : Uninitialized P) (hfin : (finish P).run (.new heap) = .ok s₀ b) (hone : OneGetter P)
    (hdrop : P.NeedsDrop) {h : List (Act D)}
    (hrun : Run.Reach (fun u a v => Step .actual u a v ∧ Regular P u a ∧ ¬ TimedPutMoved u a)
      (start s₀) h t) : Orderly P t ∧ Conserved s₀ h t := by
  refine hrun.invariant (P := fun h t => Orderly P t ∧ Conserved s₀ h t)
    ⟨orderly_start hun hdrop hfin, ?_⟩ ?_
  · rw [Conserved, owners_start hun hfin]
    rfl
  · rintro h u a v - ⟨hu, hcons⟩ ⟨hstep, hreg, hnot⟩
    exact ⟨hu.step hone hreg hstep, (hcons.next_iff hu hone hreg hstep).2 hnot⟩

/-- With a single getter for every action and types that all have a
destructor: the four variants of `put` return or drop their datum exactly when
it was not reported as moved, but for `put_timeout`, which drops it either
way. In a run in which no `put_timeout` is told that its datum was moved every
datum is owned by one call, cell or getter until it is handed back or dropped,
and dropping the instance in the end drops what is left; and the next step
keeps this up iff it is no such return. -/
theorem owned_once (P : Proto D) {heap : Heap D} {b : Build D} {s₀ : ProtoAll D}
    (hinst : (tryInstantiate P).run (.new heap) = .ok s₀ b) (hone : OneGetter P)
    (hdrop : P.NeedsDrop) :
    (∀ (c : PortCall D) v r, c.datum = some v → (r = none → c.timed = true) →
      (c.disposes r = (if r = some true then [] else [v]) ↔
        ¬ (r = some true ∧ c = .putTimeout v))) ∧
    ∀ {h : List (Act D)} {t : Ports D},
      Run.Reach (fun u a v => Step .actual u a v ∧ Regular P u a ∧ ¬ TimedPutMoved u a)
        (start s₀) h t →
      Conserved s₀ h t ∧ ((∀ p, t.calls p = none) → Released s₀ h t) ∧
        ∀ a u, Step .actual t a u → Regular P t a →
          (Conserved s₀ (a :: h) u ↔ ¬ TimedPutMoved t a) := by
  obtain ⟨hun, hfin⟩ := finish_of_tryInstantiate hinst
  refine ⟨fun c v r hdatum htimed => disposes_iff hdatum htimed, fun {h t} hrun => ?_⟩
  obtain ⟨ht, hcons⟩ := conserved_of_reach hun hfin hone hdrop hrun
  exact ⟨hcons, fun hidle => (released_iff ht hidle).2 hcons,
    fun a u hstep hreg => hcons.next_iff ht hone hreg hstep⟩

end Ports

/-! ## A put into a cell -/

theorem link_needsDrop (kind : LocKind) (guard : Formula) (g : LocId) :
    (link kind guard g).NeedsDrop := by
  intro l info hinfo
  cases hinfo
  rfl

/-- Nothing goes wrong with a put until it returns. -/
theorem link_put_regular {c : PortCall Nat} {v : Datum Nat} (hdatum : c.datum = some v) :
    ∃ s b t, (tryInstantiate (link .memUninitialized .true 1)).run (.new .empty) = .ok s b ∧
    Run.Reach (fun u a v => Ports.Step .actual u a v ∧
        Ports.Regular (link .memUninitialized .true 1) u a ∧ ¬ Ports.TimedPutMoved u a)
      (.start s) [.leave 0, .fire 0 0, .enter 0, .call 0 c] t ∧
    t.calls 0 = some ⟨c, .awaiting, none⟩ ∧ t.proto.getDropbox 0 = some ⟨some 1⟩ ∧
    Ports.Regular (link .memUninitialized .true 1) t (.ret 0 .moved) ∧
    ∀ p, Function.update t.calls 0 none p = none := by
  have hone := link_oneGetter .memUninitialized .true (g := 1) (by decide)
  obtain ⟨s, b, t, hinst, hrun, hidle, hcall, hbox⟩ := link_put_moved hdatum
  obtain ⟨hun, hfin⟩ := finish_of_tryInstantiate hinst
  have hreg : ∀ {h : List (Ports.Act Nat)} {u : Ports Nat} {a : Ports.Act Nat},
      (∀ p, a ≠ .panic p) → Run.Reach (Ports.Step .actual) (.start s) h u →
        Ports.Regular (link .memUninitialized .true 1) u a := by
    intro h u a hpanic hreach
    obtain ⟨-, -, -, -, -, htrue, -⟩ := Ports.reach_kept hun hone.noSelfPut hone.fanOutClones
      (by decide) (by decide) hfin hreach
    exact ⟨htrue, hpanic⟩
  refine ⟨s, b, t, hinst, ?_, hcall, hbox, hreg (by simp) hrun, fun p => ?_⟩
  · cases hrun with
    | tail h₃ s₄ =>
    cases h₃ with
    | tail h₂ s₃ =>
    cases h₂ with
    | tail h₁ s₂ =>
    cases h₁ with
    | tail h₀ s₁ =>
    cases h₀
    have r₁ := Run.Reach.single s₁
    exact .tail (.tail (.tail (.single ⟨s₁, hreg (by simp) .refl, id⟩)
      ⟨s₂, hreg (by simp) r₁, id⟩) ⟨s₃, hreg (by simp) (r₁.tail s₂), id⟩)
      ⟨s₄, hreg (by simp) ((r₁.tail s₂).tail s₃), id⟩
  · by_cases hp : p = 0
    · rw [hp, Function.update_self]
    · rw [Function.update_of_ne hp, hidle p hp]

/-- A put that fills the cell and returns leaves its datum there, to be dropped
with the instance. -/
theorem owned_once_link : ∃ s b h t,
    (tryInstantiate (link .memUninitialized .true 1)).run (.new .empty) = .ok s b ∧
    Run.Reach (fun u a v => Ports.Step .actual u a v ∧
        Ports.Regular (link .memUninitialized .true 1) u a ∧ ¬ Ports.TimedPutMoved u a)
      (.start s) (.ret 0 .moved :: .leave 0 :: .fire 0 0 :: h) t ∧
    h.filterMap Ports.Act.given = [.data 7] ∧ (∀ p, t.calls p = none) ∧
    Ports.Conserved s (.ret 0 .moved :: .leave 0 :: .fire 0 0 :: h) t ∧
    Ports.Released s (.ret 0 .moved :: .leave 0 :: .fire 0 0 :: h) t := by
  have hone := link_oneGetter .memUninitialized .true (g := 1) (by decide)
  obtain ⟨s, b, t, hinst, hrun, hcall, hbox, hreg, hnone⟩ :=
    link_put_regular (c := .put (.data 7)) rfl
  have hret : Ports.Step .actual t (.ret 0 .moved) _ :=
    .putReturn (c := .put (.data 7)) hcall rfl rfl hbox rfl
  have hnot : ¬ Ports.TimedPutMoved t (.ret 0 .moved) := by
    rintro ⟨v, ph, out, hcon, -⟩
    cases hcall.symm.trans hcon
  have hreach := hrun.tail ⟨hret, hreg, hnot⟩
  obtain ⟨hcons, hreleased, -⟩ := (Ports.owned_once (link .memUninitialized .true 1) hinst hone
    (link_needsDrop _ _ _)).2 hreach
  exact ⟨s, b, _, _, hinst, hreach, rfl, hnone, hcons, hreleased hnone⟩

/-- A put with a timeout drops the datum when it returns, and then it is
dropped again with the cell. -/
theorem not_owned_once : ∃ s b h t,
    (tryInstantiate (link .memUninitialized .true 1)).run (.new .empty) = .ok s b ∧
    OneGetter (link .memUninitialized .true 1) ∧ (link .memUninitialized .true 1).NeedsDrop ∧
    Run.Reach (Ports.Step .actual) (.start s) h t ∧ (∀ p, t.calls p = none) ∧
    ¬ Ports.Conserved s h t ∧ ¬ Ports.Released s h t := by
  have hone := link_oneGetter .memUninitialized .true (g := 1) (by decide)
  have hdrop := link_needsDrop .memUninitialized .true 1
  obtain ⟨s, b, t, hinst, hrun, hcall, hbox, hreg, hnone⟩ :=
    link_put_regular (c := .putTimeout (.data 7)) rfl
  obtain ⟨hun, hfin⟩ := finish_of_tryInstantiate hinst
  -- up to the return every datum has its owner
  obtain ⟨ht, hcons⟩ := Ports.conserved_of_reach hun hfin hone hdrop hrun
  have hret : Ports.Step .actual t (.ret 0 .moved) _ :=
    .putReturn (c := .putTimeout (.data 7)) hcall rfl rfl hbox rfl
  have hmoved : Ports.TimedPutMoved t (.ret 0 .moved) := ⟨.data 7, .awaiting, none, hcall, hbox⟩
  have hnot := mt (hcons.next_iff ht hone hreg hret).1 (not_not.2 hmoved)
  have hreach := (hrun.mono And.left).tail hret
  exact ⟨s, b, _, _, hinst, hone, hdrop, hreach, hnone, hnot,
    mt (Ports.released_iff (ht.step hone hreg hret) hnone).1 hnot⟩

end ReoRs
