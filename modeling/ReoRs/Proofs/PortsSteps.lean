import ReoRs.Proofs.PortsRefine

/-!
# Every step of the ports is one of the coordination

Each step of a call is answered by one step of `Coordination`, or by none. The
interesting ones are those that touch the books: a firing opens them for the
putters that have port getters, the getters' steps move along them, and a
`finalize` closes them.
-/

namespace ReoRs

variable {D : Type}

open ProtoAll Coordination

/-! ## Messages and counters under updates -/

namespace ProtoAll

theorem told_mapPutter (s : ProtoAll D) (p : LocId) (f : PutterSpace D → PutterSpace D)
    (q g : LocId) : (s.mapPutter p f).told q g = s.told q g := by
  by_cases hg : g = p
  · subst hg
    rw [told, told, mapPutter, getSpace_mapSpace_self]
    cases s.getSpace g with
    | none => rfl
    | some sp => cases sp <;> rfl
  · exact told_congr (getSpace_mapSpace_ne s _ hg) q

theorem told_setDropbox_ne (s : ProtoAll D) {p g : LocId} (m : Option Nat) (h : g ≠ p)
    (q : LocId) : (s.setDropbox p m).told q g = s.told q g :=
  told_congr (getSpace_setDropbox_ne s m h) q

theorem told_setDropbox_none (s : ProtoAll D) (p q : LocId) :
    (s.setDropbox p none).told q p = false := by
  rw [told, getSpace_setDropbox, if_pos rfl]
  cases s.getSpace p with
  | none => rfl
  | some sp => cases sp <;> rfl

theorem told_of_poPu {s : ProtoAll D} {p : LocId} {sp : PutterSpace D} {b : MsgDropbox}
    (h : s.getSpace p = some (.poPu sp b)) (q : LocId) : s.told q p = false := by
  rw [told, h]

/-- Messages of putters are no getter's. -/
theorem told_setDropbox_poPu {s : ProtoAll D} {p : LocId} {sp : PutterSpace D} {b : MsgDropbox}
    (h : s.getSpace p = some (.poPu sp b)) (m : Option Nat) (q g : LocId) :
    (s.setDropbox p m).told q g = s.told q g := by
  by_cases hg : g = p
  · subst hg
    have hnew : (s.setDropbox g m).getSpace g = some (.poPu sp ⟨m⟩) := by
      rw [getSpace_setDropbox, if_pos rfl, h]
      rfl
    rw [told_of_poPu h, told_of_poPu hnew]
  · exact told_setDropbox_ne s m hg q

theorem counters_setDropbox (s : ProtoAll D) (p : LocId) (m : Option Nat) (q : LocId) :
    (s.setDropbox p m).counters q = s.counters q := by
  rw [counters, counters, getSpace_setDropbox]
  split
  · cases s.getSpace q with
    | none => rfl
    | some sp => cases sp <;> rfl
  · rfl

theorem counters_mapPutter_ne (s : ProtoAll D) {p q : LocId} (f : PutterSpace D → PutterSpace D)
    (h : q ≠ p) : (s.mapPutter p f).counters q = s.counters q :=
  counters_congr (getSpace_mapSpace_ne s _ h)

theorem counters_setPtr (s : ProtoAll D) (p : LocId) (ptr : Ptr) (q : LocId) :
    (s.setPtr p ptr).counters q = s.counters q := by
  rw [counters, counters, getSpace_setPtr]
  split
  · cases s.getSpace q with
    | none => rfl
    | some sp => cases sp <;> rfl
  · rfl

/-- Clearing a bit that is not set changes nothing. -/
theorem setReady_false_of_not_ready {s : ProtoAll D} {p : LocId}
    (h : s.w.active.ready.test p = false) : s.setReady p false = s := by
  rw [setReady, BitSet.setTo_false_of_not_test h]

end ProtoAll

theorem Emptied.told_eq {s u : ProtoAll D} {l : LocId} {sp : PutterSpace D}
    (h : Emptied s l sp u) (hl : s.getSpace l = some (.memo sp)) (q g : LocId) :
    u.told q g = s.told q g := by
  by_cases hg : g = l
  · rw [hg, told, told, h.cell, hl]
  · exact told_congr (h.others g hg) q

theorem Emptied.counters_eq {s u : ProtoAll D} {l : LocId} {sp : PutterSpace D}
    (h : Emptied s l sp u) (hl : s.getSpace l = some (.memo sp)) (q : LocId) :
    u.counters q = s.counters q := by
  by_cases hq : q = l
  · rw [hq, counters, counters, h.cell, hl]
    rfl
  · exact counters_congr (h.others q hq)

namespace Ports

variable {P : Proto D} {infos : HashMap TypeId (TypeInfo D)} {s t : Ports D}
  {owed : LocId → Nat}

/-! ## Steps of one call -/

/-- A step of the call at `p` that makes no difference to any putter's books. -/
theorem Books.step (h : Books s owed) (p : LocId) (hcalls : ∀ g, g ≠ p → t.calls g = s.calls g)
    (hlen : t.proto.r.spaces.length = s.proto.r.spaces.length)
    (hcounters : ∀ q, t.proto.counters q = s.proto.counters q)
    (htold : ∀ q g, g ≠ p → t.proto.told q g = s.proto.told q g)
    (hpends : ∀ q, t.pends q p = s.pends q p)
    (hlast : ∀ q, t.acquiringAt AcquirePc.lastOut q p = s.acquiringAt AcquirePc.lastOut q p)
    (hlost : ∀ q, t.acquiringAt AcquirePc.lost q p = s.acquiringAt AcquirePc.lost q p) :
    Books t owed := by
  refine h.congr hlen hcounters (fun q g => ?_) (fun q g => ?_) fun q g => ?_
  · by_cases hg : g = p
    · rw [hg, hpends]
    · rw [pends, pends, htold q g hg, acquiringAt_congr (hcalls g hg)]
  · by_cases hg : g = p
    · rw [hg, hlast]
    · exact acquiringAt_congr (hcalls g hg) q
  · by_cases hg : g = p
    · rw [hg, hlost]
    · exact acquiringAt_congr (hcalls g hg) q

/-- The same where messages stay, and the call changes its place in
`acquire_data` at most by returning. -/
theorem Books.idle (h : Books s owed) (p : LocId) (hcalls : ∀ g, g ≠ p → t.calls g = s.calls g)
    (hlen : t.proto.r.spaces.length = s.proto.r.spaces.length)
    (hcounters : ∀ q, t.proto.counters q = s.proto.counters q)
    (htold : ∀ q g, t.proto.told q g = s.proto.told q g)
    (hout : ∀ which : AcquirePc → Bool, which .returned = false → ∀ q,
      t.acquiringAt which q p = s.acquiringAt which q p) : Books t owed := by
  refine h.step p hcalls hlen hcounters (fun q g _ => htold q g) (fun q => ?_) (hout _ rfl)
    (hout _ rfl)
  rw [pends, pends, htold, hout _ rfl]

theorem Kept.step (h : Kept s owed) {owed' : LocId → Nat} (p : LocId)
    (hcalls : ∀ g, g ≠ p → t.calls g = s.calls g) (hshapes : t.proto.shapes = s.proto.shapes)
    (hp : ∀ x, t.calls p = some x → Fits s.proto p x) (hbooks : Books t owed') :
    Kept t owed' := by
  refine ⟨fun l x hl => ?_, hbooks⟩
  by_cases hlp : l = p
  · subst hlp
    exact (hp x hl).congr hshapes
  · rw [hcalls l hlp] at hl
    exact (h.fits l x hl).congr hshapes

section

variable {p : LocId} {x : Option (Active D)} {proto : ProtoAll D} {holder : Option LocId}
  {dropped : List (Datum D)}

/-- A step that leaves a call's place in `acquire_data` alone, and the
messages and counters with it. -/
theorem Kept.setCall (h : Kept s owed)
    (hshapes : proto.shapes = s.proto.shapes)
    (hcounters : ∀ q, proto.counters q = s.proto.counters q)
    (htold : ∀ q g, proto.told q g = s.proto.told q g)
    (hx : ∀ y, x = some y → Fits s.proto p y)
    (hout : ∀ which : AcquirePc → Bool, which .returned = false → ∀ q,
      (Ports.setCall ⟨proto, holder, s.calls, dropped⟩ p x).acquiringAt which q p =
        s.acquiringAt which q p) :
    Kept (Ports.setCall ⟨proto, holder, s.calls, dropped⟩ p x) owed := by
  have hcalls : ∀ g, g ≠ p →
      (Ports.setCall ⟨proto, holder, s.calls, dropped⟩ p x).calls g = s.calls g :=
    fun g hg => Function.update_of_ne hg _ _
  refine h.step p hcalls hshapes (fun y hy => hx y ?_) ?_
  · rwa [calls_setCall_self] at hy
  · exact h.books.idle p hcalls (length_spaces_of_shapes hshapes) hcounters htold hout

end

theorem coordination_setCall (s : Ports D) (p : LocId) (x : Option (Active D))
    (owed : LocId → Nat) : (s.setCall p x).coordination owed =
      { s.coordination owed with calls := Function.update s.callState p (callStateOf x) } := by
  rw [coordination, callState_setCall]
  rfl

/-- The coordinator sees of a call no more than its state. -/
theorem coordination_call {proto : ProtoAll D} {holder : Option LocId}
    {dropped : List (Datum D)} {p : LocId} {x : Option (Active D)} (owed : LocId → Nat)
    (h : callStateOf x = s.callState p) :
    (Ports.setCall ⟨proto, holder, s.calls, dropped⟩ p x).coordination owed =
      ⟨proto, holder.isSome, s.callState, owed⟩ := by
  have hcalls : (⟨proto, holder, s.calls, dropped⟩ : Ports D).callState = s.callState := rfl
  rw [coordination, callState_setCall, h, hcalls, Function.update_eq_self]
  rfl

/-! ## A firing -/

section Fire

variable {r : RuleDef} {run : RunRule D} {proto : ProtoAll D}

/-- A ready putter is owed nothing. -/
theorem owed_eq_zero_of_ready {c : Coordination D} (h : Coordination.Sound c) {q : LocId}
    (hready : c.proto.w.active.ready.test q = true) {space : Space D}
    {x : SourceKind × PutterSpace D} (hspace : c.proto.getSpace q = some space)
    (hsource : space.source = some x) : c.owed q = 0 := by
  by_contra hne
  rcases h.owed_cases (Nat.pos_of_ne_zero hne) with ⟨-, hnot, -⟩ | hnone | hnone
  · cases hnot.symm.trans hready
  · cases hspace.symm.trans hnone
  · cases hspace.symm.trans hnone
    cases hsource

/-- The getters that have a message after a firing. -/
theorem told_fired (hsound : Coordination.Sound (s.coordination owed))
    (henc : Encodes P.typelessProtoDef.locKinds r run)
    (hgen : Genuine P.typelessProtoDef.locKinds s.proto r.actions)
    (hf : Fired (s.proto.prepare run) run.actions proto) (q g : LocId) :
    proto.told q g = true ↔
      s.proto.told q g = true ∨ ∃ x ∈ run.actions, x.putter = q ∧ g ∈ x.pg := by
  constructor
  · intro h
    have hspace := told_eq_true.1 h
    by_cases hment : ∃ x ∈ run.actions, x.Mentions g
    · obtain ⟨x, hx, hg⟩ := hment
      obtain ⟨kind, sp, v, d, -, hout, -, -⟩ := hf.each x hx
      rcases hg with rfl | hg | hg
      · have hput := hout.putter
        rw [hspace] at hput
        cases kind with
        | port | memory =>
            rw [RunAction.putterAfter] at hput
            split at hput <;> cases hput
      · obtain ⟨gp, dest, w, -, hcell, -⟩ := hout.cells g hg
        cases hspace.symm.trans hcell
      · cases hspace.symm.trans (hout.getters g hg)
        exact .inr ⟨x, hx, rfl, hg⟩
    · have hsame : proto.getSpace g = s.proto.getSpace g :=
        hf.others g fun x hx hg => hment ⟨x, hx, hg⟩
      exact .inl ((told_congr hsame q).symm.trans h)
  · rintro (h | ⟨x, hx, rfl, hg⟩)
    · have hspace := told_eq_true.1 h
      have hbox : s.proto.getDropbox g = some ⟨some q⟩ := getDropbox_eq hspace
      have hsame : proto.getSpace g = s.proto.getSpace g := by
        refine hf.others g fun x hx hg => ?_
        have hready := hgen.ready g (henc.involved hx hg)
        cases (hsound.dropbox hbox hready).1
      exact (told_congr hsame q).trans h
    · obtain ⟨kind, sp, v, d, -, hout, -, -⟩ := hf.each x hx
      exact told_eq_true.2 (hout.getters g hg)

theorem source_of_putterReady {u : ProtoAll D} {l : LocId} {sp : PutterSpace D}
    {kind : SourceKind} (h : PutterReady u l sp kind) :
    ∃ space, u.getSpace l = some space ∧ space.source = some (kind, sp) := by
  cases kind with
  | port => exact ⟨_, h.1, rfl⟩
  | memory => exact ⟨_, h.1, rfl⟩

/-- The counters of a putter that called no getters are as they were. -/
theorem counters_fired (hf : Fired (s.proto.prepare run) run.actions proto) {q : LocId}
    (hq : ∀ x ∈ run.actions, x.putter = q → x.pg = []) :
    proto.counters q = s.proto.counters q := by
  by_cases hment : ∃ x ∈ run.actions, x.Mentions q
  · obtain ⟨x, hx, hmention⟩ := hment
    obtain ⟨kind, sp, v, d, ha, hout, -, -⟩ := hf.each x hx
    rcases hmention with rfl | hg | hg
    · have hput := hout.putter
      have hwas := ha.putter
      have hnil : x.pg.isEmpty = true := List.isEmpty_iff.2 (hq x hx rfl)
      cases kind with
      | port =>
          rw [RunAction.putterAfter, if_pos hnil] at hput
          have hwas : s.proto.getSpace x.putter = some (.poPu sp ⟨none⟩) := hwas.1
          exact (counters_of_source hput rfl).trans (counters_of_source hwas rfl).symm
      | memory =>
          rw [RunAction.putterAfter, if_pos hnil] at hput
          have hwas : s.proto.getSpace x.putter = some (.memo sp) := hwas.1
          exact (counters_of_source hput rfl).trans (counters_of_source hwas rfl).symm
    · obtain ⟨gp, dest, w, hwas, hcell, -⟩ := hout.cells q hg
      have hwas : s.proto.getSpace q = some (.memo gp) := hwas
      exact (counters_of_source hcell rfl).trans (counters_of_source hwas rfl).symm
    · have hwas : s.proto.getSpace q = some (.poGe ⟨none⟩) := ha.getters q hg
      rw [counters, counters, hout.getters q hg, hwas]
      rfl
  · exact counters_congr (hf.others q fun x hx hg => hment ⟨x, hx, hg⟩)

/-- A firing opens the books of the putters that called getters. -/
theorem Kept.fired (hs : Standing P infos s.proto) (h : Kept s owed)
    (hsound : Coordination.Sound (s.coordination owed))
    (hr : r ∈ P.typelessProtoDef.behaviour.rules)
    (henc : Encodes P.typelessProtoDef.locKinds r run)
    (hgen : Genuine P.typelessProtoDef.locKinds s.proto r.actions)
    (hf : Fired (s.proto.prepare run) run.actions proto) :
    Kept { s with proto } fun p => owed p + run.obligations p := by
  have hapart := henc.apart (hs.wellFormed r hr)
  have hshapes : proto.shapes = s.proto.shapes := hf.frame.shapes
  have hlen := length_spaces_of_shapes hshapes
  refine ⟨fun p x hp => (h.fits p x hp).congr hshapes, fun q c hc => ?_⟩
  by_cases hopen : ∃ x ∈ run.actions, x.putter = q ∧ x.pg ≠ []
  · obtain ⟨x, hx, rfl, hne⟩ := hopen
    obtain ⟨kind, sp, v, d, ha, hout, hport, -⟩ := hf.each x hx
    obtain ⟨space, hspace, hsource⟩ := source_of_putterReady ha.putter
    have hspace : s.proto.getSpace x.putter = some space := hspace
    have hzero : owed x.putter = 0 :=
      owed_eq_zero_of_ready hsound (hgen.ready _ (henc.involved hx (.inl rfl))) hspace hsource
    obtain ⟨-, hsema, hnobody, hnoduty⟩ :=
      (hzero ▸ h.books _ _ (counters_of_source hspace hsource) :
        BooksAt s x.putter 0 (countersOf kind sp)).closed
    have hmoving := (h.books _ _ (counters_of_source hspace hsource)).moving
    have hempty : x.pg.isEmpty = false := by
      cases hpg : x.pg with
      | nil => exact absurd hpg hne
      | cons g gs => rfl
    have hafter : proto.counters x.putter =
        some (countersOf kind (sp.beginHandOff x.pg.length d)) := by
      have hput := hout.putter
      cases kind with
      | port | memory =>
          rw [RunAction.putterAfter, hempty] at hput
          exact counters_of_source hput rfl
    obtain rfl := Option.some.inj (hc.symm.trans hafter)
    have hone : owed x.putter + run.obligations x.putter = 1 := by
      rw [hzero, RunRule.obligations_putter hapart hx, hempty]
      rfl
    -- those who are to count down are the getters just called
    have hpends : ∀ g, g < s.proto.r.spaces.length →
        (pends { s with proto } x.putter g = true ↔ g ∈ x.pg) := by
      intro g hg
      obtain ⟨hnot, hout⟩ : s.proto.told x.putter g = false ∧
          s.acquiringAt AcquirePc.pending x.putter g = false :=
        Bool.or_eq_false_iff.1 (hnobody g hg)
      show (proto.told x.putter g || s.acquiringAt AcquirePc.pending x.putter g) = true ↔ _
      rw [hout, Bool.or_false, told_fired hsound henc hgen hf, hnot]
      constructor
      · rintro (hcon | ⟨y, hy, hyx, hgy⟩)
        · cases hcon
        · obtain rfl := RunAction.eq_of_mentions hapart hy hx (.inl hyx.symm) (.inl rfl)
          exact hgy
      · exact fun hg => .inr ⟨x, hx, rfl, hg⟩
    have hlt : ∀ g ∈ x.pg, g < s.proto.r.spaces.length := fun g hg =>
      (List.getElem?_eq_some_iff.1 (ha.getters g hg)).1
    refine ⟨?_, ?_, fun hk => ⟨(hmoving hk).1, (hmoving hk).2.1, fun _ => ?_⟩⟩
    · show x.pg.length = Count.upTo proto.r.spaces.length _
      rw [hlen, Count.upTo_congr (g := fun g => decide (g ∈ x.pg)) fun g hg => by
        rw [Bool.eq_iff_iff, hpends g hg, decide_eq_true_iff]]
      exact (Count.upTo_eq_length ha.nodupGetters hlt fun g => decide_eq_true_iff).symm
    · show Count.upTo proto.r.spaces.length (s.acquiringAt AcquirePc.lastOut x.putter) +
        sp.moverSema + (if 0 < x.pg.length then 1 else 0) = _
      have hsema : sp.moverSema = 0 := hsema
      rw [hlen, Count.upTo_eq_zero.2 hnoduty, hsema, hone, if_pos (List.length_pos_iff.2 hne)]
    · show (sp.moveFlags.reset !d).moveFlags ≠ 0#8
      rw [hport hk]
      exact (by decide : MoveFlags.moveFlagDisabled ≠ 0#8)
  · have hclosed : ∀ x ∈ run.actions, x.putter = q → x.pg = [] := by
      intro x hx hxq
      by_contra hne
      exact hopen ⟨x, hx, hxq, hne⟩
    rw [show proto.counters q = _ from counters_fired hf hclosed] at hc
    have hzero : run.obligations q = 0 := by
      rw [RunRule.obligations, List.countP_eq_zero]
      intro x hx hp
      rw [Bool.and_eq_true, beq_iff_eq, Bool.not_eq_true', List.isEmpty_eq_false_iff] at hp
      exact hp.2 (hclosed x hx hp.1)
    have htold : ∀ g, proto.told q g = s.proto.told q g := by
      intro g
      rw [Bool.eq_iff_iff, told_fired hsound henc hgen hf, or_iff_left]
      rintro ⟨x, hx, hxq, hg⟩
      rw [hclosed x hx hxq] at hg
      exact absurd hg List.not_mem_nil
    show BooksAt { s with proto } q (owed q + run.obligations q) c
    rw [hzero, Nat.add_zero]
    refine (h.books q c hc).congr hlen (fun g => ?_) (fun g => rfl) fun g => rfl
    show (proto.told q g || _) = _
    rw [htold]
    rfl

end Fire

/-! ## Every step -/

theorem Fits.isPutter {s : ProtoAll D} {p : LocId} {x : Active D} (h : Fits s p x)
    {v : Datum D} (hx : x.call.datum = some v) : ∃ sp b, s.getSpace p = some (.poPu sp b) := by
  cases h with
  | getter hget _ _ => cases hx.symm.trans hget
  | putter _ hshape _ =>
      rw [Option.map_eq_some_iff] at hshape
      obtain ⟨sp, hsp, heq⟩ := hshape
      cases sp with
      | poPu q b => exact ⟨q, b, hsp⟩
      | poGe b | memo q | temp q | unused => cases heq

theorem Fits.isGetter {s : ProtoAll D} {p : LocId} {x : Active D} (h : Fits s p x)
    (hx : x.call.datum = none) : ∃ b, s.getSpace p = some (.poGe b) := by
  cases h with
  | putter hput _ _ => cases hx.symm.trans hput
  | getter _ hshape _ =>
      rw [Option.map_eq_some_iff] at hshape
      obtain ⟨sp, hsp, heq⟩ := hshape
      cases sp with
      | poGe b => exact ⟨b, hsp⟩
      | poPu q b | memo q | temp q | unused => cases heq

/-- An update of one location is an update to what it makes of the space. -/
theorem mapSpace_eq_const {s : ProtoAll D} {l : LocId} {sp : Space D}
    (hsp : s.getSpace l = some sp) (f : Space D → Space D) :
    s.mapSpace l f = s.mapSpace l fun _ => f sp := by
  have : s.r.spaces.modify l f = s.r.spaces.modify l fun _ => f sp := by
    refine List.ext_getElem? fun i => ?_
    rw [List.getElem?_modify, List.getElem?_modify]
    by_cases hi : l = i
    · subst hi
      rw [show s.r.spaces[l]? = some sp from hsp]
      rfl
    · cases s.r.spaces[i]? with
      | none => rfl
      | some sp' => simp [hi]
  rw [mapSpace, mapSpace, this]

theorem acquiring_of_step {space : Space D} {kind : SourceKind} {sp : PutterSpace D}
    {pc : AcquirePc} {acq : Acquired D} (hsource : space.source = some (kind, sp))
    (hstep : acquireStep kind sp pc = some acq) :
    Acquiring space (space.mapPutter fun _ => acq.space) := by
  have hptr := acquireStep_ptr hstep
  cases space with
  | poPu q b =>
      cases hsource
      exact ⟨_, _, rfl, rfl, acquireStep_typeInfo hstep,
        hptr.imp id fun h => ⟨h.1, b, rfl⟩⟩
  | memo q =>
      cases hsource
      refine ⟨_, _, rfl, rfl, acquireStep_typeInfo hstep, .inl ?_⟩
      rcases hptr with h | ⟨-, h⟩
      · exact h
      · cases h
  | poGe b | temp q | unused => cases hsource

/-- A port inside `acquire_data` has no message. -/
theorem told_of_acquiring (hsound : Sound (s.coordination owed)) {p : LocId}
    (hidle : s.callState p = .idle) (q : LocId) : s.proto.told q p = false := by
  rw [Bool.eq_false_iff]
  intro h
  have hspace := told_eq_true.1 h
  have hidle : (s.coordination owed).calls p = .idle := hidle
  cases (hsound.getter (l := p) hspace).1 with
  | outside _ _ h₃ _ | pending _ _ h₃ _ | served _ _ h₃ _ => cases h₃
  | told h₁ _ _ _ => cases hidle.symm.trans h₁

/-- A `finalize` closes the books of its putter. -/
theorem Books.finalize (h : Books s owed) {p q : LocId} {c : PortCall D} {m : Bool} {ph : Phase}
    {out : Option (Datum D)} (hcall : s.calls p = some ⟨c, .acquiring q (.finalize m), out⟩)
    (hcall' : t.calls p = some ⟨c, ph, out⟩)
    (hph : ∀ which : AcquirePc → Bool, which .returned = false → ∀ q', ph.isAt which q' = false)
    (hcalls : ∀ g, g ≠ p → t.calls g = s.calls g)
    (hlen : t.proto.r.spaces.length = s.proto.r.spaces.length)
    (hcounters : ∀ q, t.proto.counters q = s.proto.counters q)
    (htold : ∀ q g, t.proto.told q g = s.proto.told q g) (hp : p < s.proto.r.spaces.length) :
    Books t (Function.update owed q (owed q - 1)) := by
  have hsame : ∀ which : AcquirePc → Bool, which .returned = false → which (.finalize m) = false →
      ∀ q' g, t.acquiringAt which q' g = s.acquiringAt which q' g := by
    intro which hret hfin q' g
    by_cases hg : g = p
    · rw [hg, acquiringAt_of_call hcall', acquiringAt_of_call hcall, hph which hret, Phase.isAt,
        hfin, Bool.and_false]
    · exact acquiringAt_congr (hcalls g hg) q'
  have hpends : ∀ q' g, t.pends q' g = s.pends q' g := fun q' g => by
    rw [pends, pends, htold, hsame _ rfl rfl]
  intro q' c' hc'
  have hbooks := h q' c' (hcounters q' ▸ hc')
  by_cases hq : q' = q
  · subst hq
    rw [Function.update_self]
    have hlasts := Count.upTo_update (f := s.acquiringAt AcquirePc.lastOut q')
      (g := t.acquiringAt AcquirePc.lastOut q') hp
      fun g hg => acquiringAt_congr (hcalls g hg) q'
    rw [acquiringAt_self hcall, acquiringAt_of_call hcall', hph _ rfl] at hlasts
    have hlasts : Count.upTo s.proto.r.spaces.length (t.acquiringAt AcquirePc.lastOut q') + 1 =
        Count.upTo s.proto.r.spaces.length (s.acquiringAt AcquirePc.lastOut q') + 0 := hlasts
    obtain ⟨hcount, hduty, hmoving⟩ := hbooks
    refine ⟨?_, ?_, fun hk => ?_⟩
    · rw [hcount, hlen]
      exact (Count.upTo_congr fun g _ => hpends q' g).symm
    · rw [hlen]
      omega
    · obtain ⟨hsema, hnot, hflags⟩ := hmoving hk
      refine ⟨hsema, fun g => (hsame _ rfl rfl q' g).trans (hnot g), fun hpos => hflags ?_⟩
      omega
  · rw [Function.update_of_ne hq]
    refine hbooks.congr hlen (hpends q') (fun g => ?_) (hsame _ rfl rfl q')
    by_cases hg : g = p
    · rw [hg, acquiringAt_of_call hcall', acquiringAt_of_call hcall, hph _ rfl, Phase.isAt,
        beq_false_of_ne (Ne.symm hq), Bool.false_and]
    · exact acquiringAt_congr (hcalls g hg) q'

section Refine

variable {moves : Transfers D} {p : LocId} {c : PortCall D} {out : Option (Datum D)}

/-- The coordination has an answer to the step, and the books stay right. -/
def Refined (s t : Ports D) (owed : LocId → Nat) : Prop :=
  ∃ k owed', Run.Reach Coordination.Step (s.coordination owed) k (t.coordination owed') ∧
    Kept t owed'

/-- The answer is one step, or none. -/
def Stepped (s t : Ports D) (owed : LocId → Nat) : Prop :=
  ∃ owed', (t.coordination owed' = s.coordination owed ∨
    ∃ a, Coordination.Step (s.coordination owed) a (t.coordination owed')) ∧ Kept t owed'

theorem Stepped.refined (h : Stepped s t owed) : Refined s t owed := by
  obtain ⟨owed', heq | ⟨a, hstep⟩, hk⟩ := h
  · exact ⟨[], owed', heq ▸ .refl, hk⟩
  · exact ⟨[a], owed', .single hstep, hk⟩

/-- A getter's atomic step. -/
theorem Kept.acquire (h : Kept s owed) (hsound : Sound (s.coordination owed)) {q : LocId}
    {pc : AcquirePc} {out' : Option (Datum D)} {space : Space D} {kind : SourceKind}
    {sp : PutterSpace D} {acq : Acquired D}
    (hcall : s.calls p = some ⟨c, .acquiring q pc, out⟩) (hspace : s.proto.getSpace q = some space)
    (hsource : space.source = some (kind, sp)) (hstep : acquireStep kind sp pc = some acq) :
    Stepped s ({ s with proto := s.proto.mapPutter q fun _ => acq.space }.setCall p
      (some ⟨c, .acquiring q acq.pc, out'⟩)) owed := by
  have hidle : s.callState p = .idle := callState_of_call hcall
  have hacq := acquiring_of_step hsource hstep
  have hupdate : s.proto.mapPutter q (fun _ => acq.space) =
      s.proto.mapSpace q fun _ => space.mapPutter fun _ => acq.space := mapSpace_eq_const hspace _
  have hshapes : (s.proto.mapPutter q fun _ => acq.space).shapes = s.proto.shapes := by
    rw [hupdate]
    refine shapes_mapSpace_of fun sp' hsp' => ?_
    cases hspace.symm.trans hsp'
    exact hacq.shape
  have hcalls : ∀ g, g ≠ p → Function.update s.calls p (some ⟨c, .acquiring q acq.pc, out'⟩) g =
      s.calls g := fun g hg => Function.update_of_ne hg _ _
  have htold := told_mapPutter s.proto q fun _ => acq.space
  have hfits := h.fits p _ hcall
  obtain ⟨hq, howed⟩ := (h.books q _ (counters_of_source hspace hsource)).acquire
    (t := { s with proto := s.proto.mapPutter q fun _ => acq.space }.setCall p
      (some ⟨c, .acquiring q acq.pc, out'⟩)) hcall (calls_setCall_self _ p _) hcalls
    (length_spaces_of_shapes hshapes) hfits.lt (htold q) (told_of_acquiring hsound hidle q) hstep
  refine ⟨owed, .inr ⟨.acquire q, ?_⟩, ?_⟩
  · have hsame : callStateOf (some (⟨c, .acquiring q acq.pc, out'⟩ : Active D)) = s.callState p :=
      hidle.symm
    rw [hupdate, coordination_call owed hsame]
    exact .acquire howed hspace hacq
  · refine h.step p hcalls hshapes (fun x hx => ?_) fun q' c' hc' => ?_
    · rw [calls_setCall_self] at hx
      cases hx
      exact hfits.ofGetter (hfits.datum rfl) fun _ => .inl
    · by_cases hqq : q' = q
      · subst hqq
        have hnew : (s.proto.mapPutter q' fun _ => acq.space).getSpace q' =
            some (space.mapPutter fun _ => acq.space) := by
          rw [hupdate, getSpace_mapSpace_self, hspace]
          rfl
        have hsource' : (space.mapPutter fun _ => acq.space).source = some (kind, acq.space) := by
          cases space with
          | poPu sp' b | memo sp' =>
              cases hsource
              rfl
          | poGe b | temp sp' | unused => cases hsource
        cases hc'.symm.trans (counters_of_source hnew hsource')
        exact hq
      · have hother : ∀ which : AcquirePc → Bool, ∀ g,
            ({ s with proto := s.proto.mapPutter q fun _ => acq.space }.setCall p
              (some ⟨c, .acquiring q acq.pc, out'⟩)).acquiringAt which q' g =
              s.acquiringAt which q' g := by
          intro which g
          by_cases hg : g = p
          · rw [hg, acquiringAt_of_call (calls_setCall_self _ p _), acquiringAt_of_call hcall,
              Phase.isAt, Phase.isAt, beq_false_of_ne (Ne.symm hqq), Bool.false_and,
              Bool.false_and]
          · exact acquiringAt_congr (hcalls g hg) q'
        have hc := (counters_mapPutter_ne s.proto (fun _ => acq.space) hqq).symm.trans hc'
        refine (h.books q' c' hc).congr (length_spaces_of_shapes hshapes) (fun g => ?_)
          (hother _) (hother _)
        rw [pends, pends, hother]
        exact congrArg (· || _) (htold q' g)

/-- The message of a firing takes a getter into `acquire_data`. -/
theorem Kept.receive (h : Kept s owed) {ph : Phase} {q : LocId} {isCopy wants : Bool}
    {space : Space D} {y : SourceKind × PutterSpace D}
    (hcall : s.calls p = some ⟨c, ph, out⟩) (hphase : ph.receives = true)
    (hdatum : c.datum = none) (hmsg : s.proto.getDropbox p = some ⟨some q⟩)
    (hspace : s.proto.getSpace q = some space) (hsource : space.source = some y) :
    Kept ({ s with proto := s.proto.setDropbox p none }.setCall p
      (some ⟨c, .acquiring q (.entry isCopy wants), out⟩)) owed := by
  have hcalls : ∀ g, g ≠ p → Function.update s.calls p
      (some ⟨c, .acquiring q (.entry isCopy wants), out⟩) g = s.calls g :=
    fun g hg => Function.update_of_ne hg _ _
  have hfits := h.fits p _ hcall
  have hbusy : s.callState p ≠ .idle := by
    rw [callState_of_call hcall, Phase.callState_of_receives hphase]
    simp
  have htoldp : ∀ q', s.proto.told q' p = (q == q') := by
    intro q'
    obtain ⟨b, hb⟩ := hfits.isGetter hdatum
    rw [getDropbox, hb] at hmsg
    cases hmsg
    rw [told, hb]
  have hafter : ∀ (which : AcquirePc → Bool) (q' : LocId),
      ({ s with proto := s.proto.setDropbox p none }.setCall p
        (some ⟨c, .acquiring q (.entry isCopy wants), out⟩)).acquiringAt which q' p =
        (q == q' && which (.entry isCopy wants)) := by
    intro which q'
    rw [acquiringAt_of_call (calls_setCall_self _ p _)]
    rfl
  have hshapes := shapes_setDropbox s.proto p none
  refine h.step p hcalls hshapes (fun x hx => ?_) ?_
  · rw [calls_setCall_self] at hx
    cases hx
    refine hfits.ofGetter hdatum fun q' hq' => .inr ?_
    cases hq'
    exact isSource_of_source hspace hsource
  · refine h.books.step p hcalls (length_spaces_of_shapes hshapes)
      (counters_setDropbox s.proto p none)
      (fun q' g hg => told_setDropbox_ne s.proto none hg q') (fun q' => ?_) (fun q' => ?_)
      fun q' => ?_
    · rw [pends, pends, hafter, htoldp, acquiringAt_of_busy hbusy, AcquirePc.pending_entry,
        Bool.and_true, Bool.or_false]
      show ((s.proto.setDropbox p none).told q' p || _) = _
      rw [told_setDropbox_none, Bool.false_or]
    · rw [hafter, acquiringAt_of_busy hbusy,
        AcquirePc.lastOut_of_pending (AcquirePc.pending_entry _ _), Bool.and_false]
    · rw [hafter, acquiringAt_of_busy hbusy, AcquirePc.lost_entry, Bool.and_false]

/-- What a pass of the lock's holder comes to. -/
theorem pass_of_run (hs : Standing P infos s.proto) (hself : NoSelfPut P)
    (hclone : FanOutClones P) (hsound : Sound (s.coordination owed))
    (htrue : s.holder.isSome = true → Truthful P s.proto) (hlock : s.holder = some p)
    {result : EStateM.Result Fault (ProtoAll D) PassEnd}
    (hrun : exhaustPass.run s.proto = result) : PassOutcome P s.proto result := by
  rw [← hrun]
  refine hsound.pass hs hself hclone (htrue ?_)
  rw [hlock]
  rfl

/-- A call that has its `finalize` still to do is owed it. -/
theorem Kept.owed_of_finalize (h : Kept s owed) {q : LocId} {m : Bool} {space : Space D}
    {sp : PutterSpace D} {kind : SourceKind}
    (hcall : s.calls p = some ⟨c, .acquiring q (.finalize m), out⟩)
    (hspace : s.proto.getSpace q = some space) (hsource : space.source = some (kind, sp)) :
    0 < owed q :=
  (h.books q _ (counters_of_source hspace hsource)).owed_pos (h.fits p _ hcall).lt
    (acquiringAt_self hcall)

/-- A cell's source is emptied. -/
theorem emptied_of_finalize (hs : Standing P infos s.proto)
    (hsound : Sound (s.coordination owed)) (hk : Kept s owed) {q : LocId} {m go : Bool}
    {sp : PutterSpace D} {proto : ProtoAll D}
    (hcall : s.calls p = some ⟨c, .acquiring q (.finalize m), out⟩)
    (hspace : s.proto.getSpace q = some (.memo sp))
    (hrun : (finalizeMemo q m).run s.proto = .ok go proto) :
    ∃ v u, go = true ∧ proto = u.setReady q true ∧ s.proto.heap.read sp.ptr = some v ∧
      Emptied s.proto q sp u ∧
      u.heap.dropped = dropsOf s.proto (!m) sp v ++ s.proto.heap.dropped := by
  obtain ⟨v, u, hread, hran, hemptied, -, hdropped⟩ :=
    hsound.finalizeMemo_ok hs (p := q) (hk.owed_of_finalize hcall hspace rfl) hspace m
  cases hran.symm.trans hrun
  exact ⟨v, u, rfl, rfl, hread, hemptied, hdropped⟩

/-- Every step is answered. -/
theorem Step.stepped (hs : Standing P infos s.proto) (hself : NoSelfPut P)
    (hclone : FanOutClones P) (hsound : Sound (s.coordination owed))
    (htrue : s.holder.isSome = true → Truthful P s.proto) (h : Kept s owed) {a : Act D}
    (hstep : Step moves s a t) : Stepped s t owed := by
  cases hstep with
  | @callPut p c v sp b hidle hspace hdatum =>
      have hcs : s.callState p = .idle := by
        rw [callState, hidle]
        rfl
      refine ⟨owed, .inr ⟨.offer p v, ?_⟩, h.setCall ?_ ?_ ?_ ?_ ?_⟩
      · rw [coordination_setCall]
        exact Coordination.Step.offer hcs hspace
      · exact (frame_offer s.proto p v).shapes
      · exact counters_setPtr { s.proto with heap := s.proto.heap.write (.stack p) (some v) } p _
      · exact told_mapPutter { s.proto with heap := s.proto.heap.write (.stack p) (some v) } p _
      · rintro y ⟨⟩
        exact .putter hdatum (by rw [hspace]; rfl) (by simp [Phase.callState])
      · intro which _ q
        rw [acquiringAt_of_none hidle, acquiringAt_of_call (calls_setCall_self _ p _)]
        rfl
  | @callGet p c b hidle hspace hdatum =>
      have hcs : s.callState p = .idle := by
        rw [callState, hidle]
        rfl
      refine ⟨owed, .inr ⟨.request p, ?_⟩, h.setCall rfl (fun _ => rfl) (fun _ _ => rfl) ?_ ?_⟩
      · rw [coordination_setCall]
        exact Coordination.Step.request hcs hspace
      · rintro y ⟨⟩
        refine .getter hdatum (by rw [hspace]; rfl) fun q hq => ?_
        cases hq
      · intro which _ q
        rw [acquiringAt_of_none hidle, acquiringAt_of_call (calls_setCall_self _ p _)]
        rfl
  | @enter p c out go proto hcall hfree hrun =>
      rw [run_readySet hs.ungrouped] at hrun
      cases hrun
      have hlock : (s.coordination owed).locked = false := by
        rw [coordination, hfree]
        rfl
      refine ⟨owed, .inr ⟨.arrive p, ?_⟩,
        h.setCall (shapes_setReady s.proto p true) (fun _ => rfl) (fun _ _ => rfl) ?_ ?_⟩
      · rw [coordination_setCall]
        exact Coordination.Step.arrive (callState_of_call hcall) hlock
          (run_readySet hs.ungrouped p)
      · rintro y ⟨⟩
        exact (h.fits p _ hcall).phase (fun _ => by simp [Phase.callState]) rfl
      · intro which _ q
        rw [acquiringAt_of_call hcall, acquiringAt_of_call (calls_setCall_self _ p _)]
        rfl
  | @fire p i proto hlock hrun =>
      have hholds : s.holder.isSome = true := by rw [hlock]; rfl
      have hpass := pass_of_run hs hself hclone hsound htrue hlock hrun
      cases hpass with
      | fired hr hrule henc _ hgen hf =>
          exact ⟨_, .inr ⟨.fire i, .fire hholds hrule hrun⟩,
            h.fired hs hsound (List.mem_of_getElem? hr) henc hgen hf⟩
  | @leave p c ph out fin proto hlock hcall hend hrun =>
      have hholds : s.holder.isSome = true := by rw [hlock]; rfl
      have hpass := pass_of_run hs hself hclone hsound htrue hlock hrun
      cases hpass with
      | @fired i _ _ _ _ _ _ _ _ _ => exact absurd rfl (hend i)
      | quiet =>
          refine ⟨owed, .inr ⟨.leave, ?_⟩,
            h.setCall rfl (fun _ => rfl) (fun _ _ => rfl) ?_ ?_⟩
          · have hsame : callStateOf (some (⟨c, ph.afterPass, out⟩ : Active D)) = s.callState p :=
              (Phase.callState_afterPass ph).trans (callState_of_call hcall).symm
            rw [coordination_call owed hsame]
            exact .leave hholds hend hrun
          · rintro y ⟨⟩
            refine (h.fits p _ hcall).phase (fun hne => ?_) (Phase.source_afterPass ph)
            rw [Phase.callState_afterPass]
            exact hne
          · intro which hwhich q
            rw [acquiringAt_of_call hcall, acquiringAt_of_call (calls_setCall_self _ p _)]
            exact Phase.isAt_afterPass hwhich q ph
  | @panic p e proto hlock hrun =>
      have hholds : s.holder.isSome = true := by rw [hlock]; rfl
      have hpass := pass_of_run hs hself hclone hsound htrue hlock hrun
      cases hpass with
      | guardFault _ _ =>
          exact ⟨owed, .inr ⟨.panic, .panic hholds hrun⟩, h.fits,
            h.books.congr rfl (fun _ => rfl) (fun _ _ => rfl) (fun _ _ => rfl) fun _ _ => rfl⟩
  | @expire p c out hcall htimed =>
      refine ⟨owed, .inl ?_, h.setCall rfl (fun _ => rfl) (fun _ _ => rfl) ?_ ?_⟩
      · have hsame : callStateOf (some (⟨c, .expired, out⟩ : Active D)) = s.callState p :=
          (callState_of_call hcall).symm
        exact coordination_call owed hsame
      · rintro y ⟨⟩
        exact (h.fits p _ hcall).phase (fun _ => by simp [Phase.callState]) rfl
      · intro which _ q
        rw [acquiringAt_of_call hcall, acquiringAt_of_call (calls_setCall_self _ p _)]
        rfl
  | @withdraw p c out hcall hfree hready =>
      have hlock : (s.coordination owed).locked = false := by
        rw [coordination, hfree]
        rfl
      refine ⟨owed, .inr ⟨.withdraw p, ?_⟩,
        h.setCall (shapes_setReady s.proto p false) (fun _ => rfl) (fun _ _ => rfl) ?_ ?_⟩
      · rw [coordination_setCall]
        exact Coordination.Step.withdraw (callState_of_call hcall) hlock hready
      · rintro y ⟨⟩
      · intro which _ q
        rw [acquiringAt_of_call hcall, acquiringAt_of_none (calls_setCall_self _ p _)]
        rfl
  | @tooLate p c out hcall hfree hready =>
      rw [setReady_false_of_not_ready hready]
      refine ⟨owed, .inl ?_, h.setCall rfl (fun _ => rfl) (fun _ _ => rfl) ?_ ?_⟩
      · have hsame : callStateOf (some (⟨c, .late, out⟩ : Active D)) = s.callState p :=
          (callState_of_call hcall).symm
        exact coordination_call owed hsame
      · rintro y ⟨⟩
        exact (h.fits p _ hcall).phase (fun _ => by simp [Phase.callState]) rfl
      · intro which _ q
        rw [acquiringAt_of_call hcall, acquiringAt_of_call (calls_setCall_self _ p _)]
        rfl
  | @putReturn p c ph out v msg moved hcall hphase hdatum hmsg hmoved =>
      have hwait : s.callState p = .waiting :=
        (callState_of_call hcall).trans (Phase.callState_of_receives hphase)
      obtain ⟨sp, b, hsp⟩ := (h.fits p _ hcall).isPutter hdatum
      refine ⟨owed, .inr ⟨.receive p, ?_⟩, h.setCall (shapes_setDropbox s.proto p none)
        (counters_setDropbox s.proto p none) (told_setDropbox_poPu hsp none) ?_ ?_⟩
      · rw [coordination_setCall]
        exact Coordination.Step.receive hwait hmsg
      · rintro y ⟨⟩
      · intro which _ q
        rw [acquiringAt_of_none (calls_setCall_self _ p _), acquiringAt_of_busy]
        rw [hwait]
        simp
  | @receive p c ph out q space kind sp hcall hphase hdatum hmsg hspace hsource =>
      have hwait : s.callState p = .waiting :=
        (callState_of_call hcall).trans (Phase.callState_of_receives hphase)
      obtain ⟨b, hb⟩ := (h.fits p _ hcall).isGetter hdatum
      have hstep := Coordination.Step.receive (s := s.coordination owed) hwait hmsg
      rw [show (s.coordination owed).proto.setDropbox p none = s.proto.setDropbox p none from rfl,
        endCall_setDropbox_of_getter hb] at hstep
      refine ⟨owed, .inr ⟨.receive p, ?_⟩, h.receive hcall hphase hdatum hmsg hspace hsource⟩
      rw [coordination_setCall]
      exact hstep
  | acquire hcall hspace hsource hstep _ => exact h.acquire hsound hcall hspace hsource hstep
  | @finalizePort p c q m out sp b proto hcall hspace hrun =>
      obtain rfl := ok_of_send hrun
      have hfits := h.fits p _ hcall
      have howed := h.owed_of_finalize hcall hspace rfl
      have hshapes := shapes_setDropbox s.proto q (some (if m then 1 else 0))
      refine ⟨Function.update owed q (owed q - 1), .inr ⟨.finalize q m, ?_⟩,
        h.step p (fun g hg => Function.update_of_ne hg _ _) hshapes (fun x hx => ?_) ?_⟩
      · have hsame : callStateOf (some (⟨c, .acquiring q .returned, out⟩ : Active D)) =
          s.callState p := (callState_of_call hcall).symm
        rw [coordination_call _ hsame]
        exact .finalizePort howed hspace hrun
      · rw [calls_setCall_self] at hx
        cases hx
        exact hfits.ofGetter (hfits.datum rfl) fun _ => .inl
      · exact h.books.finalize hcall (calls_setCall_self _ p _)
          (fun which hwhich q' => by rw [Phase.isAt, hwhich, Bool.and_false])
          (fun g hg => Function.update_of_ne hg _ _) (length_spaces_of_shapes hshapes)
          (counters_setDropbox s.proto q _) (told_setDropbox_poPu hspace _) hfits.lt
  | @finalizeCell p c q m go out sp proto hcall hfree hspace hrun =>
      have hfits := h.fits p _ hcall
      have howed := h.owed_of_finalize hcall hspace rfl
      have hlock : (s.coordination owed).locked = false := by
        rw [coordination, hfree]
        rfl
      obtain ⟨v, u, rfl, rfl, -, hemptied, -⟩ := emptied_of_finalize hs hsound h hcall hspace hrun
      have hshapes : (u.setReady q true).shapes = s.proto.shapes :=
        (hemptied.frame.setReady q true).shapes
      refine ⟨Function.update owed q (owed q - 1), .inr ⟨.finalize q m, ?_⟩,
        h.step p (fun g hg => Function.update_of_ne hg _ _) hshapes (fun x hx => ?_) ?_⟩
      · have hsame : callStateOf (some (⟨c, .finalizing q, out⟩ : Active D)) = s.callState p :=
          (callState_of_call hcall).symm
        rw [if_pos rfl, if_pos rfl, coordination_call _ hsame]
        exact .finalizeCell howed hlock hspace hrun
      · rw [calls_setCall_self] at hx
        cases hx
        exact hfits.ofGetter (hfits.datum rfl) fun _ => .inl
      · exact h.books.finalize hcall (calls_setCall_self _ p _) (fun _ _ _ => rfl)
          (fun g hg => Function.update_of_ne hg _ _) (length_spaces_of_shapes hshapes)
          (hemptied.counters_eq hspace) (hemptied.told_eq hspace) hfits.lt
  | @getReturn p c q out hcall =>
      refine ⟨owed, .inl ?_, h.setCall rfl (fun _ => rfl) (fun _ _ => rfl) ?_ ?_⟩
      · have hsame : callStateOf (none : Option (Active D)) = s.callState p :=
          (callState_of_call hcall).symm
        exact coordination_call owed hsame
      · rintro y ⟨⟩
      · intro which hwhich q'
        rw [acquiringAt_of_call hcall, acquiringAt_of_none (calls_setCall_self _ p _), Phase.isAt,
          hwhich, Bool.and_false]

theorem Step.refined (hs : Standing P infos s.proto) (hself : NoSelfPut P)
    (hclone : FanOutClones P) (hsound : Sound (s.coordination owed))
    (htrue : s.holder.isSome = true → Truthful P s.proto) (h : Kept s owed) {a : Act D}
    (hstep : Step moves s a t) : Refined s t owed :=
  (hstep.stepped hs hself hclone hsound htrue h).refined

end Refine

end Ports

end ReoRs
