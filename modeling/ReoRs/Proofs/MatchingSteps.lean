import ReoRs.Proofs.Matching

/-!
# What the automaton makes of a step

Of the steps of a call the automaton sees the first and the last; all others
leave it where it is. A getter's steps in `acquire_data` are about two
locations, itself and its source, and `Matches.stepFrom` leaves only these two
to look at.
-/

namespace ReoRs

variable {D : Type}

open ProtoAll Coordination

/-- A firing is of the same kind as a call and its return: what a user of the
ports, and of nothing else, could tell apart. -/
def Ports.Act.observed : Ports.Act D → Option (Automaton.Act D)
  | .call p c => some (.call p c)
  | .fire _ i => some (.fire i)
  | .ret p a => some (.ret p a)
  | .enter _ | .leave _ | .panic _ | .expire _ | .late _ | .receive _ | .acquire _
  | .finalize _ => none

namespace Ports

/-- The automaton does what is observed, or nothing. -/
def Answered (P : Proto D) (A : Automaton D) (t : Ports D) : Option (Automaton.Act D) → Prop
  | some b => ∃ B, Automaton.Step P A b B ∧ Matches t B
  | none => Matches t A

variable {P : Proto D} {infos : HashMap TypeId (TypeInfo D)} {s t : Ports D}
  {owed : LocId → Nat} {A : Automaton D} {p q g l : LocId} {kind : SourceKind}
  {sp : PutterSpace D} {x : PortState D} {c : PortCall D} {ph : Phase} {out : Option (Datum D)}

/-! ## Getters and their source -/

/-- What the automaton has of a source whose getter is at work. -/
inductive AtSource (s : Ports D) (q : LocId) : SourceKind → PortState D → Prop where
  | cell (hcall : s.calls q = none) : AtSource s q .memory .idle
  | port {c : PortCall D} {ph : Phase} {out : Option (Datum D)} {v : Datum D} {moved : Bool}
      (hcall : s.calls q = some ⟨c, ph, out⟩) (hput : c.datum = some v)
      (hwait : s.callState q = .waiting) (hready : s.proto.w.active.ready.test q = false)
      (hmsg : s.proto.getDropbox q = some ⟨none⟩)
      (hto : ∀ g y, s.calls g = some y → s.Serving q g → y.call.wantsData = moved) :
      AtSource s q .port (.settled (c.putAnswer moved))

theorem Fits.not_memo {s : ProtoAll D} {y : Active D} (h : Fits s p y) :
    s.getSpace p ≠ some (.memo sp) := by
  intro hsp
  cases h with
  | putter _ hshape _ | getter _ hshape _ =>
      rw [hsp] at hshape
      cases hshape

/-- A port's call that is in `acquire_data` is at a getter. -/
theorem Kept.poGe_of_acquiring (h : Kept s owed) {pc : AcquirePc}
    (hcall : s.calls p = some ⟨c, .acquiring q pc, out⟩) :
    ∃ b, s.proto.getSpace p = some (.poGe b) :=
  (h.fits p _ hcall).isGetter ((h.fits p _ hcall).datum rfl)

theorem Handing.ne_of_poGe {s : ProtoAll D} (h : Handing s q kind sp) {b : MsgDropbox}
    (hp : s.getSpace p = some (.poGe b)) : p ≠ q := by
  rintro rfl
  obtain ⟨space, hspace, hsource⟩ := h
  cases hp.symm.trans hspace
  cases hsource

theorem PortMatches.atSource (h : PortMatches s q x) (hk : Kept s owed)
    (hsound : Sound (s.coordination owed)) (hfrom : Handing s.proto q kind sp)
    (hg : s.Serving q g) : AtSource s q kind x := by
  obtain ⟨-, hready, hport⟩ := hk.served hsound hfrom hg
  rcases hfrom.cases with ⟨rfl, b, hb⟩ | ⟨rfl, hmem⟩
  · obtain ⟨hwait, hbox⟩ := hport rfl
    have hnot : ∀ m, s.proto.told m q = false := told_of_poPu hb
    cases h with
    | idle hc =>
        rw [callState, hc] at hwait
        cases hwait
    | pending hc hfresh _ =>
        rcases hfresh with hent | hr
        · cases hwait.symm.trans hent
        · cases hready.symm.trans hr
    | told _ _ hmsg _ => cases hbox.symm.trans hmsg
    | served hc hput hwait hready hmsg hto => exact .port hc hput hwait hready hmsg hto
    | called _ htold _ _ => cases (hnot _).symm.trans htold
    | acquiring hc _ _ =>
        obtain ⟨b', hb'⟩ := hk.poGe_of_acquiring hc
        cases hb.symm.trans hb'
    | finished hc hph =>
        rw [callState_of_call hc] at hwait
        rcases hph with rfl | rfl <;> cases hwait
  · have hnone : s.calls q = none := by
      cases hc : s.calls q with
      | none => rfl
      | some y => exact absurd hmem (hk.fits q y hc).not_memo
    rw [h.of_idle hnone]
    exact .cell hnone

/-- The call of a getter on track serves. -/
theorem serving_of_track {wants : Bool} {pc : AcquirePc}
    (hcall : s.calls p = some ⟨c, .acquiring q pc, out⟩) (htrack : sp.OnTrack wants pc) :
    s.Serving q p := by
  rcases htrack.pending_or_lastOut with hpc | hpc
  · exact .inl (Bool.or_eq_true_iff.2 (.inr ((acquiringAt_self hcall).trans hpc)))
  · exact .inr ((acquiringAt_self hcall).trans hpc)

/-- A call in `acquire_data` is no putter's and waits for no rule: it is on its
way, or has what it came for. -/
theorem PortMatches.of_acquiring (h : PortMatches s p x) (hk : Kept s owed)
    (hsound : Sound (s.coordination owed)) {pc : AcquirePc}
    (hcall : s.calls p = some ⟨c, .acquiring q pc, out⟩) :
    (∃ kind sp r, Handing s.proto q kind sp ∧ x = .settled (.got r) ∧
      Underway s.proto.heap sp c.wantsData pc out r) ∨
      pc = .returned ∧ x = .settled (.got out) := by
  have hidle : s.callState p = .idle := callState_of_call hcall
  cases h with
  | idle hc => cases hcall.symm.trans hc
  | pending hc hwait _ =>
      obtain ⟨b, hb⟩ := hk.poGe_of_acquiring hcall
      rcases (unboxed_of_fresh hsound hwait (getDropbox_eq hb)).2 with hent | ⟨hw, -⟩
      · cases hidle.symm.trans hent
      · cases hidle.symm.trans hw
  | told hc hput _ _ | served hc hput _ _ _ _ =>
      cases hcall.symm.trans hc
      cases ((hk.fits p _ hcall).datum rfl).symm.trans hput
  | called hc htold _ _ => cases (told_of_acquiring hsound hidle _).symm.trans htold
  | acquiring hc hfrom hway =>
      cases hcall.symm.trans hc
      exact .inl ⟨_, _, _, hfrom, rfl, hway⟩
  | finished hc hph =>
      cases hcall.symm.trans hc
      rcases hph with hph | hph <;> cases hph
      exact .inr ⟨rfl, rfl⟩

/-- Where a call in `acquire_data` is short of its return, it is on its way. -/
theorem PortMatches.underway (h : PortMatches s p x) (hk : Kept s owed)
    (hsound : Sound (s.coordination owed)) {pc : AcquirePc}
    (hcall : s.calls p = some ⟨c, .acquiring q pc, out⟩) (hpc : pc ≠ .returned)
    (hfrom : Handing s.proto q kind sp) :
    ∃ r, x = .settled (.got r) ∧ Underway s.proto.heap sp c.wantsData pc out r := by
  rcases h.of_acquiring hk hsound hcall with ⟨kind', sp', r, hfrom', hx, hway⟩ | ⟨hret, -⟩
  · obtain ⟨rfl, rfl⟩ := hfrom.unique hfrom'
    exact ⟨r, hx, hway⟩
  · exact absurd hret hpc

/-- A getter serves no other source than its own. -/
theorem not_serving_of_source (hcall : s.calls p = some ⟨c, ph, out⟩) (hsrc : ph.source = some q)
    (htold : s.proto.told l p = false) (hl : l ≠ q) : ¬ s.Serving l p := by
  have hat : ∀ which : AcquirePc → Bool, s.acquiringAt which l p = false := by
    intro which
    rw [acquiringAt_of_call hcall]
    cases ph with
    | acquiring q' pc =>
        cases hsrc
        rw [Phase.isAt, beq_false_of_ne (Ne.symm hl), Bool.false_and]
    | finalizing q' => rfl
    | entering | coordinating | awaiting | expired | late => cases hsrc
  rw [Serving, pends, htold, hat, hat]
  simp

/-- A getter's step with its source changes nothing elsewhere, no data, and
no cell at rest. -/
theorem Matches.stepFrom (h : Matches s A) (hk : Kept s owed)
    (hsound : Sound (s.coordination owed)) (hserving : s.Serving q p) {pc : AcquirePc}
    (hcall : s.calls p = some ⟨c, .acquiring q pc, out⟩) {out' : Option (Datum D)}
    (hcall' : t.calls p = some ⟨c, ph, out'⟩) (hsrc : ph.source = some q)
    (hcalls : ∀ g, g ≠ p → t.calls g = s.calls g)
    (hspace : ∀ l, l ≠ q → t.proto.getSpace l = s.proto.getSpace l)
    (htold : ∀ l g, t.proto.told l g = s.proto.told l g)
    (hready : ∀ l, l ≠ q → t.proto.w.active.ready.test l = s.proto.w.active.ready.test l)
    (hread : ∀ r, t.proto.heap.read r = s.proto.heap.read r)
    (hheld : ∀ r, t.proto.held q = some r → s.proto.held q = some r)
    (hrest : t.proto.atRest q = s.proto.atRest q)
    (hp : PortMatches t p (A.ports p)) (hq : PortMatches t q (A.ports q)) : Matches t A := by
  have hheld' : ∀ l r, t.proto.held l = some r → s.proto.held l = some r := by
    intro l r hr
    by_cases hl : l = q
    · rw [hl] at hr ⊢
      exact hheld r hr
    · rwa [held_congr (cell_congr (hspace l hl))] at hr
  refine ⟨fun l => ?_, fun l => ?_, fun l l' r hl hl' => ?_, fun l c out hc => ?_⟩
  · rw [h.cells]
    by_cases hl : l = q
    · rw [hl, hrest]
    · exact (atRest_congr (hspace l hl) (hready l hl) fun r _ => hread r).symm
  · by_cases hlp : l = p
    · rw [hlp]
      exact hp
    · by_cases hlq : l = q
      · rw [hlq]
        exact hq
      · refine (h.ports l).congr (hcalls l hlp) (hspace l hlq) (hready l hlq) (hread _) ?_ ?_
        · rintro q' kind' sp' hserving' ⟨space, hs, hsource⟩
          -- the getter of `q` is `p`
          have hne : q' ≠ q := by
            rintro rfl
            exact hlp (h.serving_unique hk hsound hserving hserving')
          exact ⟨⟨space, (hspace q' hne).trans hs, hsource⟩, hread _⟩
        · intro g z hz hg
          by_cases hgp : g = p
          · subst hgp
            have hidle : s.callState g = .idle := callState_of_call hcall
            have hnot : t.proto.told l g = false :=
              (htold l g).trans (told_of_acquiring hsound hidle l)
            exact absurd hg (not_serving_of_source hcall' hsrc hnot hlq)
          · rw [serving_congr (htold l g) (hcalls g hgp)] at hg
            rw [hcalls g hgp] at hz
            exact ⟨z, hz, rfl, hg⟩
  · exact h.unshared l l' r (hheld' l r hl) (hheld' l' r hl')
  · by_cases hl : l = p
    · subst hl
      cases hcall'.symm.trans hc
      cases hsrc
    · rw [hcalls l hl] at hc
      exact h.timed l c out hc

/-! ## In `acquire_data` -/

theorem Handing.mapPutter {s : ProtoAll D} (h : Handing s q kind sp) (sp' : PutterSpace D) :
    Handing (s.mapPutter q fun _ => sp') q kind sp' := by
  rcases h.cases with ⟨rfl, b, hb⟩ | ⟨rfl, hmem⟩
  · exact ⟨.poPu sp' b, by rw [ProtoAll.mapPutter, getSpace_mapSpace_self, hb]; rfl, rfl⟩
  · exact ⟨.memo sp', by rw [ProtoAll.mapPutter, getSpace_mapSpace_self, hmem]; rfl, rfl⟩

theorem getDropbox_mapPutter (s : ProtoAll D) (q : LocId) (f : PutterSpace D → PutterSpace D) :
    (s.mapPutter q f).getDropbox q = s.getDropbox q := by
  rw [getDropbox, getDropbox, ProtoAll.mapPutter, getSpace_mapSpace_self]
  cases s.getSpace q with
  | none => rfl
  | some space => cases space <;> rfl

/-- A getter takes nothing out of a cell. -/
theorem held_acquire {s : ProtoAll D} {pc : AcquirePc} {acq : Acquired D}
    (hfrom : Handing s q kind sp) (hstep : acquireStep kind sp pc = some acq) :
    (s.mapPutter q fun _ => acq.space).held q = s.held q := by
  refine held_congr ?_
  rw [cell, cell, getMePu, getMePu, ProtoAll.mapPutter, getSpace_mapSpace_self]
  rcases hfrom.cases with ⟨rfl, b, hb⟩ | ⟨rfl, hmem⟩
  · rw [hb]
    rfl
  · rw [hmem]
    show some (acq.space.ptr, acq.space.typeInfo) = some (sp.ptr, sp.typeInfo)
    rcases acquireStep_ptr hstep with hptr | ⟨-, hport⟩
    · rw [hptr, acquireStep_typeInfo hstep]
    · cases hport

theorem atRest_of_not_ready {s : ProtoAll D} (h : s.w.active.ready.test l = false) :
    s.atRest l = none := by
  rw [atRest, if_neg (by rw [h]; simp)]

/-- A source that a getter's step left as it was, as far as its own call could
see. -/
theorem AtSource.matches (h : AtSource s q kind x) (hcall : t.calls q = s.calls q)
    (hready : t.proto.w.active.ready.test q = s.proto.w.active.ready.test q)
    (hbox : t.proto.getDropbox q = s.proto.getDropbox q)
    (hto : ∀ g y, t.calls g = some y → t.Serving q g →
      ∃ z, s.calls g = some z ∧ z.call = y.call ∧ s.Serving q g) : PortMatches t q x := by
  cases h with
  | cell hnone => exact .idle (hcall.trans hnone)
  | port hc hput hwait hr hmsg hs =>
      have hcs : t.callState q = s.callState q := by rw [callState, callState, hcall]
      refine .served (hcall.trans hc) hput (hcs.trans hwait) (hready.trans hr)
        (hbox.trans hmsg) fun g y hy hg => ?_
      obtain ⟨z, hz, hzy, hg'⟩ := hto g y hy hg
      rw [← hzy]
      exact hs g z hz hg'

theorem Matches.acquire (h : Matches s A) (hk : Kept s owed) (hsound : Sound (s.coordination owed))
    {pc : AcquirePc} {v : Option (Datum D)} {acq : Acquired D}
    (hcall : s.calls p = some ⟨c, .acquiring q pc, out⟩) (hfrom : Handing s.proto q kind sp)
    (hstep : acquireStep kind sp pc = some acq)
    (hmoves : ∀ t, acq.transfer = some t → Transfers.actual sp.typeInfo s.proto.heap t v) :
    Matches ({ s with proto := s.proto.mapPutter q fun _ => acq.space }.setCall p
      (some ⟨c, .acquiring q acq.pc, if acq.transfer.isSome then v else out⟩)) A := by
  have hpc : pc ≠ .returned := by
    rintro rfl
    cases hstep
  obtain ⟨r, hx, hway⟩ := (h.ports p).underway hk hsound hcall hpc hfrom
  have hserving := serving_of_track hcall hway.track
  have hready := (hk.served hsound hfrom hserving).2.1
  have hcalls : ∀ g, g ≠ p → Function.update s.calls p
      (some ⟨c, .acquiring q acq.pc, if acq.transfer.isSome then v else out⟩) g = s.calls g :=
    fun g hg => Function.update_of_ne hg _ _
  obtain ⟨b, hb⟩ := hk.poGe_of_acquiring hcall
  have hpq := hfrom.ne_of_poGe hb
  refine h.stepFrom hk hsound hserving hcall (calls_setCall_self _ p _) rfl hcalls
    (fun l hl => getSpace_mapSpace_ne s.proto _ hl) (told_mapPutter s.proto q _)
    (fun _ _ => rfl) (fun _ => rfl) (fun r hr => ?_) ?_ ?_ ?_
  · rwa [← held_acquire hfrom hstep]
  · rw [atRest_of_not_ready hready]
    exact atRest_of_not_ready hready
  · rw [hx]
    exact .acquiring (calls_setCall_self _ p _) (hfrom.mapPutter acq.space)
      (hway.step hstep hmoves)
  · refine ((h.ports q).atSource hk hsound hfrom hserving).matches (hcalls q (Ne.symm hpq)) rfl
      (getDropbox_mapPutter s.proto q _) fun g y hy hg => ?_
    by_cases hgp : g = p
    · subst hgp
      rw [calls_setCall_self] at hy
      cases hy
      exact ⟨_, hcall, rfl, hserving⟩
    · rw [serving_congr (told_mapPutter s.proto q _ q g) (hcalls g hgp)] at hg
      exact ⟨y, (hcalls g hgp).symm.trans hy, rfl, hg⟩

theorem Matches.finalizePort (h : Matches s A) (hk : Kept s owed)
    (hsound : Sound (s.coordination owed)) {m : Bool} {b : MsgDropbox}
    (hcall : s.calls p = some ⟨c, .acquiring q (.finalize m), out⟩)
    (hspace : s.proto.getSpace q = some (.poPu sp b)) :
    Matches ({ s with proto := s.proto.setDropbox q (some (if m then 1 else 0)) }.setCall p
      (some ⟨c, .acquiring q .returned, out⟩)) A := by
  have hfrom : Handing s.proto q .port sp := ⟨_, hspace, rfl⟩
  obtain ⟨r, hx, hway⟩ := (h.ports p).underway hk hsound hcall (by simp) hfrom
  obtain ⟨hm, rfl⟩ := hway.result
  have hserving := serving_of_track hcall hway.track
  have hready := (hk.served hsound hfrom hserving).2.1
  have hcalls : ∀ g, g ≠ p → Function.update s.calls p
      (some ⟨c, .acquiring q .returned, out⟩) g = s.calls g :=
    fun g hg => Function.update_of_ne hg _ _
  obtain ⟨b', hb'⟩ := hk.poGe_of_acquiring hcall
  have hpq := hfrom.ne_of_poGe hb'
  have hheld := held_congr (cell_setDropbox s.proto q (some (if m then 1 else 0)) q)
  refine h.stepFrom hk hsound hserving hcall (calls_setCall_self _ p _) rfl hcalls
    (fun l hl => getSpace_setDropbox_ne s.proto _ hl) (told_setDropbox_poPu hspace _)
    (fun _ _ => rfl) (fun _ => rfl) (fun r hr => hheld ▸ hr) ?_ ?_ ?_
  · rw [atRest_of_not_ready hready]
    exact atRest_of_not_ready hready
  · rw [hx]
    exact .finished (calls_setCall_self _ p _) (.inr rfl)
  · have hat := (h.ports q).atSource hk hsound hfrom hserving
    generalize A.ports q = x at hat
    cases hat with
    | port hc hput _ _ _ hto =>
        refine .told ((hcalls q (Ne.symm hpq)).trans hc) hput (m := if m then 1 else 0) ?_ ?_
        · show (s.proto.setDropbox q _).getDropbox q = _
          rw [getDropbox, getSpace_setDropbox, if_pos rfl, hspace]
          rfl
        · rw [hm, ← hto p _ hcall hserving]
          cases c.wantsData <;> rfl

theorem Matches.finalizeCell (h : Matches s A) (hk : Kept s owed)
    (hsound : Sound (s.coordination owed)) {m : Bool} {u : ProtoAll D}
    (hcall : s.calls p = some ⟨c, .acquiring q (.finalize m), out⟩)
    (hspace : s.proto.getSpace q = some (.memo sp)) (hemptied : Emptied s.proto q sp u) :
    Matches ({ s with proto := u.setReady q true, holder := some p }.setCall p
      (some ⟨c, .finalizing q, out⟩)) A := by
  have hfrom : Handing s.proto q .memory sp := ⟨_, hspace, rfl⟩
  obtain ⟨r, hx, hway⟩ := (h.ports p).underway hk hsound hcall (by simp) hfrom
  obtain ⟨-, rfl⟩ := hway.result
  have hserving := serving_of_track hcall hway.track
  have hready := (hk.served hsound hfrom hserving).2.1
  have hcalls : ∀ g, g ≠ p → Function.update s.calls p (some ⟨c, .finalizing q, out⟩) g =
      s.calls g := fun g hg => Function.update_of_ne hg _ _
  obtain ⟨b', hb'⟩ := hk.poGe_of_acquiring hcall
  have hpq := hfrom.ne_of_poGe hb'
  have hempty : (u.setReady q true).held q = none := hemptied.held
  refine h.stepFrom hk hsound hserving hcall (calls_setCall_self _ p _) rfl hcalls
    (fun l hl => hemptied.others l hl) (hemptied.told_eq hspace) (fun l hl => ?_)
    hemptied.read (fun r hr => ?_) ?_ ?_ ?_
  · show (u.setReady q true).w.active.ready.test l = _
    rw [ready_setReady, if_neg hl, hemptied.ready, decide_eq_false hl, Bool.false_or]
  · cases hempty.symm.trans hr
  · rw [atRest_of_not_ready hready]
    exact atRest_of_held_none hempty
  · rw [hx]
    exact .finished (calls_setCall_self _ p _) (.inl rfl)
  · have hat := (h.ports q).atSource hk hsound hfrom hserving
    generalize A.ports q = x at hat
    cases hat with
    | cell hnone => exact .idle ((hcalls q (Ne.symm hpq)).trans hnone)

/-! ## At one port -/

section

variable {proto : ProtoAll D} {holder : Option LocId} {dropped : List (Datum D)}

/-- The lock makes no difference. -/
theorem Matches.unlocked (h : Matches s A) :
    Matches (⟨s.proto, holder, s.calls, dropped⟩ : Ports D) A := by
  refine ⟨h.cells, fun l => ?_, h.unshared, h.timed⟩
  refine (h.ports l).congr rfl rfl rfl rfl (fun q kind sp _ hfrom => ⟨hfrom, rfl⟩) ?_
  exact fun g y hy hg => ⟨y, hy, rfl, hg⟩

theorem Fits.space_ne {s : ProtoAll D} {y : Active D} (h : Fits s p y) :
    ∀ sp, s.getSpace p ≠ some (.memo sp) := fun _ => h.not_memo

/-- A call goes on to a phase in which its place in `acquire_data` is the same
as far as its source is concerned. -/
theorem Matches.rephase (h : Matches s A) (hk : Kept s owed) (hsound : Sound (s.coordination owed))
    {ph' : Phase} (hcall : s.calls p = some ⟨c, ph, out⟩) (hcs : ph'.callState = ph.callState)
    (hacq : ∀ q pc, ph = .acquiring q pc → ph' = ph)
    (hfin : ∀ q, ph = .finalizing q → ph' = .finalizing q ∨ ph' = .acquiring q .returned)
    (hat : ∀ which : AcquirePc → Bool, which .returned = false → ∀ q,
      ph'.isAt which q = ph.isAt which q) (htimed : ph' = .expired → c.timed = true) :
    Matches (Ports.setCall ⟨s.proto, holder, s.calls, dropped⟩ p (some ⟨c, ph', out⟩)) A := by
  have hcalls : ∀ g, g ≠ p → (Ports.setCall ⟨s.proto, holder, s.calls, dropped⟩ p
      (some ⟨c, ph', out⟩)).calls g = s.calls g := fun g hg => Function.update_of_ne hg _ _
  have hcall' : (Ports.setCall ⟨s.proto, holder, s.calls, dropped⟩ p
      (some ⟨c, ph', out⟩)).calls p = some ⟨c, ph', out⟩ := calls_setCall_self _ p _
  have hserves : ∀ q, (Ports.setCall ⟨s.proto, holder, s.calls, dropped⟩ p
      (some ⟨c, ph', out⟩)).Serving q p → s.Serving q p := by
    intro q hq
    rw [Serving, pends, acquiringAt_of_call hcall', acquiringAt_of_call hcall', hat _ rfl,
      hat _ rfl] at hq
    rw [Serving, pends, acquiringAt_of_call hcall, acquiringAt_of_call hcall]
    exact hq
  have hport : PortMatches (Ports.setCall ⟨s.proto, holder, s.calls, dropped⟩ p
      (some ⟨c, ph', out⟩)) p (A.ports p) :=
    (h.ports p).rephase rfl hcalls hcall hcall' hcs hacq hfin hserves
  have hcell := (hk.fits p _ hcall).space_ne
  have hstep := h.stepAt hsound p hcalls (fun _ _ => rfl) (fun _ _ => rfl) (fun _ _ => rfl) hcell
    hcell (fun q y hy hq => ?_) (fun _ _ _ _ _ => ⟨rfl, rfl⟩) hport fun c' out' hc' => ?_
  · rwa [Automaton.setPort_eq_self] at hstep
  · cases hcall'.symm.trans hy
    exact ⟨_, hcall, rfl, hserves q hq⟩
  · cases hcall'.symm.trans hc'
    exact htimed rfl

end

theorem Matches.callPut (h : Matches s A) (hs : Standing P infos s.proto) (hk : Kept s owed)
    (hsound : Sound (s.coordination owed)) {v : Datum D} {b : MsgDropbox}
    (hidle : s.calls p = none) (hspace : s.proto.getSpace p = some (.poPu sp b))
    (hdatum : c.datum = some v) : Answered P A
      ({ s with proto := s.proto.offer p v }.setCall p (some ⟨c, .entering, none⟩))
      (some (.call p c)) := by
  have hnew : (s.proto.offer p v).getSpace p = some (.poPu { sp with ptr := .stack p } b) :=
    getSpace_offer hspace v
  have hkind : P.typelessProtoDef.locKinds.lookup p =
      some (if c.datum.isSome then .portPutter else .portGetter) := by
    rw [hs.shaped.lookup_of_poPu hspace, hdatum]
    rfl
  have hcall' : ({ s with proto := s.proto.offer p v }.setCall p
      (some ⟨c, .entering, none⟩)).calls p = some ⟨c, .entering, none⟩ := calls_setCall_self _ p _
  refine ⟨_, .call ((h.ports p).of_idle hidle) hkind, h.stepAt hsound p ?_ ?_ (fun _ _ => rfl)
    ?_ ?_ ?_ ?_ ?_ (.pending hcall' (.inl (callState_of_call hcall')) ?_) ?_⟩
  · exact fun g hg => Function.update_of_ne hg _ _
  · exact fun l hl => getSpace_setPtr_ne _ (.stack p) hl
  · exact fun r hr => Heap.read_write_ne _ _ hr
  · intro sp' hsp'
    cases hspace.symm.trans hsp'
  · intro sp' hsp'
    cases hnew.symm.trans hsp'
  · intro q y _ hq
    rw [Serving, pends, acquiringAt_of_call hcall', acquiringAt_of_call hcall'] at hq
    rcases hq with hq | hq
    · cases (told_of_poPu hnew q).symm.trans ((Bool.or_false _).symm.trans hq)
    · cases hq
  · intro g kind sp' hfrom hg
    rcases hfrom.cases with ⟨rfl, -⟩ | ⟨-, hmem⟩
    · have hwait := ((hk.served hsound hfrom hg).2.2 rfl).1
      rw [callState, hidle] at hwait
      cases hwait
    · cases hspace.symm.trans hmem
  · intro w hw
    cases hdatum.symm.trans hw
    exact Heap.read_write_stack _ _ _
  · intro c' out' hc'
    cases hcall'.symm.trans hc'

theorem Matches.callGet (h : Matches s A) (hs : Standing P infos s.proto)
    (hsound : Sound (s.coordination owed)) {b : MsgDropbox}
    (hidle : s.calls p = none) (hspace : s.proto.getSpace p = some (.poGe b))
    (hdatum : c.datum = none) :
    Answered P A (s.setCall p (some ⟨c, .entering, none⟩)) (some (.call p c)) := by
  have hkind : P.typelessProtoDef.locKinds.lookup p =
      some (if c.datum.isSome then .portPutter else .portGetter) := by
    rw [hs.shaped.lookup_of_poGe hspace, hdatum]
    rfl
  have hcall' : (s.setCall p (some ⟨c, .entering, none⟩)).calls p = some ⟨c, .entering, none⟩ :=
    calls_setCall_self s p _
  have hcell : ∀ sp, s.proto.getSpace p ≠ some (.memo sp) := by
    intro sp' hsp'
    cases hspace.symm.trans hsp'
  have hstate : s.callState p = .idle := by
    rw [callState, hidle]
    rfl
  refine ⟨_, .call ((h.ports p).of_idle hidle) hkind, h.stepAt hsound p ?_ (fun _ _ => rfl)
    (fun _ _ => rfl) (fun _ _ => rfl) hcell hcell ?_ (fun _ _ _ _ _ => ⟨rfl, rfl⟩)
    (.pending hcall' (.inl (callState_of_call hcall')) ?_) ?_⟩
  · exact fun g hg => Function.update_of_ne hg _ _
  · intro q y _ hq
    rw [Serving, pends, acquiringAt_of_call hcall', acquiringAt_of_call hcall'] at hq
    rcases hq with hq | hq
    · cases (told_of_acquiring hsound hstate q).symm.trans ((Bool.or_false _).symm.trans hq)
    · cases hq
  · intro w hw
    cases hdatum.symm.trans hw
  · intro c' out' hc'
    cases hcall'.symm.trans hc'

theorem Matches.enter (h : Matches s A) (hk : Kept s owed) (hsound : Sound (s.coordination owed))
    {holder : Option LocId} (hcall : s.calls p = some ⟨c, .entering, out⟩) :
    Matches ({ s with proto := s.proto.setReady p true, holder }.setCall p
      (some ⟨c, .coordinating, out⟩)) A := by
  have hcall' : ({ s with proto := s.proto.setReady p true, holder }.setCall p
      (some ⟨c, .coordinating, out⟩)).calls p = some ⟨c, .coordinating, out⟩ :=
    calls_setCall_self _ p _
  have hent : s.callState p = .entering := callState_of_call hcall
  obtain ⟨b, hb, -⟩ := hsound.port (l := p) (show s.callState p ≠ .idle by rw [hent]; simp)
  obtain ⟨hx, hout, hdatum⟩ := (h.ports p).of_fresh hsound (.inl hent) hcall hb
  have hcell := (hk.fits p _ hcall).space_ne
  have hbusy : ({ s with proto := s.proto.setReady p true, holder }.setCall p
      (some ⟨c, .coordinating, out⟩)).callState p ≠ .idle := by
    rw [callState_of_call hcall']
    simp [Phase.callState]
  have hstep := h.stepAt hsound p (t := { s with proto := s.proto.setReady p true, holder }.setCall
      p (some ⟨c, .coordinating, out⟩)) (x := A.ports p) (fun g hg => Function.update_of_ne hg _ _)
    (fun _ _ => rfl) (fun l hl => ?_) (fun _ _ => rfl) hcell hcell (fun q y hy hq => ?_)
    (fun _ _ _ _ _ => ⟨rfl, rfl⟩) ?_ fun c' out' hc' => ?_
  · rwa [Automaton.setPort_eq_self] at hstep
  · show (s.proto.setReady p true).w.active.ready.test l = _
    rw [ready_setReady, if_neg hl]
  · cases hcall'.symm.trans hy
    refine ⟨_, hcall, rfl, ?_⟩
    rw [Serving, pends, acquiringAt_of_busy hbusy, acquiringAt_of_busy hbusy] at hq
    rw [Serving, pends, acquiringAt_of_call hcall, acquiringAt_of_call hcall]
    exact hq
  · rw [hx]
    cases hout
    refine .pending hcall' (.inr ?_) hdatum
    show (s.proto.setReady p true).w.active.ready.test p = true
    rw [ready_setReady, if_pos rfl]
  · cases hcall'.symm.trans hc'

section

variable {dropped : List (Datum D)}

theorem Matches.withdraw (h : Matches s A) (hk : Kept s owed)
    (hsound : Sound (s.coordination owed)) (hcall : s.calls p = some ⟨c, .expired, out⟩)
    (hready : s.proto.w.active.ready.test p = true) : Answered P A
      ({ s with proto := (s.proto.setReady p false).endCall p, dropped }.setCall p none)
      (some (.ret p c.timeoutAnswer)) := by
  have hwait : s.callState p = .waiting := callState_of_call hcall
  obtain ⟨b, hb, -⟩ := hsound.port (l := p) (show s.callState p ≠ .idle by rw [hwait]; simp)
  obtain ⟨hx, -, -⟩ := (h.ports p).of_fresh hsound (.inr hready) hcall hb
  have hcell := (hk.fits p _ hcall).space_ne
  have hnone : ({ s with proto := (s.proto.setReady p false).endCall p, dropped }.setCall p
      none).calls p = none := calls_setCall_self _ p _
  refine ⟨_, .timeout hx (h.timed p c out hcall), h.stepAt hsound p ?_ (fun _ _ => rfl) ?_
    (fun r hr => read_endCall_ne _ hr) hcell hcell ?_ ?_ (.idle hnone) ?_⟩
  · exact fun g hg => Function.update_of_ne hg _ _
  · intro l hl
    show (s.proto.setReady p false).w.active.ready.test l = _
    rw [ready_setReady, if_neg hl]
  · intro q y hy
    cases hnone.symm.trans hy
  · intro g kind sp hfrom hg
    cases hready.symm.trans (hk.served hsound hfrom hg).2.1
  · intro c' out' hc'
    cases hnone.symm.trans hc'

/-- The message of a put is the answer it was to have. -/
theorem Matches.putReturn (h : Matches s A) (hk : Kept s owed)
    (hsound : Sound (s.coordination owed)) {v : Datum D} {msg : Nat} {moved : Bool}
    (hcall : s.calls p = some ⟨c, ph, out⟩) (hphase : ph.receives = true)
    (hdatum : c.datum = some v) (hmsg : s.proto.getDropbox p = some ⟨some msg⟩)
    (hmoved : movedOfMsg msg = some moved) : Answered P A
      ({ s with proto := (s.proto.setDropbox p none).endCall p, dropped }.setCall p none)
      (some (.ret p (c.putAnswer moved))) := by
  obtain ⟨sp, b, hsp⟩ := (hk.fits p _ hcall).isPutter hdatum
  have hx : A.ports p = .settled (c.putAnswer moved) := by
    have hp := h.ports p
    generalize A.ports p = x at hp
    cases hp with
    | idle hc => cases hcall.symm.trans hc
    | pending hc hwait _ => cases (unboxed_of_fresh hsound hwait hmsg).1
    | told hc _ hmsg' hmoved' =>
        cases hcall.symm.trans hc
        cases hmsg.symm.trans hmsg'
        cases hmoved.symm.trans hmoved'
        rfl
    | served _ _ _ _ hmsg' _ => cases hmsg.symm.trans hmsg'
    | called _ htold _ _ => cases (told_of_poPu hsp _).symm.trans htold
    | acquiring hc _ _ =>
        cases hcall.symm.trans hc
        cases hphase
    | finished hc hph =>
        cases hcall.symm.trans hc
        rcases hph with rfl | rfl <;> cases hphase
  have hnone : ({ s with proto := (s.proto.setDropbox p none).endCall p, dropped }.setCall p
      none).calls p = none := calls_setCall_self _ p _
  refine ⟨_, .ret hx, h.stepAt hsound p ?_ (fun l hl => getSpace_setDropbox_ne s.proto _ hl)
    (fun _ _ => rfl) (fun r hr => read_endCall_ne _ hr) ?_ ?_ ?_ ?_ (.idle hnone) ?_⟩
  · exact fun g hg => Function.update_of_ne hg _ _
  · intro sp' hsp'
    cases hsp.symm.trans hsp'
  · intro sp' hsp'
    have hsp' : (s.proto.setDropbox p none).getSpace p = some (.memo sp') := hsp'
    rw [getSpace_setDropbox, if_pos rfl, hsp] at hsp'
    cases hsp'
  · intro q y hy
    cases hnone.symm.trans hy
  · intro g kind sp' hfrom hg
    rcases hfrom.cases with ⟨rfl, -⟩ | ⟨-, hmem⟩
    · cases hmsg.symm.trans ((hk.served hsound hfrom hg).2.2 rfl).2
    · cases hsp.symm.trans hmem
  · intro c' out' hc'
    cases hnone.symm.trans hc'

end

/-- A getter that has its message is where its value's way begins. -/
theorem Matches.receive (h : Matches s A) (hk : Kept s owed)
    (hsound : Sound (s.coordination owed)) (hcall : s.calls p = some ⟨c, ph, out⟩)
    (hphase : ph.receives = true) (hdatum : c.datum = none)
    (hmsg : s.proto.getDropbox p = some ⟨some q⟩) (hfrom : Handing s.proto q kind sp) :
    Matches ({ s with proto := s.proto.setDropbox p none }.setCall p
      (some ⟨c, .acquiring q (.entry sp.typeInfo.isCopy c.wantsData), out⟩)) A := by
  obtain ⟨b, hb⟩ := (hk.fits p _ hcall).isGetter hdatum
  have hpq := hfrom.ne_of_poGe hb
  have htold : ∀ q', s.proto.told q' p = true → q' = q := by
    intro q' hq'
    rw [getDropbox, hb] at hmsg
    cases hmsg
    cases hb.symm.trans (told_eq_true.1 hq')
    rfl
  have hserving : s.Serving q p := by
    refine .inl (Bool.or_eq_true_iff.2 (.inl (told_eq_true.2 ?_)))
    rw [getDropbox, hb] at hmsg
    cases hmsg
    exact hb
  have hp := h.ports p
  have hcalled : ∃ r, A.ports p = .settled (.got r) ∧ out = none ∧ Underway s.proto.heap sp
      c.wantsData (.entry sp.typeInfo.isCopy c.wantsData) none r := by
    generalize A.ports p = x at hp
    cases hp with
    | idle hc => cases hcall.symm.trans hc
    | pending hc hwait _ => cases (unboxed_of_fresh hsound hwait hmsg).1
    | told hc hput _ _ | served hc hput _ _ _ _ =>
        cases hcall.symm.trans hc
        cases hdatum.symm.trans hput
    | called hc htold' hfrom' hway =>
        cases hcall.symm.trans hc
        obtain rfl := htold _ htold'
        obtain ⟨rfl, rfl⟩ := hfrom.unique hfrom'
        exact ⟨_, rfl, rfl, hway⟩
    | acquiring hc _ _ =>
        cases hcall.symm.trans hc
        cases hphase
    | finished hc hph =>
        cases hcall.symm.trans hc
        rcases hph with rfl | rfl <;> cases hphase
  obtain ⟨r, hx, rfl, hway⟩ := hcalled
  have hcall' : ({ s with proto := s.proto.setDropbox p none }.setCall p
      (some ⟨c, .acquiring q (.entry sp.typeInfo.isCopy c.wantsData), none⟩)).calls p =
      some ⟨c, .acquiring q (.entry sp.typeInfo.isCopy c.wantsData), none⟩ :=
    calls_setCall_self _ p _
  have hnew : (s.proto.setDropbox p none).getSpace p = some (.poGe ⟨none⟩) := by
    rw [getSpace_setDropbox, if_pos rfl, hb]
    rfl
  have hfrom' : Handing (s.proto.setDropbox p none) q kind sp := by
    obtain ⟨space, hs, hsource⟩ := hfrom
    exact ⟨space, (getSpace_setDropbox_ne s.proto none (Ne.symm hpq)).trans hs, hsource⟩
  have hstep := h.stepAt hsound p (t := { s with proto := s.proto.setDropbox p none }.setCall p
      (some ⟨c, .acquiring q (.entry sp.typeInfo.isCopy c.wantsData), none⟩)) (x := A.ports p)
    (fun g hg => Function.update_of_ne hg _ _)
    (fun l hl => getSpace_setDropbox_ne s.proto _ hl) (fun _ _ => rfl) (fun _ _ => rfl)
    (fun sp' hsp' => by cases hb.symm.trans hsp') (fun sp' hsp' => by cases hnew.symm.trans hsp')
    (fun q' y hy hq' => ?_) (fun g kind' sp' hto _ => ?_) ?_ fun c' out' hc' => ?_
  · rwa [Automaton.setPort_eq_self] at hstep
  · cases hcall'.symm.trans hy
    obtain rfl : q' = q := by
      by_contra hne
      exact not_serving_of_source hcall' rfl (told_setDropbox_none s.proto p q') hne hq'
    exact ⟨_, hcall, rfl, hserving⟩
  · exact absurd rfl (hto.ne_of_poGe hb)
  · rw [hx]
    exact .acquiring hcall' hfrom' hway
  · cases hcall'.symm.trans hc'

/-- What a getter returns is what it was to have. -/
theorem Matches.getReturn (h : Matches s A) (hk : Kept s owed)
    (hsound : Sound (s.coordination owed))
    (hcall : s.calls p = some ⟨c, .acquiring q .returned, out⟩) :
    Answered P A (s.setCall p none) (some (.ret p (.got out))) := by
  have hx : A.ports p = .settled (.got out) := by
    rcases (h.ports p).of_acquiring hk hsound hcall with ⟨_, _, _, -, -, hway⟩ | ⟨-, hx⟩
    · exact hway.track.elim
    · exact hx
  have hcell := (hk.fits p _ hcall).space_ne
  have hnone : (s.setCall p none).calls p = none := calls_setCall_self s p _
  refine ⟨_, .ret hx, h.stepAt hsound p ?_ (fun _ _ => rfl) (fun _ _ => rfl) (fun _ _ => rfl)
    hcell hcell ?_ (fun _ _ _ _ _ => ⟨rfl, rfl⟩) (.idle hnone) ?_⟩
  · exact fun g hg => Function.update_of_ne hg _ _
  · intro q' y hy
    cases hnone.symm.trans hy
  · intro c' out' hc'
    cases hnone.symm.trans hc'

end Ports

end ReoRs
