import ReoRs.Proofs.Ownership

/-!
# What changes hands in a step

A call brings its datum with it and a return takes it away, or takes what a
getter got. In between a datum changes hands twice at most: when its rule
fires, if it goes to a cell, and when a getter's transfer takes it from
behind its source's pointer. Whatever else a call does leaves everything with
whom it was.
-/

namespace ReoRs

variable {D : Type}

open ProtoAll Coordination

namespace Ports

variable {P : Proto D} {infos : HashMap TypeId (TypeInfo D)} {s t : Ports D}
  {owed : LocId → Nat} {A : Automaton D} {p q g l : LocId} {kind : SourceKind}
  {sp : PutterSpace D} {x : Active D} {c : PortCall D} {ph : Phase} {out : Option (Datum D)}
  {v : Datum D} {a : Act D} {proto : ProtoAll D} {holder : Option LocId}
  {dropped : List (Datum D)}

/-! ## Frames -/

/-- The frames stay as they are when a call goes on or returns. -/
theorem Framed.setCall (h : Framed s) {x : Option (Active D)}
    (hp : ∀ y v, x = some y → y.call.datum = some v → ∃ z, s.calls p = some z ∧ z.call = y.call ∧
      proto.heap.read (.stack p) = s.proto.heap.read (.stack p))
    (hread : ∀ l, l ≠ p → proto.heap.read (.stack l) = s.proto.heap.read (.stack l)) :
    Framed (Ports.setCall ⟨proto, holder, s.calls, dropped⟩ p x) := by
  intro l y v hy hv
  by_cases hl : l = p
  · subst hl
    rw [calls_setCall_self] at hy
    obtain ⟨z, hz, hzy, hsame⟩ := hp y v hy hv
    exact hsame.trans (h l z v hz (hzy ▸ hv))
  · exact (hread l hl).trans (h l y v ((Function.update_of_ne hl _ _).symm.trans hy) hv)

/-- A call goes on. -/
theorem Framed.rephase (h : Framed s) {ph' : Phase} {out' : Option (Datum D)}
    (hcall : s.calls p = some ⟨c, ph, out⟩)
    (hread : ∀ l, proto.heap.read (.stack l) = s.proto.heap.read (.stack l)) :
    Framed (Ports.setCall ⟨proto, holder, s.calls, dropped⟩ p (some ⟨c, ph', out'⟩)) := by
  refine h.setCall (fun y v hy _ => ⟨_, hcall, ?_, hread p⟩) fun l _ => hread l
  cases hy
  rfl

/-- A call returns, and its own frame is of no account any more. -/
theorem Framed.return (h : Framed s)
    (hread : ∀ l, l ≠ p → proto.heap.read (.stack l) = s.proto.heap.read (.stack l)) :
    Framed (Ports.setCall ⟨proto, holder, s.calls, dropped⟩ p none) :=
  h.setCall (fun y v hy _ => by cases hy) hread

/-! ## Nothing changes hands -/

/-- A call goes on, and no getter takes anything. -/
theorem Balanced.rephase {ph' : Phase} (hcall : s.calls p = some ⟨c, ph, out⟩)
    (hlen : proto.r.spaces.length = s.proto.r.spaces.length)
    (hspace : ∀ l, proto.getSpace l = s.proto.getSpace l) (hheap : proto.heap = s.proto.heap)
    (hat : ∀ q, ph'.isAt AcquirePc.took q = ph.isAt AcquirePc.took q) (hgiven : a.given = none)
    (hback : a.handedBack = none) :
    Balanced s a (Ports.setCall ⟨proto, holder, s.calls, s.dropped⟩ p (some ⟨c, ph', out⟩)) := by
  have hcalls : ∀ g, g ≠ p → (Ports.setCall ⟨proto, holder, s.calls, s.dropped⟩ p
      (some ⟨c, ph', out⟩)).calls g = s.calls g := fun g hg => Function.update_of_ne hg _ _
  have hcall' : (Ports.setCall ⟨proto, holder, s.calls, s.dropped⟩ p
      (some ⟨c, ph', out⟩)).calls p = some ⟨c, ph', out⟩ := calls_setCall_self _ p _
  refine .same hlen (fun l => owned_congr ?_ (taken_congr hlen fun g => ?_) ?_ ?_) rfl
    (congrArg Heap.dropped hheap) hgiven hback
  · by_cases hl : l = p
    · rw [hl, hcall, hcall']
      rfl
    · rw [hcalls l hl]
  · by_cases hg : g = p
    · rw [hg, hasTaken_of_call hcall, hasTaken_of_call hcall', hat]
    · exact hasTaken_congr (hcalls g hg) l
  · intro _ _ _ _
    show proto.getDropbox l = _
    rw [getDropbox, getDropbox, hspace]
  · intro _
    show (proto.held l).bind proto.heap.read = _
    rw [held_congr (cell_congr (hspace l)), hheap]

/-- A getter takes its message. -/
theorem Balanced.receive (hcall : s.calls p = some ⟨c, ph, out⟩)
    (hphase : ph.receives = true) (hdatum : c.datum = none) {isCopy : Bool} :
    Balanced s (.receive p) ({ s with proto := s.proto.setDropbox p none }.setCall p
      (some ⟨c, .acquiring q (.entry isCopy c.wantsData), out⟩)) := by
  have hcalls : ∀ g, g ≠ p → Function.update s.calls p
      (some ⟨c, .acquiring q (.entry isCopy c.wantsData), out⟩) g = s.calls g :=
    fun g hg => Function.update_of_ne hg _ _
  have hlen := length_spaces_of_shapes (shapes_setDropbox s.proto p none)
  have hnot : ∀ l, s.hasTaken l p = false := hasTaken_of_receives hcall hphase
  have hnot' : ∀ l, ({ s with proto := s.proto.setDropbox p none }.setCall p
      (some ⟨c, .acquiring q (.entry isCopy c.wantsData), out⟩)).hasTaken l p = false := by
    intro l
    rw [hasTaken_of_call (calls_setCall_self _ p _)]
    cases c.wantsData with
    | false => rfl
    | true => cases isCopy <;> exact Bool.and_false _
  refine .same hlen (fun l => ?_) rfl rfl rfl rfl
  by_cases hl : l = p
  · rw [hl, owned_of_get hcall hdatum, owned_of_get (calls_setCall_self _ p _) hdatum]
  · exact owned_other hlen hcalls hl ((hnot' l).trans (hnot l).symm)
      (getSpace_setDropbox_ne s.proto none hl) fun _ _ => rfl

/-! ## Calls and their returns -/

/-- Nobody takes anything from a port that is not in `acquire_data`'s
reach. -/
theorem not_taken_of_port (hk : Kept s owed) (hsound : Sound (s.coordination owed))
    {b : MsgDropbox} (hspace : s.proto.getSpace p = some (.poPu sp b))
    (hnot : ¬ (s.callState p = .waiting ∧ s.proto.getDropbox p = some ⟨none⟩ ∧
      s.proto.w.active.ready.test p = false)) : s.taken p = false := by
  refine not_taken fun g hg => hnot ?_
  have hfrom : Handing s.proto p .port sp := ⟨_, hspace, rfl⟩
  obtain ⟨-, hready, hport⟩ := hk.served hsound hfrom hg
  obtain ⟨hwait, hbox⟩ := hport rfl
  exact ⟨hwait, hbox, hready⟩

theorem Balanced.callPut (hk : Kept s owed) (hsound : Sound (s.coordination owed))
    {b : MsgDropbox} (hidle : s.calls p = none)
    (hspace : s.proto.getSpace p = some (.poPu sp b)) (hdatum : c.datum = some v) :
    Balanced s (.call p c) ({ s with proto := s.proto.offer p v }.setCall p
      (some ⟨c, .entering, none⟩)) := by
  have hlen := length_spaces_of_shapes (frame_offer s.proto p v).shapes
  have hlt : p < s.proto.r.spaces.length := (List.getElem?_eq_some_iff.1 hspace).1
  have hcall' : ({ s with proto := s.proto.offer p v }.setCall p
      (some ⟨c, .entering, none⟩)).calls p = some ⟨c, .entering, none⟩ := calls_setCall_self _ p _
  have hcalls : ∀ g, g ≠ p → Function.update s.calls p (some ⟨c, .entering, none⟩) g =
      s.calls g := fun g hg => Function.update_of_ne hg _ _
  have hsame : ∀ l, ({ s with proto := s.proto.offer p v }.setCall p
      (some ⟨c, .entering, none⟩)).hasTaken l p = s.hasTaken l p := by
    intro l
    rw [hasTaken_of_call hcall', hasTaken_of_none hidle]
    exact Bool.and_false _
  have hstate : s.callState p = .idle := by
    rw [callState, hidle]
    rfl
  have hbox : s.proto.getDropbox p = some b := getDropbox_eq hspace
  have htaken : s.taken p = false := not_taken_of_port hk hsound hspace fun hcon => by
    cases hstate.symm.trans hcon.1
  refine .at hlen hlt (fun l hl => ?_) ?_
  · refine owned_other hlen hcalls hl (hsame l) (getSpace_setPtr_ne _ (.stack p) hl) fun r hr => ?_
    obtain ⟨n, rfl⟩ := hsound.coherent.isStore hr
    exact Heap.read_write_ne _ _ (by simp)
  · -- the port owned nothing, and has its datum now
    have hbefore : s.owned p = none := by
      rw [owned_of_none hidle, htaken, held_of_dropbox hbox]
      rfl
    have hafter : ({ s with proto := s.proto.offer p v }.setCall p
        (some ⟨c, .entering, none⟩)).owned p = some v := by
      rw [owned_of_put hcall' hdatum, if_neg]
      have hnew : (s.proto.offer p v).getDropbox p = some b := by
        show (ProtoAll.setPtr _ p (.stack p)).getDropbox p = _
        rw [getDropbox, getSpace_setPtr, if_pos rfl]
        show ((s.proto.getSpace p).map _).bind Space.dropbox = _
        rw [hspace]
        rfl
      rintro (hcon | hcon)
      · rw [taken_congr hlen fun g => ?_] at hcon
        · cases htaken.symm.trans hcon
        · by_cases hg : g = p
          · rw [hg, hsame]
          · exact hasTaken_congr (hcalls g hg) p
      · cases hnew.symm.trans hcon
        have hstatus := (hsound.putter (l := p) hspace).1
        cases hstatus with
        | outside _ _ hnone _ | pending _ _ hnone _ | served _ _ hnone _ => cases hnone
        | told hwait _ _ _ =>
            have hwait : s.callState p = .waiting := hwait
            cases hstate.symm.trans hwait
    rw [hbefore, hafter]
    show (0 : Multiset (Datum D)) + Holdings.one c.datum + s.dropped + s.proto.heap.dropped =
      {v} + 0 + s.dropped + s.proto.heap.dropped
    rw [hdatum, Holdings.one_some, zero_add, add_zero]

theorem Balanced.callGet {b : MsgDropbox} (hidle : s.calls p = none)
    (hspace : s.proto.getSpace p = some (.poGe b)) (hdatum : c.datum = none) :
    Balanced s (.call p c) (s.setCall p (some ⟨c, .entering, none⟩)) := by
  have hcall' : (s.setCall p (some ⟨c, .entering, none⟩)).calls p = some ⟨c, .entering, none⟩ :=
    calls_setCall_self s p _
  have hcalls : ∀ g, g ≠ p → Function.update s.calls p (some ⟨c, .entering, none⟩) g =
      s.calls g := fun g hg => Function.update_of_ne hg _ _
  have hbox : s.proto.getDropbox p = some b := getDropbox_eq hspace
  refine .same rfl (fun l => ?_) rfl rfl hdatum rfl
  by_cases hl : l = p
  · rw [hl, owned_of_get hcall' hdatum, owned_of_none hidle, held_of_dropbox hbox]
    exact (ite_self none).symm
  · refine owned_other rfl hcalls hl ?_ rfl fun _ _ => rfl
    rw [hasTaken_of_call hcall', hasTaken_of_none hidle]
    exact Bool.and_false _

variable (holder dropped) in
/-- A call that has nobody left to serve returns, and takes what it owned with
it. -/
theorem owners_return (hlen : proto.r.spaces.length = s.proto.r.spaces.length)
    (hlt : p < s.proto.r.spaces.length) (hnot : ∀ l, s.hasTaken l p = false)
    (hspace : ∀ l, l ≠ p → proto.getSpace l = s.proto.getSpace l)
    (hread : ∀ l r, s.proto.held l = some r → proto.heap.read r = s.proto.heap.read r)
    (hheld : proto.held p = none) :
    (Ports.setCall ⟨proto, holder, s.calls, dropped⟩ p none).owners + Holdings.one (s.owned p) =
      s.owners := by
  have hnone : (Ports.setCall ⟨proto, holder, s.calls, dropped⟩ p none).calls p = none :=
    calls_setCall_self _ p _
  have hcalls : ∀ g, g ≠ p →
      (Ports.setCall ⟨proto, holder, s.calls, dropped⟩ p none).calls g = s.calls g :=
    fun g hg => Function.update_of_ne hg _ _
  have hafter : (Ports.setCall ⟨proto, holder, s.calls, dropped⟩ p none).owned p = none := by
    rw [owned_of_none hnone]
    show (if _ then none else (proto.held p).bind _) = _
    rw [hheld]
    exact ite_self none
  have hupdate := Holdings.total_update (f := s.owned)
    (g := (Ports.setCall ⟨proto, holder, s.calls, dropped⟩ p none).owned) hlt fun l hl => ?_
  · rw [hafter, Holdings.one_none, add_zero] at hupdate
    rw [owners, owners, ← hupdate]
    show Holdings.total proto.r.spaces.length _ + _ = _
    rw [hlen]
  · refine owned_other hlen hcalls hl ?_ (hspace l hl) (hread l)
    rw [hasTaken_of_none hnone, hnot]

/-- It goes back to the caller, or out of scope. -/
theorem Balanced.return {ans : Answer D} {ds : List (Datum D)}
    (howners : (Ports.setCall ⟨proto, holder, s.calls, ds ++ s.dropped⟩ p none).owners +
      Holdings.one (s.owned p) = s.owners)
    (hheap : proto.heap.dropped = s.proto.heap.dropped)
    (howned : Holdings.one (s.owned p) = ds + Holdings.one ans.datum) :
    Balanced s (.ret p ans)
      (Ports.setCall ⟨proto, holder, s.calls, ds ++ s.dropped⟩ p none) := by
  rw [Balanced, ← howners, howned]
  show _ + (ds + Holdings.one ans.datum) + 0 + (s.dropped : Multiset (Datum D)) +
      s.proto.heap.dropped = _ + Holdings.one ans.datum +
        ((ds ++ s.dropped : List (Datum D)) : Multiset (Datum D)) + proto.heap.dropped
  rw [hheap, ← Multiset.coe_add]
  abel

/-! ## In `acquire_data` -/

/-- A getter's step that transfers nothing leaves it where it was as far as
taking goes. -/
theorem took_of_step {wants : Bool} {pc : AcquirePc} {acq : Acquired D}
    (htrack : sp.OnTrack wants pc) (hstep : acquireStep kind sp pc = some acq) :
    acq.transfer = none ∧ (wants && acq.pc.took) = (wants && pc.took) ∨
      acq.transfer = some (.copied sp.ptr) ∧ wants = true ∧ pc.delivered = false ∧
        pc.took = false ∧ acq.pc.took = true := by
  cases pc with
  | storeMoved =>
      cases hstep
      exact .inl ⟨rfl, rfl⟩
  | copyData =>
      cases hstep
      exact .inr ⟨rfl, htrack.1, rfl, rfl, rfl⟩
  | copyCountdown =>
      cases hstep
      rw [PutterSpace.countDown, if_pos htrack.1]
      exact .inl ⟨rfl, rfl⟩
  | loadMoved =>
      cases hstep
      exact .inl ⟨rfl, rfl⟩
  | askMove =>
      rw [acquireStep_askMove, if_neg (by rw [htrack.2.2]; decide)] at hstep
      cases hstep
      exact .inl ⟨rfl, rfl⟩
  | winnerCountdown =>
      cases hstep
      rw [PutterSpace.countDown, if_pos htrack.2]
      exact .inl ⟨rfl, rfl⟩
  | winnerMove =>
      cases hstep
      exact .inr ⟨rfl, htrack, rfl, rfl, rfl⟩
  | signalCountdown =>
      cases hstep
      rw [PutterSpace.countDown, if_pos htrack.2.1]
      exact .inl ⟨rfl, rfl⟩
  | signalAsk =>
      obtain ⟨rfl, hflags⟩ := htrack
      rw [acquireStep_signalAsk, if_neg (by rw [hflags]; decide)] at hstep
      cases hstep
      exact .inl ⟨rfl, rfl⟩
  | finalize m => cases hstep
  | winnerWait | loserClone | loserCountdown | release | returned => exact htrack.elim

/-- What a source owns that its getter has not taken from. -/
theorem owned_of_source (hframed : Framed s) (hsound : Sound (s.coordination owed))
    (hfrom : Handing s.proto q kind sp) {y : PortState D} (hat : AtSource s q kind y)
    (htaken : s.taken q = false) {r : Option (Datum D)} (hr : s.proto.heap.read sp.ptr = r)
    (hsome : r ≠ none) : s.owned q = r := by
  have hnull : sp.ptr ≠ .null := by
    intro hnull
    rw [hnull] at hr
    exact hsome hr.symm
  rcases hfrom.cases with ⟨rfl, b, hb⟩ | ⟨rfl, hmem⟩
  · cases hat with
    | port hcall hput _ _ hmsg _ =>
        have hptr : sp.ptr = .stack q := ((hsound.putter (l := q) hb).2.1).resolve_left hnull
        rw [owned_of_put hcall hput, if_neg, ← hr, hptr, hframed q _ _ hcall hput]
        rintro (hcon | hcon)
        · cases htaken.symm.trans hcon
        · cases hmsg.symm.trans hcon
  · cases hat with
    | cell hnone =>
        have hheld : s.proto.held q = some sp.ptr :=
          held_of_memo hmem hnull
        rw [owned_of_none hnone, htaken, hheld]
        exact hr

/-- What has been taken is its owner's no longer. -/
theorem AtSource.owned_of_taken {y : PortState D} (hat : AtSource s q kind y)
    (hcall : t.calls q = s.calls q) (h : t.taken q = true) : t.owned q = none := by
  cases hat with
  | cell hnone => rw [owned_of_none (hcall.trans hnone), if_pos h]
  | port hc hput _ _ _ _ => rw [owned_of_put (hcall.trans hc) hput, if_pos (.inl h)]

theorem taken_of_hasTaken (hlt : g < s.proto.r.spaces.length) (h : s.hasTaken q g = true) :
    s.taken q = true :=
  List.any_eq_true.2 ⟨g, List.mem_range.2 hlt, h⟩

section

variable (h : Matches s A) (hk : Kept s owed) (hsound : Sound (s.coordination owed))
include h hk hsound

/-- Where there is a transfer, what the source owned is the getter's. -/
theorem Balanced.acquire (hframed : Framed s) {pc : AcquirePc} {v : Option (Datum D)}
    {acq : Acquired D} (hcall : s.calls p = some ⟨c, .acquiring q pc, out⟩)
    (hfrom : Handing s.proto q kind sp) (hstep : acquireStep kind sp pc = some acq)
    (hmoves : ∀ t, acq.transfer = some t → Transfers.actual sp.typeInfo s.proto.heap t v) :
    Balanced s (.acquire p) ({ s with proto := s.proto.mapPutter q fun _ => acq.space }.setCall p
      (some ⟨c, .acquiring q acq.pc, if acq.transfer.isSome then v else out⟩)) := by
  have hpc : pc ≠ .returned := by
    rintro rfl
    cases hstep
  obtain ⟨r, -, hway⟩ := (h.ports p).underway hk hsound hcall hpc hfrom
  have hserving := serving_of_track hcall hway.track
  have hat := (h.ports q).atSource hk hsound hfrom hserving
  have hget := (hk.fits p _ hcall).datum rfl
  obtain ⟨b, hb⟩ := hk.poGe_of_acquiring hcall
  have hpq := hfrom.ne_of_poGe hb
  have hlt := (hk.fits p _ hcall).lt
  have hlen : (s.proto.mapPutter q fun _ => acq.space).r.spaces.length =
      s.proto.r.spaces.length := List.length_modify _ _ _
  generalize hout' : (if acq.transfer.isSome then v else out) = out'
  have hcalls : ∀ g, g ≠ p → Function.update s.calls p
      (some ⟨c, .acquiring q acq.pc, out'⟩) g = s.calls g :=
    fun g hg => Function.update_of_ne hg _ _
  have hcall' : ({ s with proto := s.proto.mapPutter q fun _ => acq.space }.setCall p
      (some ⟨c, .acquiring q acq.pc, out'⟩)).calls p = some ⟨c, .acquiring q acq.pc, out'⟩ :=
    calls_setCall_self _ p _
  have hheld : ∀ l, (s.proto.mapPutter q fun _ => acq.space).held l = s.proto.held l := by
    intro l
    by_cases hl : l = q
    · rw [hl, held_acquire hfrom hstep]
    · exact held_congr (cell_congr (getSpace_mapSpace_ne s.proto _ hl))
  have hbox : ∀ l, (s.proto.mapPutter q fun _ => acq.space).getDropbox l =
      s.proto.getDropbox l := by
    intro l
    by_cases hl : l = q
    · rw [hl, getDropbox_mapPutter]
    · rw [getDropbox, getDropbox, ProtoAll.mapPutter, getSpace_mapSpace_ne s.proto _ hl]
  have hafter : ∀ l, ({ s with proto := s.proto.mapPutter q fun _ => acq.space }.setCall p
      (some ⟨c, .acquiring q acq.pc, out'⟩)).hasTaken l p =
        (c.wantsData && (q == l && acq.pc.took)) := fun l => hasTaken_of_call hcall' l
  have hbefore : ∀ l, s.hasTaken l p = (c.wantsData && (q == l && pc.took)) :=
    fun l => hasTaken_of_call hcall l
  have hsame : ∀ l, l ≠ p → (q = l → (c.wantsData && acq.pc.took) = (c.wantsData && pc.took)) →
      ({ s with proto := s.proto.mapPutter q fun _ => acq.space }.setCall p
        (some ⟨c, .acquiring q acq.pc, out'⟩)).owned l = s.owned l := by
    intro l hl htook
    refine owned_beside hlen hcalls hl ?_ (hbox l) ?_
    · rw [hafter, hbefore]
      by_cases hql : q = l
      · rw [hql, beq_self_eq_true, Bool.true_and, Bool.true_and, htook hql]
      · rw [beq_false_of_ne hql, Bool.false_and, Bool.false_and]
    · exact congrArg (Option.bind · s.proto.heap.read) (hheld l)
  rcases took_of_step hway.track hstep with ⟨hnone, htook⟩ | ⟨hsome, hw, hdel, hno, hyes⟩
  · rw [hnone] at hout'
    obtain rfl : out = out' := hout'
    refine .same hlen (fun l => ?_) rfl rfl rfl rfl
    by_cases hl : l = p
    · rw [hl, owned_of_get hcall hget, owned_of_get hcall' hget]
    · exact hsame l hl fun _ => htook
  · rw [hsome] at hout'
    obtain rfl : v = out' := hout'
    obtain ⟨hread, hrsome, hout⟩ := hway.offer hw hdel
    have hv : v = r := by
      have hmoved := hmoves _ hsome
      rw [Transfers.actual, Transfer.value, TypeInfo.copied] at hmoved
      split at hmoved
      · cases hmoved
      · cases hmoved
        exact hread
    have hnot : s.taken q = false := by
      rw [taken_eq_of_serving hlt fun g hg => h.serving_unique hk hsound hserving hg, hbefore, hno,
        Bool.and_false, Bool.and_false]
    have hlq : q < s.proto.r.spaces.length := by
      obtain ⟨space, hspace, -⟩ := hfrom
      exact (List.getElem?_eq_some_iff.1 hspace).1
    have htotal : owners ({ s with proto := s.proto.mapPutter q fun _ => acq.space }.setCall p
        (some ⟨c, .acquiring q acq.pc, v⟩)) = s.owners := by
      show Holdings.total (s.proto.mapPutter q fun _ => acq.space).r.spaces.length _ = _
      rw [hlen]
      refine Holdings.total_swap hlt hlq ?_ ?_ fun l hlp hlq => hsame l hlp fun hql =>
        absurd hql.symm hlq
      · rw [owned_of_get hcall' hget, owned_of_source hframed hsound hfrom hat hnot hread hrsome]
        exact hv
      · rw [owned_of_get hcall hget]
        show _ = out
        rw [hout]
        refine hat.owned_of_taken (hcalls q (Ne.symm hpq)) ?_
        refine taken_of_hasTaken (g := p) (Nat.lt_of_lt_of_eq hlt hlen.symm) ?_
        rw [hafter, hw, hyes, beq_self_eq_true]
        rfl
    rw [Balanced, htotal]
    rfl

/-- The putter is told what its getter has done. -/
theorem Balanced.finalizePort {m : Bool} {b : MsgDropbox} {msg : Nat}
    (hmsg : msg = if m then 1 else 0)
    (hcall : s.calls p = some ⟨c, .acquiring q (.finalize m), out⟩)
    (hspace : s.proto.getSpace q = some (.poPu sp b)) : Balanced s (.finalize p)
      ({ s with proto := s.proto.setDropbox q (some msg) }.setCall p
        (some ⟨c, .acquiring q .returned, out⟩)) := by
  have hfrom : Handing s.proto q .port sp := ⟨_, hspace, rfl⟩
  obtain ⟨r, -, hway⟩ := (h.ports p).underway hk hsound hcall (by simp) hfrom
  obtain ⟨rfl, -⟩ := hway.result
  have hserving := serving_of_track hcall hway.track
  have hat := (h.ports q).atSource hk hsound hfrom hserving
  have hget := (hk.fits p _ hcall).datum rfl
  have hlt := (hk.fits p _ hcall).lt
  obtain ⟨b', hb'⟩ := hk.poGe_of_acquiring hcall
  have hpq := hfrom.ne_of_poGe hb'
  have hcalls : ∀ g, g ≠ p → Function.update s.calls p
      (some ⟨c, .acquiring q .returned, out⟩) g = s.calls g :=
    fun g hg => Function.update_of_ne hg _ _
  have hcall' : ({ s with proto := s.proto.setDropbox q (some msg) }.setCall p
      (some ⟨c, .acquiring q .returned, out⟩)).calls p = some ⟨c, .acquiring q .returned, out⟩ :=
    calls_setCall_self _ p _
  have hlen := length_spaces_of_shapes (shapes_setDropbox s.proto q (some msg))
  have hafter : ∀ l, ({ s with proto := s.proto.setDropbox q (some msg) }.setCall p
      (some ⟨c, .acquiring q .returned, out⟩)).hasTaken l p = false := by
    intro l
    rw [hasTaken_of_call hcall', Phase.isAt, AcquirePc.took, Bool.and_false, Bool.and_false]
  have hbefore : ∀ l, s.hasTaken l p = (c.wantsData && q == l) := by
    intro l
    rw [hasTaken_of_call hcall, Phase.isAt, AcquirePc.took, Bool.and_true]
  refine .same hlen (fun l => ?_) rfl rfl rfl rfl
  by_cases hlp : l = p
  · rw [hlp, owned_of_get hcall hget, owned_of_get hcall' hget]
  · by_cases hlq : l = q
    · subst hlq
      -- what was taken before is what the message says was moved
      have hwas : s.taken l = c.wantsData := by
        rw [taken_eq_of_serving hlt fun g hg => h.serving_unique hk hsound hserving hg, hbefore,
          beq_self_eq_true, Bool.and_true]
      have hnot : ({ s with proto := s.proto.setDropbox l (some msg) }.setCall p
          (some ⟨c, .acquiring l .returned, out⟩)).taken l = false := by
        rw [taken_eq_of_serving (Nat.lt_of_lt_of_eq hlt hlen.symm) fun g hg => ?_, hafter]
        by_contra hgp
        rw [serving_congr (told_setDropbox_poPu hspace _ l g) (hcalls g hgp)] at hg
        exact hgp (h.serving_unique hk hsound hserving hg)
      have hbox : ({ s with proto := s.proto.setDropbox l (some msg) }.setCall p
          (some ⟨c, .acquiring l .returned, out⟩)).proto.getDropbox l = some ⟨some msg⟩ := by
        show (s.proto.setDropbox l (some msg)).getDropbox l = _
        rw [getDropbox, getSpace_setDropbox, if_pos rfl, hspace]
        rfl
      generalize A.ports l = y at hat
      cases hat with
      | port hc hput _ _ hbare _ =>
          rw [owned_of_put hc hput, owned_of_put ((hcalls l hlp).trans hc) hput, hnot, hwas, hbare,
            hbox, hmsg]
          cases c.wantsData <;> simp
    · refine owned_beside hlen hcalls hlp ?_ ?_ ?_
      · rw [hafter, hbefore, beq_false_of_ne (Ne.symm hlq), Bool.and_false]
      · show (s.proto.setDropbox q _).getDropbox l = _
        rw [getDropbox, getDropbox, getSpace_setDropbox_ne s.proto _ hlq]
      · show ((s.proto.setDropbox q _).held l).bind _ = _
        rw [held_congr (cell_setDropbox s.proto q _ l)]
        rfl

/-- The cell is emptied, and what was not taken from it is dropped. -/
theorem Balanced.finalizeCell {m : Bool} {u : ProtoAll D}
    (hcall : s.calls p = some ⟨c, .acquiring q (.finalize m), out⟩)
    (hspace : s.proto.getSpace q = some (.memo sp)) (hemptied : Emptied s.proto q sp u)
    (hread : s.proto.heap.read sp.ptr = some v)
    (hdropped : u.heap.dropped = dropsOf s.proto (!m) sp v ++ s.proto.heap.dropped)
    (hdrop : sp.typeInfo.funcs.drop = .dropInPlace) : Balanced s (.finalize p)
      ({ s with proto := u.setReady q true, holder := some p }.setCall p
        (some ⟨c, .finalizing q, out⟩)) := by
  have hfrom : Handing s.proto q .memory sp := ⟨_, hspace, rfl⟩
  obtain ⟨r, -, hway⟩ := (h.ports p).underway hk hsound hcall (by simp) hfrom
  obtain ⟨rfl, -⟩ := hway.result
  have hserving := serving_of_track hcall hway.track
  have hat := (h.ports q).atSource hk hsound hfrom hserving
  have hget := (hk.fits p _ hcall).datum rfl
  have hlt := (hk.fits p _ hcall).lt
  obtain ⟨b', hb'⟩ := hk.poGe_of_acquiring hcall
  have hpq := hfrom.ne_of_poGe hb'
  have hlq : q < s.proto.r.spaces.length := (List.getElem?_eq_some_iff.1 hspace).1
  have hcalls : ∀ g, g ≠ p → Function.update s.calls p (some ⟨c, .finalizing q, out⟩) g =
      s.calls g := fun g hg => Function.update_of_ne hg _ _
  have hcall' : ({ s with proto := u.setReady q true, holder := some p }.setCall p
      (some ⟨c, .finalizing q, out⟩)).calls p = some ⟨c, .finalizing q, out⟩ :=
    calls_setCall_self _ p _
  have hlen : (u.setReady q true).r.spaces.length = s.proto.r.spaces.length :=
    length_spaces_of_shapes hemptied.frame.shapes
  have hbefore : ∀ l, s.hasTaken l p = (c.wantsData && q == l) := by
    intro l
    rw [hasTaken_of_call hcall, Phase.isAt, AcquirePc.took, Bool.and_true]
  have hwas : s.taken q = c.wantsData := by
    rw [taken_eq_of_serving hlt fun g hg => h.serving_unique hk hsound hserving hg, hbefore,
      beq_self_eq_true, Bool.and_true]
  have hnone : s.calls q = none := by
    cases hc : s.calls q with
    | none => rfl
    | some y => exact absurd hspace (hk.fits q y hc).not_memo
  have hheld : (u.setReady q true).held q = none := hemptied.held
  refine .at hlen hlq (fun l hl => ?_) ?_
  · by_cases hlp : l = p
    · rw [hlp, owned_of_get hcall hget, owned_of_get hcall' hget]
    · refine owned_other hlen hcalls hlp ?_ (hemptied.others l hl) fun r _ => hemptied.read r
      rw [hasTaken_of_call hcall', hbefore, beq_false_of_ne (Ne.symm hl), Bool.and_false]
      exact Bool.and_false _
  · have hafter : ({ s with proto := u.setReady q true, holder := some p }.setCall p
        (some ⟨c, .finalizing q, out⟩)).owned q = none := by
      rw [owned_of_none ((hcalls q (Ne.symm hpq)).trans hnone)]
      show (if _ then none else ((u.setReady q true).held q).bind _) = _
      rw [hheld]
      exact ite_self none
    have hptr : sp.ptr ≠ .null := by
      intro hnull
      rw [hnull] at hread
      cases hread
    have hholds : s.proto.held q = some sp.ptr :=
      held_of_memo hspace hptr
    have hone := hsound.coherent.refs_eq_one h.unshared hholds
    rw [hafter, owned_of_none hnone, hwas, hholds]
    show Holdings.one (if c.wantsData then none else s.proto.heap.read sp.ptr) + 0 + s.dropped +
        s.proto.heap.dropped = 0 + 0 + s.dropped + (u.heap.dropped : Multiset (Datum D))
    rw [hdropped, dropsOf, hread, ← Multiset.coe_add]
    cases c.wantsData with
    | true =>
        rw [if_pos rfl, if_neg (by simp)]
        show 0 + 0 + (s.dropped : Multiset (Datum D)) + s.proto.heap.dropped =
          0 + 0 + s.dropped + (0 + s.proto.heap.dropped)
        rw [zero_add (s.proto.heap.dropped : Multiset (Datum D))]
    | false =>
        rw [if_neg (by simp), if_pos ⟨hone, rfl⟩, hdrop]
        show {v} + 0 + (s.dropped : Multiset (Datum D)) + s.proto.heap.dropped =
          0 + 0 + s.dropped + ({v} + s.proto.heap.dropped)
        abel

end

/-! ## Returns -/

theorem coe_toList (o : Option (Datum D)) :
    ((o.toList : List (Datum D)) : Multiset (Datum D)) = Holdings.one o := by
  cases o <;> rfl

theorem coe_disposes_told (c : PortCall D) (moved : Bool) :
    ((c.disposes (some moved) : List (Datum D)) : Multiset (Datum D)) =
      c.putDrops moved + Holdings.one (c.putAnswer moved).datum := by
  rw [PortCall.disposes, ← Multiset.coe_add, coe_toList]

theorem coe_disposes_timeout (c : PortCall D) :
    ((c.disposes none : List (Datum D)) : Multiset (Datum D)) =
      c.timeoutDrops + Holdings.one c.timeoutAnswer.datum := by
  rw [PortCall.disposes, ← Multiset.coe_add, coe_toList]

/-- The four variants of `put` return or drop their datum exactly when it was
not reported as moved, but for one of them: `put_timeout` drops its datum also
when it was. -/
theorem disposes_iff {r : Option Bool} (hdatum : c.datum = some v)
    (htimed : r = none → c.timed = true) :
    c.disposes r = (if r = some true then [] else [v]) ↔ ¬ (r = some true ∧ c = .putTimeout v) := by
  cases c with
  | put w | putLossy w =>
      cases hdatum
      rcases r with _ | _ | _
      · cases htimed rfl
      · simp [PortCall.disposes, PortCall.putDrops, PortCall.putAnswer, Answer.datum]
      · simp [PortCall.disposes, PortCall.putDrops, PortCall.putAnswer, Answer.datum]
  | putTimeout w | putTimeoutLossy w =>
      cases hdatum
      rcases r with _ | _ | _ <;> simp [PortCall.disposes, PortCall.putDrops, PortCall.putAnswer,
        PortCall.timeoutDrops, PortCall.timeoutAnswer, Answer.datum]
  | get | getTimeout | getSignal | getSignalTimeout => cases hdatum

/-- A getter takes what it got. -/
theorem Balanced.getReturn (hk : Kept s owed)
    (hcall : s.calls p = some ⟨c, .acquiring q .returned, out⟩) :
    Balanced s (.ret p (.got out)) (s.setCall p none) := by
  have hget := (hk.fits p _ hcall).datum rfl
  obtain ⟨b, hb⟩ := (hk.fits p _ hcall).dropbox
  have hnot : ∀ l, s.hasTaken l p = false := by
    intro l
    rw [hasTaken_of_call hcall, Phase.isAt, AcquirePc.took, Bool.and_false, Bool.and_false]
  have howners := owners_return s.holder s.dropped (Eq.refl s.proto.r.spaces.length)
    (hk.fits p _ hcall).lt hnot (fun _ _ => rfl) (fun _ _ _ => rfl) (held_of_dropbox hb)
  have hbalanced : Balanced s (.ret p (.got out))
      (Ports.setCall ⟨s.proto, s.holder, s.calls, [] ++ s.dropped⟩ p none) := by
    refine .return howners rfl ?_
    rw [owned_of_get hcall hget]
    exact (zero_add _).symm
  exact hbalanced

/-- A putting call is told that its datum was moved, and is a `put_timeout`. -/
def TimedPutMoved (s : Ports D) : Act D → Prop
  | .ret p _ => ∃ v ph out, s.calls p = some ⟨.putTimeout v, ph, out⟩ ∧
      s.proto.getDropbox p = some ⟨some 1⟩
  | _ => False

section

variable (hk : Kept s owed) (hsound : Sound (s.coordination owed))
include hk hsound

/-- What a putting call with a message owns. -/
theorem owned_of_told {msg : Nat} {moved : Bool} (hcall : s.calls p = some ⟨c, ph, out⟩)
    (hdatum : c.datum = some v) (hmsg : s.proto.getDropbox p = some ⟨some msg⟩)
    (hmoved : movedOfMsg msg = some moved) : s.owned p = if moved then none else some v := by
  obtain ⟨sp, b, hsp⟩ := (hk.fits p _ hcall).isPutter hdatum
  have htaken : s.taken p = false := not_taken_of_port hk hsound hsp fun hcon => by
    cases hmsg.symm.trans hcon.2.1
  rw [owned_of_put hcall hdatum, htaken, hmsg]
  rcases msg with _ | _ | n
  · cases hmoved
    simp
  · cases hmoved
    simp
  · cases hmoved

theorem Balanced.putReturn {msg : Nat} {moved : Bool} (hcall : s.calls p = some ⟨c, ph, out⟩)
    (hphase : ph.receives = true) (hdatum : c.datum = some v)
    (hmsg : s.proto.getDropbox p = some ⟨some msg⟩) (hmoved : movedOfMsg msg = some moved) :
    Balanced s (.ret p (c.putAnswer moved))
      ({ s with proto := (s.proto.setDropbox p none).endCall p
                dropped := c.putDrops moved ++ s.dropped }.setCall p none) ↔
      ¬ TimedPutMoved s (.ret p (c.putAnswer moved)) := by
  have hlen : ((s.proto.setDropbox p none).endCall p).r.spaces.length =
      s.proto.r.spaces.length := length_spaces_of_shapes (shapes_setDropbox s.proto p none)
  have hnot : ∀ l, s.hasTaken l p = false := hasTaken_of_receives hcall hphase
  have hheld : ((s.proto.setDropbox p none).endCall p).held p = none := by
    show (s.proto.setDropbox p none).held p = none
    rw [held_congr (cell_setDropbox s.proto p none p), held_of_dropbox hmsg]
  have howners := owners_return s.holder (c.putDrops moved ++ s.dropped) hlen
    (hk.fits p _ hcall).lt hnot (fun l hl => getSpace_setDropbox_ne s.proto none hl)
    (fun l r hr => read_endCall_ne _ (hsound.ne_stack_of_held hr)) hheld
  have hheap := dropped_endCall (s.proto.setDropbox p none) p
  have howned := owned_of_told hk hsound hcall hdatum hmsg hmoved
  have hiff : TimedPutMoved s (.ret p (c.putAnswer moved)) ↔
      some moved = some true ∧ c = .putTimeout v := by
    constructor
    · rintro ⟨w, ph', out', hcall', hone⟩
      cases hcall.symm.trans hcall'
      cases hdatum
      cases hmsg.symm.trans hone
      cases hmoved
      exact ⟨rfl, rfl⟩
    · rintro ⟨htrue, rfl⟩
      refine ⟨v, ph, out, hcall, ?_⟩
      rcases msg with _ | _ | n
      · cases hmoved
        cases htrue
      · exact hmsg
      · cases hmoved
  have hcoe : ((if some moved = some true then [] else [v] : List (Datum D)) :
      Multiset (Datum D)) = Holdings.one (if moved then none else some v) := by
    cases moved <;> rfl
  rw [hiff, ← disposes_iff hdatum (fun hnone => by cases hnone)]
  constructor
  · intro hbal
    rw [Balanced, ← howners] at hbal
    generalize Ports.owners _ = rest at hbal
    have hbal : rest + Holdings.one (s.owned p) + 0 + (s.dropped : Multiset (Datum D)) +
        s.proto.heap.dropped = rest + Holdings.one (c.putAnswer moved).datum +
          ((c.putDrops moved ++ s.dropped : List (Datum D)) : Multiset (Datum D)) +
            ((s.proto.setDropbox p none).endCall p).heap.dropped := hbal
    rw [hheap] at hbal
    change _ = _ + (s.proto.heap.dropped : Multiset (Datum D)) at hbal
    have hsame : ((c.disposes (some moved) : List (Datum D)) : Multiset (Datum D)) =
        Holdings.one (s.owned p) := by
      rw [← Multiset.coe_add] at hbal
      refine add_left_cancel (a := rest + s.dropped + s.proto.heap.dropped) ?_
      calc rest + s.dropped + s.proto.heap.dropped + c.disposes (some moved)
          = rest + Holdings.one (c.putAnswer moved).datum + (c.putDrops moved + s.dropped) +
              s.proto.heap.dropped := by rw [coe_disposes_told]; abel
        _ = rest + Holdings.one (s.owned p) + 0 + s.dropped + s.proto.heap.dropped := hbal.symm
        _ = rest + s.dropped + s.proto.heap.dropped + Holdings.one (s.owned p) := by abel
    rw [howned] at hsame
    cases moved with
    | true => exact (Multiset.coe_eq_zero _).1 hsame
    | false => exact Multiset.coe_eq_singleton.1 hsame
  · intro hdisposes
    refine .return howners hheap ?_
    rw [howned, ← hcoe, ← hdisposes, coe_disposes_told]

/-- A call that gave up still owns its datum. -/
theorem Balanced.withdraw (h : Matches s A) (hcall : s.calls p = some ⟨c, .expired, out⟩)
    (hready : s.proto.w.active.ready.test p = true) :
    Balanced s (.ret p c.timeoutAnswer)
      ({ s with proto := (s.proto.setReady p false).endCall p
                dropped := c.timeoutDrops ++ s.dropped }.setCall p none) := by
  obtain ⟨b, hb⟩ := (hk.fits p _ hcall).dropbox
  have hnot : ∀ l, s.hasTaken l p = false := by
    intro l
    rw [hasTaken_of_call hcall]
    exact Bool.and_false _
  have howners := owners_return s.holder (c.timeoutDrops ++ s.dropped)
    (show ((s.proto.setReady p false).endCall p).r.spaces.length = _ from rfl)
    (hk.fits p _ hcall).lt hnot (fun _ _ => rfl)
    (fun l r hr => read_endCall_ne _ (hsound.ne_stack_of_held hr)) (held_of_dropbox hb)
  refine .return howners (dropped_endCall _ p) ?_
  have htimed := h.timed p c out hcall
  cases hdatum : c.datum with
  | some v =>
      obtain ⟨sp, b', hsp⟩ := (hk.fits p _ hcall).isPutter hdatum
      have htaken : s.taken p = false := not_taken_of_port hk hsound hsp fun hcon => by
        cases hready.symm.trans hcon.2.2
      have hslot := (unboxed_of_fresh hsound (.inr hready) hb).1
      have hdisposes := (disposes_iff (r := none) hdatum fun _ => htimed).2 (by simp)
      rw [← coe_disposes_timeout, hdisposes, owned_of_put hcall hdatum, if_neg]
      · rfl
      · rintro (hcon | hcon)
        · cases htaken.symm.trans hcon
        · cases hb.symm.trans hcon
          cases hslot
  | none =>
      obtain ⟨-, hout, -⟩ := (h.ports p).of_fresh hsound (.inr hready) hcall hb
      have hout : out = none := hout
      rw [owned_of_get hcall hdatum, hout]
      cases c with
      | put w | putLossy w | putTimeout w | putTimeoutLossy w => cases hdatum
      | get | getTimeout | getSignal | getSignalTimeout => rfl

end

end Ports

end ReoRs
