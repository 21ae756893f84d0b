import ReoRs.Proofs.Sound
import ReoRs.Proofs.WakeUp

/-!
# Every step keeps the invariant

Most steps concern one location, and `Sound.update` leaves only that one to
look at. A pass is decided by `Sound.pass`: it finds nothing, fires, or stops
at a guard that panics. `Step.sound` puts the steps together; on the way it
shows that `make_empty` never panics in `finalize`.
-/

namespace ReoRs

variable {D : Type}

open ProtoAll

theorem getSpace_offer {s : ProtoAll D} {p : LocId} {sp : PutterSpace D} {b : MsgDropbox}
    (hp : s.getSpace p = some (.poPu sp b)) (v : Datum D) :
    (s.offer p v).getSpace p = some (.poPu { sp with ptr := .stack p } b) := by
  show (ProtoAll.setPtr _ p (.stack p)).getSpace p = _
  rw [getSpace_setPtr, if_pos rfl]
  show Option.map _ (s.getSpace p) = _
  rw [hp]
  rfl

/-- What is in a caller's frame is no part of the memory. -/
theorem Coherent.writeFrame {s : ProtoAll D} (h : Coherent s) (p : LocId) (v : Option (Datum D)) :
    Coherent { s with heap := s.heap.write (.stack p) v } := by
  refine ⟨h.counted, h.owned, ?_, ?_, h.prepared⟩
  · exact ⟨h.valid.owned_live, h.valid.free_live, h.valid.free_not_owned, h.valid.nodup,
      h.valid.apart⟩
  · intro l q hl
    obtain ⟨n, rfl⟩ := h.isStore hl
    obtain ⟨w, hw⟩ := h.full l _ hl
    exact ⟨w, (Heap.read_write_ne s.heap v (by simp)).trans hw⟩

theorem Coherent.offer {s : ProtoAll D} (h : Coherent s) {p : LocId} {sp : PutterSpace D}
    {b : MsgDropbox} (hp : s.getSpace p = some (.poPu sp b)) (v : Datum D) :
    Coherent (s.offer p v) := by
  refine (h.writeFrame p (some v)).congr (length_spaces_of_shapes (frame_offer s p v).shapes)
    (fun l => ?_) rfl rfl
  refine (cell_setPtr _ p (.stack p) l).trans ?_
  split
  · next hl =>
      have hnone : s.cell l = none := by
        rw [hl, cell, getMePu, hp]
        rfl
      show Option.map _ (s.cell l) = s.cell l
      rw [hnone]
      rfl
  · rfl

theorem Coherent.endCall {s : ProtoAll D} (h : Coherent s) (p : LocId) :
    Coherent (s.endCall p) := by
  rw [ProtoAll.endCall]
  split
  · exact h.writeFrame p none
  · exact h

namespace Coordination

variable {P : Proto D} {infos : HashMap TypeId (TypeInfo D)} {s t : Coordination D}

/-! ## Steps at one location -/

/-- A step that concerns one location. -/
theorem Sound.update (h : Sound s) (p : LocId) (hcoh : Coherent t.proto)
    (hspace : ∀ l, l ≠ p → t.proto.getSpace l = s.proto.getSpace l)
    (hcalls : ∀ l, l ≠ p → t.calls l = s.calls l) (howed : ∀ l, l ≠ p → t.owed l = s.owed l)
    (hready : ∀ l, l ≠ p →
      t.proto.w.active.ready.test l = s.proto.w.active.ready.test l)
    (hread : ∀ l, l ≠ p → t.proto.heap.read (.stack l) = s.proto.heap.read (.stack l))
    (hlock : t.locked = true → t.proto.w.active.ready.data ≠ [])
    (hp : Located t p (t.proto.getSpace p)) : Sound t := by
  refine ⟨hcoh, fun l => ?_, hlock⟩
  by_cases hl : l = p
  · rw [hl]
    exact hp
  · rw [hspace l hl]
    exact (h.located l).congr (hcalls l hl) (howed l hl) (hready l hl) (hread l hl)

theorem ne_nil_of_frame {s t : ProtoAll D} (hf : Frame s t) (h : s.w.active.ready.data ≠ []) :
    t.w.active.ready.data ≠ [] := by
  intro hnil
  have := hf.readyLength
  rw [hnil] at this
  exact h (List.eq_nil_of_length_eq_zero (Nat.le_zero.1 this))

theorem ne_nil_setReady (s : ProtoAll D) (p : LocId) :
    (s.setReady p true).w.active.ready.data ≠ [] := by
  intro hnil
  have htest : (s.setReady p true).w.active.ready.test p = true := by simp
  have := BitSet.lt_length_of_test htest
  rw [hnil] at this
  exact Nat.not_lt_zero _ this

theorem Sound.offer (h : Sound s) {p : LocId} {sp : PutterSpace D} {b : MsgDropbox} {v : Datum D}
    (hidle : s.calls p = .idle) (hspace : s.proto.getSpace p = some (.poPu sp b)) :
    Sound { s with proto := s.proto.offer p v, calls := Function.update s.calls p .entering } := by
  obtain ⟨hstatus, -⟩ := h.putter hspace
  have hnew : (s.proto.offer p v).getSpace p = some (.poPu { sp with ptr := .stack p } b) :=
    getSpace_offer hspace v
  refine h.update p (h.coherent.offer hspace v) ?_ ?_ (fun _ _ => rfl) (fun _ _ => rfl) ?_
    (ne_nil_of_frame (frame_offer _ p v) ∘ h.lock) ?_
  · exact fun l hl => getSpace_setPtr_ne _ (.stack p) hl
  · exact fun l hl => Function.update_of_ne hl _ _
  · exact fun l hl => Heap.read_write_ne _ _ fun heq => hl (Ptr.stack.inj heq)
  · show Located _ p ((s.proto.offer p v).getSpace p)
    rw [hnew]
    have hent : Function.update s.calls p .entering p = .entering := Function.update_self p _ _
    refine .putter ?_ (.inr rfl) fun _ => ⟨rfl, v, Heap.read_write_stack _ _ _⟩
    cases hstatus with
    | outside _ h₂ h₃ h₄ =>
        refine .outside ?_ h₂ h₃ h₄
        show Function.update s.calls p .entering p ≠ .waiting
        rw [hent]
        simp
    | pending h₁ | served h₁ | told h₁ => cases hidle.symm.trans h₁

theorem Sound.request (h : Sound s) {p : LocId} {b : MsgDropbox} (hidle : s.calls p = .idle)
    (hspace : s.proto.getSpace p = some (.poGe b)) :
    Sound { s with calls := Function.update s.calls p .entering } := by
  obtain ⟨hstatus, howed⟩ := h.getter hspace
  refine h.update p h.coherent (fun _ _ => rfl) ?_ (fun _ _ => rfl) (fun _ _ => rfl)
    (fun _ _ => rfl) h.lock ?_
  · exact fun l hl => Function.update_of_ne hl _ _
  · show Located _ p (s.proto.getSpace p)
    rw [hspace]
    refine .getter ?_ howed
    cases hstatus with
    | outside _ h₂ h₃ h₄ =>
        refine .outside ?_ h₂ h₃ h₄
        show Function.update s.calls p .entering p ≠ .waiting
        rw [Function.update_self]
        simp
    | pending h₁ | served h₁ | told h₁ => cases hidle.symm.trans h₁

theorem Sound.arrive (h : Sound s) {p : LocId} (hcall : s.calls p = .entering) :
    Sound { s with proto := s.proto.setReady p true, locked := true,
                   calls := Function.update s.calls p .waiting } := by
  obtain ⟨b, hb, hstatus⟩ := h.port (l := p) (by rw [hcall]; simp)
  have hwait : Function.update s.calls p .waiting p = .waiting := Function.update_self p _ _
  have hready : (s.proto.setReady p true).w.active.ready.test p = true := by simp
  have hbox : b.slot = none ∧ s.owed p = 0 := by
    cases hstatus with
    | outside _ _ h₃ h₄ => exact ⟨h₃, h₄⟩
    | pending h₁ | served h₁ | told h₁ => cases hcall.symm.trans h₁
  refine h.update p ?_ (fun _ _ => rfl) ?_ (fun _ _ => rfl) ?_ (fun _ _ => rfl)
    (fun _ => ne_nil_setReady _ p) ?_
  · exact h.coherent.congr rfl (fun _ => rfl) rfl rfl
  · exact fun l hl => Function.update_of_ne hl _ _
  · intro l hl
    show (s.proto.setReady p true).w.active.ready.test l = _
    rw [ready_setReady, if_neg hl]
  · show Located _ p (s.proto.getSpace p)
    cases hsp : s.proto.getSpace p with
    | none =>
        rw [getDropbox, hsp] at hb
        cases hb
    | some sp =>
        rw [getDropbox, hsp] at hb
        cases sp with
        | poPu q b' =>
            cases hb
            obtain ⟨-, hptr, hoffer⟩ := h.putter hsp
            exact .putter (.pending hwait hready hbox.1 hbox.2) hptr fun _ => hoffer (.inl hcall)
        | poGe b' =>
            cases hb
            exact .getter (.pending hwait hready hbox.1 hbox.2) hbox.2
        | memo q | temp q | unused => cases hb

/-- A port that got another dropbox and offers nothing. -/
theorem Sound.atPort (h : Sound s) {p : LocId} {b c : MsgDropbox}
    (hb : s.proto.getDropbox p = some b)
    (hspace : t.proto.getSpace p = (s.proto.getSpace p).map (Space.mapDropbox fun _ => c))
    (hstatus : PortStatus t p c) (howed : s.owed p = 0 → t.owed p = 0)
    (hquiet : ¬ (t.calls p = .entering ∨ t.proto.w.active.ready.test p = true)) :
    Located t p (t.proto.getSpace p) := by
  rw [hspace]
  rw [getDropbox] at hb
  cases hsp : s.proto.getSpace p with
  | none =>
      rw [hsp] at hb
      cases hb
  | some sp =>
      rw [hsp] at hb
      cases sp with
      | poPu q d =>
          obtain ⟨-, hptr, -⟩ := h.putter hsp
          exact .putter hstatus hptr fun hcon => absurd hcon hquiet
      | poGe d => exact .getter hstatus (howed (h.getter hsp).2)
      | memo q | temp q | unused => cases hb

/-- The frame of a call that is over is of no more use. -/
theorem Sound.endCall (h : Sound s) {p : LocId} (hidle : s.calls p = .idle)
    (hready : s.proto.w.active.ready.test p = false) :
    Sound { s with proto := s.proto.endCall p } := by
  refine h.update p (h.coherent.endCall p) (fun _ _ => rfl) (fun _ _ => rfl) (fun _ _ => rfl)
    (fun _ _ => rfl) ?_ h.lock ?_
  · exact fun l hl => read_endCall_ne _ fun heq => hl (Ptr.stack.inj heq)
  · show Located _ p (s.proto.getSpace p)
    have hp := h.located p
    cases hsp : s.proto.getSpace p with
    | none =>
        rw [hsp] at hp
        exact hp.congr rfl rfl rfl (by rw [ProtoAll.endCall, hsp])
    | some sp =>
        rw [hsp] at hp
        cases sp with
        | poPu q b =>
            cases hp with
            | putter hstatus hptr _ =>
                refine .putter ?_ hptr ?_
                · cases hstatus with
                  | outside h₁ h₂ h₃ h₄ => exact .outside h₁ h₂ h₃ h₄
                  | pending h₁ | served h₁ | told h₁ => cases hidle.symm.trans h₁
                · rintro (hent | hcon)
                  · cases hidle.symm.trans hent
                  · cases hready.symm.trans hcon
            | nothing _ ho => rcases ho with ho | ho <;> cases ho
        | poGe b | memo q | temp q | unused =>
            exact hp.congr rfl rfl rfl (by rw [ProtoAll.endCall, hsp])

theorem Sound.receive (h : Sound s) {p : LocId} {msg : Nat}
    (hmsg : s.proto.getDropbox p = some ⟨some msg⟩) :
    Sound { s with proto := (s.proto.setDropbox p none).endCall p,
                   calls := Function.update s.calls p .idle } := by
  have hidle : Function.update s.calls p .idle p = .idle := Function.update_self p _ _
  obtain ⟨hready, howed⟩ : s.proto.w.active.ready.test p = false ∧ s.owed p = 0 := by
    cases h.ofDropbox hmsg with
    | outside _ _ h₃ _ | pending _ _ h₃ _ | served _ _ h₃ _ => cases h₃
    | told _ h₂ _ h₄ => exact ⟨h₂, h₄⟩
  refine Sound.endCall (s := { s with proto := s.proto.setDropbox p none,
                                      calls := Function.update s.calls p .idle }) ?_ hidle hready
  refine h.update p ?_ ?_ ?_ (fun _ _ => rfl) (fun _ _ => rfl) (fun _ _ => rfl) h.lock ?_
  · exact h.coherent.congr
      (length_spaces_of_shapes (shapes_setDropbox s.proto p none))
      (cell_setDropbox _ p none) rfl rfl
  · exact fun l hl => getSpace_setDropbox_ne _ none hl
  · exact fun l hl => Function.update_of_ne hl _ _
  · refine h.atPort (c := ⟨none⟩) hmsg ?_ (.outside ?_ hready rfl howed) id ?_
    · exact (getSpace_setDropbox s.proto p none p).trans (if_pos rfl)
    · show Function.update s.calls p .idle p ≠ .waiting
      rw [hidle]
      simp
    · rintro (hent | hcon)
      · cases hidle.symm.trans hent
      · cases hready.symm.trans hcon

theorem map_mapDropbox_self {s : ProtoAll D} {p : LocId} {b : MsgDropbox}
    (hb : s.getDropbox p = some b) :
    s.getSpace p = (s.getSpace p).map (Space.mapDropbox fun _ => b) := by
  rw [getDropbox] at hb
  cases hsp : s.getSpace p with
  | none => rfl
  | some sp =>
      rw [hsp] at hb
      cases sp with
      | poPu q c | poGe c =>
          cases hb
          rfl
      | memo q | temp q | unused => cases hb

theorem Sound.withdraw (h : Sound s) {p : LocId} (hcall : s.calls p = .waiting)
    (hready : s.proto.w.active.ready.test p = true) :
    Sound { s with proto := (s.proto.setReady p false).endCall p,
                   calls := Function.update s.calls p .idle } := by
  have hidle : Function.update s.calls p .idle p = .idle := Function.update_self p _ _
  have hnot : (s.proto.setReady p false).w.active.ready.test p = false := by simp
  obtain ⟨b, hb, -⟩ := h.port (l := p) (by rw [hcall]; simp)
  obtain ⟨rfl, -, howed⟩ := h.dropbox hb hready
  refine Sound.endCall (s := { s with proto := s.proto.setReady p false,
                                      calls := Function.update s.calls p .idle }) ?_ hidle hnot
  refine h.update p ?_ (fun _ _ => rfl) ?_ (fun _ _ => rfl) ?_ (fun _ _ => rfl)
    (ne_nil_of_frame ((Frame.refl _).setReady p false) ∘ h.lock) ?_
  · exact h.coherent.congr rfl (fun _ => rfl) rfl rfl
  · exact fun l hl => Function.update_of_ne hl _ _
  · intro l hl
    show (s.proto.setReady p false).w.active.ready.test l = _
    rw [ready_setReady, if_neg hl]
  · refine h.atPort (c := ⟨none⟩) hb (map_mapDropbox_self hb) (.outside ?_ hnot rfl howed) id ?_
    · show Function.update s.calls p .idle p ≠ .waiting
      rw [hidle]
      simp
    · rintro (hent | hcon)
      · cases hidle.symm.trans hent
      · cases hnot.symm.trans hcon

/-- A location that is owed a `finalize` is a putter whose getters are at
work. -/
theorem Sound.owed_cases (h : Sound s) {p : LocId} (howed : 0 < s.owed p) :
    s.owed p = 1 ∧ s.proto.w.active.ready.test p = false ∧
      ((∃ sp b, s.proto.getSpace p = some (.poPu sp b) ∧ s.calls p = .waiting ∧ b.slot = none ∧
          (sp.ptr = .null ∨ sp.ptr = .stack p)) ∨
        ∃ sp, s.proto.getSpace p = some (.memo sp) ∧ s.calls p = .idle ∧ sp.ptr ≠ .null) ∨
      (s.proto.getSpace p = none ∨ s.proto.getSpace p = some .unused) := by
  have hne : s.owed p ≠ 0 := Nat.pos_iff_ne_zero.1 howed
  have hl := h.located p
  cases hsp : s.proto.getSpace p with
  | none => exact .inr (.inl rfl)
  | some sp =>
      cases sp with
      | poPu q b =>
          obtain ⟨hstatus, hptr, -⟩ := h.putter hsp
          cases hstatus with
          | outside _ _ _ h₄ | pending _ _ _ h₄ | told _ _ _ h₄ => exact absurd h₄ hne
          | served h₁ h₂ h₃ h₄ => exact .inl ⟨h₄, h₂, .inl ⟨q, b, rfl, h₁, h₃, hptr⟩⟩
      | poGe b => exact absurd (h.getter hsp).2 hne
      | memo q =>
          obtain ⟨hcall, hstatus⟩ := h.cell hsp
          cases hstatus with
          | resting _ h₂ => exact absurd h₂ hne
          | served h₁ h₂ h₃ => exact .inl ⟨h₂, h₁, .inr ⟨q, rfl, hcall, h₃⟩⟩
      | temp q =>
          rw [hsp] at hl
          cases hl with
          | nothing _ ho => rcases ho with ho | ho <;> cases ho
      | unused => exact .inr (.inr rfl)

/-- One space is rewritten: it has to keep its shape, what a cell it is has,
and its owner's side of things. -/
theorem Sound.rewrite (h : Sound s) {p : LocId} {f : Space D → Space D}
    (hshapes : (s.proto.mapSpace p f).shapes = s.proto.shapes)
    (hcell : (s.proto.mapSpace p f).cell p = s.proto.cell p)
    (hloc : Located { s with proto := s.proto.mapSpace p f } p
      ((s.proto.mapSpace p f).getSpace p)) :
    Sound { s with proto := s.proto.mapSpace p f } := by
  have hothers : ∀ l, l ≠ p → (s.proto.mapSpace p f).getSpace l = s.proto.getSpace l :=
    fun l hl => getSpace_mapSpace_ne _ _ hl
  have hcells : ∀ l, (s.proto.mapSpace p f).cell l = s.proto.cell l := by
    intro l
    by_cases hl : l = p
    · rw [hl, hcell]
    · exact cell_congr (hothers l hl)
  refine h.update p ?_ hothers (fun _ _ => rfl) (fun _ _ => rfl) (fun _ _ => rfl)
    (fun _ _ => rfl) h.lock hloc
  exact h.coherent.congr (length_spaces_of_shapes hshapes) hcells rfl rfl

theorem Sound.acquire (h : Sound s) {p : LocId} {space space' : Space D} (howed : 0 < s.owed p)
    (hspace : s.proto.getSpace p = some space) (hacq : Acquiring space space') :
    Sound { s with proto := s.proto.mapSpace p fun _ => space' } := by
  obtain ⟨q, q', hq, rfl, hinfo, hptr⟩ := hacq.sameKind
  have hnew : (s.proto.mapSpace p fun _ => space.mapPutter fun _ => q').getSpace p =
      some (space.mapPutter fun _ => q') := by
    rw [getSpace_mapSpace_self, hspace]
    rfl
  have hshapes : (s.proto.mapSpace p fun _ => space.mapPutter fun _ => q').shapes =
      s.proto.shapes := by
    refine shapes_mapSpace_of fun sp hsp => ?_
    cases hspace.symm.trans hsp
    exact (Acquiring.mk ⟨q, q', hq, rfl, hinfo, hptr⟩).shape
  rcases h.owed_cases howed with ⟨hone, hready, hport | hcell⟩ | hnone
  · obtain ⟨sp, b, hsp, hcall, hbox, hptrs⟩ := hport
    cases hspace.symm.trans hsp
    cases hq
    refine h.rewrite hshapes ?_ ?_
    · rw [ProtoAll.cell, getMePu, hnew, ProtoAll.cell, getMePu, hsp]
      rfl
    · rw [hnew]
      refine .putter (.served hcall hready hbox hone) ?_ ?_
      · rcases hptr with heq | ⟨hnull, -⟩
        · rw [heq]
          exact hptrs
        · exact .inl hnull
      · rintro (hent | hcon)
        · cases hcall.symm.trans hent
        · cases hready.symm.trans hcon
  · obtain ⟨sp, hsp, hcall, hfull⟩ := hcell
    cases hspace.symm.trans hsp
    cases hq
    have hsame : q'.ptr = q.ptr := by
      rcases hptr with heq | ⟨-, b, hb⟩
      · exact heq
      · cases hb
    refine h.rewrite hshapes ?_ ?_
    · rw [ProtoAll.cell, getMePu, hnew, ProtoAll.cell, getMePu, hsp]
      show some (q'.ptr, q'.typeInfo) = some (q.ptr, q.typeInfo)
      rw [hsame, hinfo]
    · rw [hnew]
      exact .cell hcall (.served hready hone (hsame ▸ hfull))
  · rcases hnone with hnone | hnone
    · cases hspace.symm.trans hnone
    · cases hspace.symm.trans hnone
      cases hq

theorem Sound.finalizePort (h : Sound s) {p : LocId} {someoneMoved : Bool} {sp : PutterSpace D}
    {b : MsgDropbox} {proto : ProtoAll D} (howed : 0 < s.owed p)
    (hspace : s.proto.getSpace p = some (.poPu sp b))
    (hrun : (finalizePoPu p someoneMoved).run s.proto = .ok () proto) :
    Sound { s with proto, owed := Function.update s.owed p (s.owed p - 1) } := by
  obtain rfl := ok_of_send hrun
  have hbox : s.proto.getDropbox p = some b := getDropbox_eq hspace
  obtain ⟨hcall, hready, hone⟩ : s.calls p = .waiting ∧
      s.proto.w.active.ready.test p = false ∧ s.owed p = 1 := by
    cases (h.putter hspace).1 with
    | outside _ _ _ h₄ | pending _ _ _ h₄ | told _ _ _ h₄ =>
        exact absurd h₄ (Nat.pos_iff_ne_zero.1 howed)
    | served h₁ h₂ _ h₄ => exact ⟨h₁, h₂, h₄⟩
  have hzero : Function.update s.owed p (s.owed p - 1) p = 0 := by
    rw [Function.update_self, hone]
  refine h.update p ?_ ?_ (fun _ _ => rfl) ?_ (fun _ _ => rfl) (fun _ _ => rfl) h.lock ?_
  · exact h.coherent.congr (length_spaces_of_shapes (shapes_setDropbox s.proto p _))
      (cell_setDropbox _ p _) rfl rfl
  · exact fun l hl => getSpace_setDropbox_ne _ _ hl
  · exact fun l hl => Function.update_of_ne hl _ _
  · refine h.atPort (c := ⟨some (if someoneMoved then 1 else 0)⟩) hbox ?_
      (.told hcall hready rfl hzero) (fun _ => hzero) ?_
    · exact (getSpace_setDropbox s.proto p _ p).trans (if_pos rfl)
    · rintro (hent | hcon)
      · cases hcall.symm.trans hent
      · cases hready.symm.trans hcon

/-- A cell's `finalize` empties it and makes it ready. -/
theorem Sound.finalizeMemo_ok (hs : Standing P infos s.proto) (h : Sound s) {p : LocId}
    {sp : PutterSpace D} (howed : 0 < s.owed p) (hspace : s.proto.getSpace p = some (.memo sp))
    (someoneMoved : Bool) : ∃ v u, s.proto.heap.read sp.ptr = some v ∧
      (finalizeMemo p someoneMoved).run s.proto = .ok true (u.setReady p true) ∧
      Emptied s.proto p sp u ∧ s.owed p = 1 ∧
      u.heap.dropped = dropsOf s.proto (!someoneMoved) sp v ++ s.proto.heap.dropped := by
  obtain ⟨-, hstatus⟩ := h.cell hspace
  cases hstatus with
  | resting _ h₂ => exact absurd h₂ (Nat.pos_iff_ne_zero.1 howed)
  | served hready hone hfull =>
      have hheld : s.proto.held p = some sp.ptr :=
        held_of_memo hspace hfull
      obtain ⟨v, hv⟩ := h.coherent.full p _ hheld
      obtain ⟨u, hrun, hemptied, hdropped⟩ :=
        makeEmpty_ok h.coherent hspace hfull hready hv (!someoneMoved)
      refine ⟨v, u, hv, ?_, hemptied, hone, hdropped⟩
      rw [finalizeMemo, Effect.run_bind_of_ok hrun]
      exact run_readySet (hemptied.frame.ungrouped hs.ungrouped) p

theorem Sound.finalizeCell (h : Sound s) {p : LocId} {sp : PutterSpace D} {u : ProtoAll D}
    (hspace : s.proto.getSpace p = some (.memo sp)) (hone : s.owed p = 1)
    (hemptied : Emptied s.proto p sp u) :
    Sound { s with proto := u.setReady p true, locked := true,
                   owed := Function.update s.owed p (s.owed p - 1) } := by
  refine h.update p ?_ hemptied.others (fun _ _ => rfl) ?_ ?_ ?_ (fun _ => ne_nil_setReady u p) ?_
  · exact hemptied.coherent.congr rfl (fun _ => rfl) rfl rfl
  · exact fun l hl => Function.update_of_ne hl _ _
  · intro l hl
    show (u.setReady p true).w.active.ready.test l = _
    rw [ready_setReady, if_neg hl, hemptied.ready, decide_eq_false hl, Bool.false_or]
  · exact fun l _ => hemptied.read _
  · show Located _ p (u.getSpace p)
    rw [hemptied.cell]
    refine .cell (h.cell hspace).1 (.resting (by simp) ?_)
    show Function.update s.owed p (s.owed p - 1) p = 0
    rw [Function.update_self, hone]

/-! ## Every step -/

/-- What a pass comes to in a sound state: nothing, a firing, or a panic of a
guard. -/
inductive PassOutcome (P : Proto D) (s : ProtoAll D) :
    EStateM.Result Fault (ProtoAll D) PassEnd → Prop where
  | quiet : PassOutcome P s (.ok .quiet s)
  | fired {i : RuleId} {r : RuleDef} {run : RunRule D} {t : ProtoAll D}
      (hr : P.typelessProtoDef.behaviour.rules[i]? = some r) (hrule : s.r.rules[i]? = some run)
      (henc : Encodes P.typelessProtoDef.locKinds r run) (henabled : Enabled s run)
      (hgen : Genuine P.typelessProtoDef.locKinds s r.actions)
      (hfired : Fired (s.prepare run) run.actions t) : PassOutcome P s (.ok (.fired i) t)
  | guardFault {i : RuleId} {run : RunRule D} {e : Fault} (hrule : s.r.rules[i]? = some run)
      (hguard : evalFormula s run.guardPred = .error e) : PassOutcome P s (.error e s)

theorem Sound.pass (hs : Standing P infos s.proto) (hself : NoSelfPut P) (hclone : FanOutClones P)
    (h : Sound s) (htrue : Truthful P s.proto) :
    PassOutcome P s.proto (exhaustPass.run s.proto) := by
  have hfire : ∀ (i : RuleId) (run : RunRule D), s.proto.r.rules[i]? = some run →
      Enabled s.proto run → ∃ r t, P.typelessProtoDef.behaviour.rules[i]? = some r ∧
        Encodes P.typelessProtoDef.locKinds r run ∧
        Genuine P.typelessProtoDef.locKinds s.proto r.actions ∧
        run.fire.run (s.proto.prepare run) = .ok () t ∧
        Fired (s.proto.prepare run) run.actions t := by
    intro i run hrun hen
    have hi := (List.getElem?_eq_some_iff.1 hrun).1
    obtain ⟨r, hr⟩ : ∃ r, P.typelessProtoDef.behaviour.rules[i]? = some r :=
      ⟨_, List.getElem?_eq_getElem (hs.rules.length_eq ▸ hi)⟩
    have henc := hs.encodes_at hr hrun
    have hgen := htrue i r run hr hrun hen
    obtain ⟨t, ht, hf⟩ := h.fire_ok hs (List.mem_of_getElem? hr) henc hself hclone hgen
    exact ⟨r, t, hr, henc, hgen, ht, hf⟩
  have hres := exhaustPass_result hs.ungrouped hs.tempMems
  cases hrun : exhaustPass.run s.proto with
  | ok fin t =>
      rw [hrun] at hres
      cases hres with
      | quiet _ => exact .quiet
      | fired hrule hen hran =>
          obtain ⟨r, t', hr, henc, hgen, ht, hf⟩ := hfire _ _ hrule hen
          cases ht.symm.trans hran
          exact .fired hr hrule henc hen hgen hf
  | error e t =>
      rw [hrun] at hres
      cases hres with
      | guardFault hrule _ hguard => exact .guardFault hrule hguard
      | fireFault hrule hen hran =>
          obtain ⟨r, t', -, -, -, ht, -⟩ := hfire _ _ hrule hen
          cases ht.symm.trans hran

/-- The invariant is kept by every step, if rules are fired rightly; and
`make_empty` never panics. -/
theorem Step.sound (hs : Standing P infos s.proto) (hself : NoSelfPut P) (hclone : FanOutClones P)
    (h : Sound s) (htrue : s.locked = true → Truthful P s.proto) {a : Act D} (hstep : Step s a t) :
    Sound t ∧ ∀ p someoneMoved, a ≠ .fault p someoneMoved := by
  have hfree : Sound { s with locked := false } :=
    ⟨h.coherent, fun l => (h.located l).congr rfl rfl rfl rfl, fun hlock => by cases hlock⟩
  cases hstep with
  | offer hidle hspace => exact ⟨h.offer hidle hspace, by simp⟩
  | request hidle hspace => exact ⟨h.request hidle hspace, by simp⟩
  | arrive hcall _ hrun =>
      rw [run_readySet hs.ungrouped] at hrun
      cases hrun
      exact ⟨h.arrive hcall, by simp⟩
  | fire hlock hrule hrun =>
      have hpass := h.pass hs hself hclone (htrue hlock)
      rw [hrun] at hpass
      cases hpass with
      | fired hr hrule' henc _ hgen hf =>
          cases hrule.symm.trans hrule'
          exact ⟨h.fired hs (List.mem_of_getElem? hr) henc hself hgen hf, by simp⟩
  | leave hlock hend hrun =>
      have hpass := h.pass hs hself hclone (htrue hlock)
      rw [hrun] at hpass
      cases hpass with
      | quiet => exact ⟨hfree, by simp⟩
      | @fired i _ _ _ _ _ _ _ _ _ => exact absurd rfl (hend i)
  | panic hlock hrun =>
      have hpass := h.pass hs hself hclone (htrue hlock)
      rw [hrun] at hpass
      cases hpass with
      | guardFault _ _ => exact ⟨hfree, by simp⟩
  | receive _ hmsg => exact ⟨h.receive hmsg, by simp⟩
  | withdraw hcall _ hready => exact ⟨h.withdraw hcall hready, by simp⟩
  | acquire howed hspace hacq => exact ⟨h.acquire howed hspace hacq, by simp⟩
  | finalizePort howed hspace hrun => exact ⟨h.finalizePort howed hspace hrun, by simp⟩
  | finalizeCell howed _ hspace hrun =>
      obtain ⟨v, u, -, hran, hemptied, hone, -⟩ := h.finalizeMemo_ok hs howed hspace _
      cases hran.symm.trans hrun
      exact ⟨h.finalizeCell hspace hone hemptied, by simp⟩
  | fault howed _ hspace hrun =>
      obtain ⟨v, u, -, hran, -⟩ := h.finalizeMemo_ok hs howed hspace _
      cases hran.symm.trans hrun

end Coordination

end ReoRs
