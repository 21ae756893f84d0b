import ReoRs.Automaton
import ReoRs.Proofs.OneGetter

/-!
# The ports and the automaton

`Matches` is what a state of the ports is to a state of the automaton of the
rules. The cells at rest have the automaton's values. A port whose call is
ready, or on its way there, has it pending; and as soon as a rule has fired,
the port's answer is what its part of the hand-off will come to: the message in
the putter's dropbox, what the getter wants, the value on its way.

Most steps are about one port, and `Matches.stepAt` leaves only that port to
look at.
-/

namespace ReoRs

variable {D : Type}

open ProtoAll Coordination

/-- The value of a cell no getter is at work on. -/
def ProtoAll.atRest (s : ProtoAll D) (l : LocId) : Option (Datum D) :=
  if s.w.active.ready.test l then (s.held l).bind s.heap.read else none

theorem ProtoAll.atRest_of_held_none {s : ProtoAll D} {l : LocId} (h : s.held l = none) :
    s.atRest l = none := by
  rw [atRest, h]
  exact ite_self none

namespace Ports

inductive PortMatches (s : Ports D) (p : LocId) : PortState D → Prop where
  | idle (hcall : s.calls p = none) : PortMatches s p .idle
  | pending {c : PortCall D} {ph : Phase} (hcall : s.calls p = some ⟨c, ph, none⟩)
      (hwait : s.callState p = .entering ∨ s.proto.w.active.ready.test p = true)
      (hdatum : ∀ v, c.datum = some v → s.proto.heap.read (.stack p) = some v) :
      PortMatches s p (.pending c)
  | told {c : PortCall D} {ph : Phase} {out : Option (Datum D)} {v : Datum D} {m : Nat}
      {moved : Bool} (hcall : s.calls p = some ⟨c, ph, out⟩) (hput : c.datum = some v)
      (hmsg : s.proto.getDropbox p = some ⟨some m⟩) (hmoved : movedOfMsg m = some moved) :
      PortMatches s p (.settled (c.putAnswer moved))
  | served {c : PortCall D} {ph : Phase} {out : Option (Datum D)} {v : Datum D} {moved : Bool}
      (hcall : s.calls p = some ⟨c, ph, out⟩) (hput : c.datum = some v)
      (hwait : s.callState p = .waiting) (hready : s.proto.w.active.ready.test p = false)
      (hmsg : s.proto.getDropbox p = some ⟨none⟩)
      (hto : ∀ g x, s.calls g = some x → s.Serving p g → x.call.wantsData = moved) :
      PortMatches s p (.settled (c.putAnswer moved))
  | called {c : PortCall D} {ph : Phase} {q : LocId} {kind : SourceKind} {sp : PutterSpace D}
      {r : Option (Datum D)} (hcall : s.calls p = some ⟨c, ph, none⟩)
      (htold : s.proto.told q p = true) (hfrom : Handing s.proto q kind sp)
      (hway : Underway s.proto.heap sp c.wantsData (.entry sp.typeInfo.isCopy c.wantsData) none r) :
      PortMatches s p (.settled (.got r))
  | acquiring {c : PortCall D} {q : LocId} {pc : AcquirePc} {kind : SourceKind}
      {sp : PutterSpace D} {out r : Option (Datum D)}
      (hcall : s.calls p = some ⟨c, .acquiring q pc, out⟩) (hfrom : Handing s.proto q kind sp)
      (hway : Underway s.proto.heap sp c.wantsData pc out r) : PortMatches s p (.settled (.got r))
  | finished {c : PortCall D} {ph : Phase} {q : LocId} {out : Option (Datum D)}
      (hcall : s.calls p = some ⟨c, ph, out⟩)
      (hph : ph = .finalizing q ∨ ph = .acquiring q .returned) :
      PortMatches s p (.settled (.got out))

structure Matches (s : Ports D) (A : Automaton D) : Prop where
  cells : ∀ l, A.cells l = s.proto.atRest l
  ports : ∀ p, PortMatches s p (A.ports p)
  unshared : s.proto.Unshared
  timed : ∀ p c out, s.calls p = some ⟨c, .expired, out⟩ → c.timed = true

section

variable {s t : Ports D} {owed : LocId → Nat} {A : Automaton D} {p q g l : LocId}
  {kind : SourceKind} {sp : PutterSpace D} {x : PortState D}

/-! ## Who serves whom -/

theorem serving_congr (htold : t.proto.told q g = s.proto.told q g)
    (hcall : t.calls g = s.calls g) : t.Serving q g ↔ s.Serving q g := by
  rw [Serving, Serving, pends, pends, htold, acquiringAt_congr hcall, acquiringAt_congr hcall]

/-- A source that serves a getter has been fired and is not done. -/
theorem Kept.served (h : Kept s owed) (hsound : Sound (s.coordination owed))
    (hfrom : Handing s.proto q kind sp) (hg : s.Serving q g) :
    owed q = 1 ∧ s.proto.w.active.ready.test q = false ∧
      (kind = .port → s.callState q = .waiting ∧ s.proto.getDropbox q = some ⟨none⟩) := by
  have howed := h.owed_of_serving hfrom hg
  rcases hsound.owed_cases (p := q) howed with ⟨hone, hready, hport | hcell⟩ | hnone
  · refine ⟨hone, hready, fun _ => ?_⟩
    obtain ⟨sp', b, hsp, hcall, hbox, -⟩ := hport
    obtain ⟨slot⟩ := b
    cases hbox
    have hsp : s.proto.getSpace q = some (.poPu sp' ⟨none⟩) := hsp
    exact ⟨hcall, getDropbox_eq hsp⟩
  · refine ⟨hone, hready, fun hk => ?_⟩
    obtain ⟨sp', hsp, -⟩ := hcell
    have hsp : s.proto.getSpace q = some (.memo sp') := hsp
    rcases hfrom.cases with ⟨-, b, hb⟩ | ⟨hmem, -⟩
    · cases hsp.symm.trans hb
    · cases hk.symm.trans hmem
  · obtain ⟨space, hspace, hsource⟩ := hfrom
    rcases hnone with hnone | hnone
    · cases hspace.symm.trans hnone
    · cases hspace.symm.trans hnone
      cases hsource

/-- The pointer of a source is its own. -/
theorem Handing.ptr_ne (hsound : Sound (s.coordination owed)) (hfrom : Handing s.proto q kind sp)
    (hqp : q ≠ p) : sp.ptr ≠ .stack p := by
  intro hptr
  rcases hfrom.cases with ⟨-, b, hb⟩ | ⟨-, hmem⟩
  · rcases (hsound.putter (l := q) hb).2.1 with h | h
    · rw [hptr] at h
      cases h
    · rw [hptr] at h
      exact hqp (Ptr.stack.inj h).symm
  · have hheld : s.proto.held q = some sp.ptr :=
      held_of_memo hmem (by rw [hptr]; simp)
    obtain ⟨n, hn⟩ := hsound.coherent.isStore hheld
    cases hptr.symm.trans hn

/-- A getter with a source has a call on track there. -/
theorem PortMatches.source (h : PortMatches s g x) (hk : Kept s owed)
    (hsound : Sound (s.coordination owed)) (hg : s.Serving q g) :
    ∃ kind sp, Handing s.proto q kind sp ∧ (s.pends q g = true → sp.clonerCountdown = 1) := by
  have hboxed : s.proto.told q g = true → s.callState g = .waiting ∧
      s.proto.w.active.ready.test g = false ∧ s.proto.getDropbox g = some ⟨some q⟩ := by
    intro htold
    have hspace := told_eq_true.1 htold
    cases (hsound.getter (l := g) hspace).1 with
    | outside _ _ h₃ _ | pending _ _ h₃ _ | served _ _ h₃ _ => cases h₃
    | told h₁ h₂ _ _ => exact ⟨h₁, h₂, getDropbox_eq hspace⟩
  -- unless it has a message, the getter is in `acquire_data`
  have hcases : s.proto.told q g = true ∨ ∃ which : AcquirePc → Bool,
      which .returned = false ∧ s.acquiringAt which q g = true := by
    rcases hg with hg | hg
    · rcases Bool.or_eq_true_iff.1 hg with hg | hg
      · exact .inl hg
      · exact .inr ⟨_, rfl, hg⟩
    · exact .inr ⟨_, rfl, hg⟩
  have hbusy : ∀ {c : PortCall D} {v : Datum D} {ph : Phase} {out : Option (Datum D)},
      s.calls g = some ⟨c, ph, out⟩ → c.datum = some v → False := by
    intro c v ph out hcall hput
    rcases hcases with htold | ⟨which, hret, hat⟩
    · obtain ⟨sp, b, hsp⟩ := (hk.fits g _ hcall).isPutter hput
      cases (told_eq_true.1 htold).symm.trans hsp
    · cases hk.fits g _ hcall with
      | putter _ _ hphase =>
          rw [acquiringAt_of_call hcall, Phase.isAt_of_callState hphase] at hat
          cases hat
      | getter hget _ _ => cases hput.symm.trans hget
  cases h with
  | idle hcall =>
      rcases hcases with htold | ⟨which, -, hat⟩
      · have hwait := (hboxed htold).1
        rw [callState, hcall] at hwait
        cases hwait
      · rw [acquiringAt_of_none hcall] at hat
        cases hat
  | pending hcall hwait _ =>
      rcases hcases with htold | ⟨which, -, hat⟩
      · obtain ⟨hcs, hready, -⟩ := hboxed htold
        rcases hwait with hent | hr
        · cases hcs.symm.trans hent
        · cases hready.symm.trans hr
      · have hidle : s.callState g = .idle := by
          by_contra hne
          rw [acquiringAt_of_busy hne] at hat
          cases hat
        rcases hwait with hent | hr
        · cases hidle.symm.trans hent
        · obtain ⟨b, hb⟩ : ∃ b, s.proto.getDropbox g = some b := by
            cases hk.fits g _ hcall with
            | putter _ hshape hphase =>
                exact absurd ((callState_of_call hcall).symm.trans hidle) hphase
            | getter hget _ _ =>
                obtain ⟨b, hb⟩ := (hk.fits g _ hcall).isGetter hget
                exact ⟨b, getDropbox_eq hb⟩
          have hcs := (hsound.dropbox (l := g) hb hr).2.1
          cases hidle.symm.trans hcs
  | told hcall hput _ _ => exact (hbusy hcall hput).elim
  | served hcall hput _ _ _ _ => exact (hbusy hcall hput).elim
  | @called c ph q' kind sp r hcall htold hfrom hway =>
      obtain rfl : q' = q := by
        rcases hcases with htold' | ⟨which, -, hat⟩
        · cases (told_eq_true.1 htold).symm.trans (told_eq_true.1 htold')
          rfl
        · have hcs : s.callState g ≠ .idle := by
            have hspace := told_eq_true.1 htold
            cases (hsound.getter (l := g) hspace).1 with
            | outside _ _ h₃ _ | pending _ _ h₃ _ | served _ _ h₃ _ => cases h₃
            | told h₁ _ _ _ =>
                have h₁ : s.callState g = .waiting := h₁
                rw [h₁]
                simp
          rw [acquiringAt_of_busy hcs] at hat
          cases hat
      exact ⟨kind, sp, hfrom, fun _ => hway.track.countdown (AcquirePc.pending_entry _ _)⟩
  | @acquiring c q' pc kind sp out r hcall hfrom hway =>
      have hidle : s.callState g = .idle := callState_of_call hcall
      rcases hcases with htold | ⟨which, -, hat⟩
      · cases hidle.symm.trans (hboxed htold).1
      · rw [acquiringAt_of_call hcall, Phase.isAt, Bool.and_eq_true, beq_iff_eq] at hat
        obtain ⟨rfl, -⟩ := hat
        refine ⟨kind, sp, hfrom, fun hpends => hway.track.countdown ?_⟩
        rw [pends, told_of_acquiring hsound hidle, Bool.false_or, acquiringAt_self hcall] at hpends
        exact hpends
  | finished hcall hph =>
      have hidle : s.callState g = .idle := by
        rw [callState_of_call hcall]
        rcases hph with rfl | rfl <;> rfl
      rcases hcases with htold | ⟨which, hret, hat⟩
      · cases hidle.symm.trans (hboxed htold).1
      · rw [acquiringAt_of_call hcall] at hat
        rcases hph with rfl | rfl
        · cases hat
        · rw [Phase.isAt, hret, Bool.and_false] at hat
          cases hat

/-- The getters of different calls have different sources. -/
theorem Matches.serving_unique (h : Matches s A) (hk : Kept s owed)
    (hsound : Sound (s.coordination owed)) {g' : LocId} (hg : s.Serving q g)
    (hg' : s.Serving q g') : g' = g := by
  obtain ⟨kind, sp, hfrom, hcount⟩ := (h.ports g).source hk hsound hg
  have hone := (hk.served hsound hfrom hg).1
  exact hk.serving_unique (Nat.le_of_eq hone) hfrom hcount hg hg'

/-! ## Locations nothing happened to -/

theorem PortMatches.congr (h : PortMatches s l x) (hcall : t.calls l = s.calls l)
    (hspace : t.proto.getSpace l = s.proto.getSpace l)
    (hready : t.proto.w.active.ready.test l = s.proto.w.active.ready.test l)
    (hread : t.proto.heap.read (.stack l) = s.proto.heap.read (.stack l))
    (hsource : ∀ q kind sp, s.Serving q l → Handing s.proto q kind sp →
      Handing t.proto q kind sp ∧ t.proto.heap.read sp.ptr = s.proto.heap.read sp.ptr)
    (hto : ∀ g y, t.calls g = some y → t.Serving l g →
      ∃ z, s.calls g = some z ∧ z.call = y.call ∧ s.Serving l g) : PortMatches t l x := by
  have hcs : t.callState l = s.callState l := by rw [callState, callState, hcall]
  have hbox : t.proto.getDropbox l = s.proto.getDropbox l := by
    rw [getDropbox, getDropbox, hspace]
  cases h with
  | idle hidle => exact .idle (hcall.trans hidle)
  | pending hc hwait hdatum =>
      refine .pending (hcall.trans hc) ?_ ?_
      · rwa [hcs, hready]
      · rwa [hread]
  | told hc hput hmsg hmoved => exact .told (hcall.trans hc) hput (hbox.trans hmsg) hmoved
  | served hc hput hwait hr hmsg hs =>
      refine .served (hcall.trans hc) hput (hcs.trans hwait) (hready.trans hr) (hbox.trans hmsg) ?_
      intro g y hy hg
      obtain ⟨z, hz, hzy, hg'⟩ := hto g y hy hg
      rw [← hzy]
      exact hs g z hz hg'
  | called hc htold hfrom hway =>
      have hserving : s.Serving _ l := .inl (Bool.or_eq_true_iff.2 (.inl htold))
      obtain ⟨hfrom', hptr⟩ := hsource _ _ _ hserving hfrom
      exact .called (hcall.trans hc) ((told_congr hspace _).trans htold) hfrom' (hway.congr hptr)
  | @acquiring c q pc _ _ _ _ hc hfrom hway =>
      have hserving : s.Serving q l := by
        rcases hway.track.pending_or_lastOut with hpc | hpc
        · exact .inl (Bool.or_eq_true_iff.2 (.inr ((acquiringAt_self hc).trans hpc)))
        · exact .inr ((acquiringAt_self hc).trans hpc)
      obtain ⟨hfrom', hptr⟩ := hsource _ _ _ hserving hfrom
      exact .acquiring (hcall.trans hc) hfrom' (hway.congr hptr)
  | finished hc hph => exact .finished (hcall.trans hc) hph

/-- A cell nothing happened to. -/
theorem atRest_congr {s t : ProtoAll D} (hspace : t.getSpace l = s.getSpace l)
    (hready : t.w.active.ready.test l = s.w.active.ready.test l)
    (hread : ∀ r, s.held l = some r → t.heap.read r = s.heap.read r) : t.atRest l = s.atRest l := by
  rw [atRest, atRest, hready, held_congr (cell_congr hspace)]
  cases hheld : s.held l with
  | none => rfl
  | some r => rw [Option.bind_some, Option.bind_some, hread r hheld]

/-! ## Steps at one port -/

/-- A step of the call at the port `p` that changes nothing elsewhere, and
nothing that a getter of `p` could see. -/
theorem Matches.stepAt (h : Matches s A) (hsound : Sound (s.coordination owed)) (p : LocId)
    (hcalls : ∀ g, g ≠ p → t.calls g = s.calls g)
    (hspace : ∀ l, l ≠ p → t.proto.getSpace l = s.proto.getSpace l)
    (hready : ∀ l, l ≠ p → t.proto.w.active.ready.test l = s.proto.w.active.ready.test l)
    (hread : ∀ r, r ≠ .stack p → t.proto.heap.read r = s.proto.heap.read r)
    (hcell : ∀ sp, s.proto.getSpace p ≠ some (.memo sp))
    (hcell' : ∀ sp, t.proto.getSpace p ≠ some (.memo sp))
    (hserves : ∀ q y, t.calls p = some y → t.Serving q p →
      ∃ z, s.calls p = some z ∧ z.call = y.call ∧ s.Serving q p)
    (hserved : ∀ g kind sp, Handing s.proto p kind sp → s.Serving p g →
      t.proto.getSpace p = s.proto.getSpace p ∧
        t.proto.heap.read (.stack p) = s.proto.heap.read (.stack p))
    (hport : PortMatches t p x)
    (htimed : ∀ c out, t.calls p = some ⟨c, .expired, out⟩ → c.timed = true) :
    Matches t (A.setPort p x) := by
  have hnone : ∀ {u : ProtoAll D}, (∀ sp, u.getSpace p ≠ some (.memo sp)) → u.held p = none := by
    intro u hu
    cases hheld : u.held p with
    | none => rfl
    | some r =>
        obtain ⟨-, sp, hsp, -⟩ := held_memo_iff.1 hheld
        exact absurd hsp (hu sp)
  have hheld : ∀ l, t.proto.held l = s.proto.held l := by
    intro l
    by_cases hl : l = p
    · rw [hl, hnone hcell, hnone hcell']
    · exact held_congr (cell_congr (hspace l hl))
  refine ⟨fun l => ?_, fun l => ?_, fun l l' r hl hl' => ?_, fun l c out hc => ?_⟩
  · show A.cells l = _
    rw [h.cells]
    by_cases hl : l = p
    · rw [hl, atRest_of_held_none (hnone hcell), atRest_of_held_none (hnone hcell')]
    · refine (atRest_congr (hspace l hl) (hready l hl) fun r hr => hread r ?_).symm
      obtain ⟨n, rfl⟩ := hsound.coherent.isStore hr
      simp
  · by_cases hl : l = p
    · rw [hl, Automaton.setPort_self]
      exact hport
    · rw [Automaton.setPort_ne _ hl]
      refine (h.ports l).congr (hcalls l hl) (hspace l hl) (hready l hl)
        (hread _ fun heq => hl (Ptr.stack.inj heq)) ?_ ?_
      · intro q kind sp hserving hfrom
        by_cases hq : q = p
        · subst hq
          obtain ⟨hsame, hstack⟩ := hserved l kind sp hfrom hserving
          obtain ⟨space, hs, hsource⟩ := hfrom
          refine ⟨⟨space, hsame.trans hs, hsource⟩, ?_⟩
          by_cases hptr : sp.ptr = .stack q
          · rw [hptr, hstack]
          · exact hread _ hptr
        · have hne := Handing.ptr_ne hsound hfrom hq
          obtain ⟨space, hs, hsource⟩ := hfrom
          exact ⟨⟨space, (hspace q hq).trans hs, hsource⟩, hread _ hne⟩
      · intro g y hy hg
        by_cases hgp : g = p
        · subst hgp
          exact hserves l y hy hg
        · rw [serving_congr (told_congr (hspace g hgp) l) (hcalls g hgp)] at hg
          rw [hcalls g hgp] at hy
          exact ⟨y, hy, rfl, hg⟩
  · rw [hheld] at hl hl'
    exact h.unshared l l' r hl hl'
  · by_cases hl : l = p
    · subst hl
      exact htimed c out hc
    · rw [hcalls l hl] at hc
      exact h.timed l c out hc

/-! ## Where a call is, and what the automaton has -/

theorem PortMatches.of_idle (h : PortMatches s p x) (hidle : s.calls p = none) : x = .idle := by
  cases h with
  | idle _ => rfl
  | pending hc | told hc | served hc | called hc | acquiring hc | finished hc =>
      cases hidle.symm.trans hc

/-- A port with a message has been fired. -/
theorem boxed_of_told (hsound : Sound (s.coordination owed)) (htold : s.proto.told q p = true) :
    s.callState p = .waiting ∧ s.proto.w.active.ready.test p = false ∧
      s.proto.getDropbox p = some ⟨some q⟩ := by
  have hspace := told_eq_true.1 htold
  cases (hsound.getter (l := p) hspace).1 with
  | outside _ _ h₃ _ | pending _ _ h₃ _ | served _ _ h₃ _ => cases h₃
  | told h₁ h₂ _ _ => exact ⟨h₁, h₂, getDropbox_eq hspace⟩

/-- What the dropbox says of a port whose readiness is not spent. -/
theorem unboxed_of_fresh (hsound : Sound (s.coordination owed))
    (hwait : s.callState p = .entering ∨ s.proto.w.active.ready.test p = true) {b : MsgDropbox}
    (hb : s.proto.getDropbox p = some b) :
    b.slot = none ∧ (s.callState p = .entering ∨ s.callState p = .waiting ∧
      s.proto.w.active.ready.test p = true) := by
  cases hsound.ofDropbox (l := p) hb with
  | outside h₁ h₂ h₃ _ =>
      refine ⟨h₃, hwait.imp id fun hr => ?_⟩
      cases h₂.symm.trans hr
  | pending h₁ h₂ h₃ _ => exact ⟨h₃, .inr ⟨h₁, h₂⟩⟩
  | served h₁ h₂ _ _ | told h₁ h₂ _ _ =>
      have h₁ : s.callState p = .waiting := h₁
      rcases hwait with hent | hr
      · cases h₁.symm.trans hent
      · cases h₂.symm.trans hr

/-- A call whose readiness is not spent is pending. -/
theorem PortMatches.of_fresh (h : PortMatches s p x) (hsound : Sound (s.coordination owed))
    (hwait : s.callState p = .entering ∨ s.proto.w.active.ready.test p = true)
    {y : Active D} (hy : s.calls p = some y) {b : MsgDropbox}
    (hb : s.proto.getDropbox p = some b) : x = .pending y.call ∧ y.out = none ∧
      ∀ v, y.call.datum = some v → s.proto.heap.read (.stack p) = some v := by
  obtain ⟨hslot, hbusy⟩ := unboxed_of_fresh hsound hwait hb
  cases h with
  | idle hc => cases hy.symm.trans hc
  | pending hc _ hdatum =>
      cases hy.symm.trans hc
      exact ⟨rfl, rfl, hdatum⟩
  | told _ _ hmsg _ =>
      cases hb.symm.trans hmsg
      cases hslot
  | served _ _ hw hr _ _ =>
      rcases hwait with hent | hready
      · cases hw.symm.trans hent
      · cases hr.symm.trans hready
  | called _ htold _ _ =>
      cases hb.symm.trans (boxed_of_told hsound htold).2.2
      cases hslot
  | acquiring hc _ _ =>
      have hidle : s.callState p = .idle := callState_of_call hc
      rcases hbusy with hent | ⟨hw, -⟩
      · cases hidle.symm.trans hent
      · cases hidle.symm.trans hw
  | finished hc hph =>
      have hidle : s.callState p = .idle := by
        rw [callState_of_call hc]
        rcases hph with rfl | rfl <;> rfl
      rcases hbusy with hent | ⟨hw, -⟩
      · cases hidle.symm.trans hent
      · cases hidle.symm.trans hw

/-- What a call does between two steps of its hand-off does not matter. -/
theorem PortMatches.rephase (h : PortMatches s p x) {c : PortCall D} {ph ph' : Phase}
    {out : Option (Datum D)} (hproto : t.proto = s.proto)
    (hcalls : ∀ g, g ≠ p → t.calls g = s.calls g) (hcall : s.calls p = some ⟨c, ph, out⟩)
    (hcall' : t.calls p = some ⟨c, ph', out⟩) (hcs : ph'.callState = ph.callState)
    (hacq : ∀ q pc, ph = .acquiring q pc → ph' = ph)
    (hfin : ∀ q, ph = .finalizing q → ph' = .finalizing q ∨ ph' = .acquiring q .returned)
    (hserves : ∀ q, t.Serving q p → s.Serving q p) : PortMatches t p x := by
  have hstate : t.callState p = s.callState p := by
    rw [callState_of_call hcall, callState_of_call hcall', hcs]
  cases h with
  | idle hc => cases hcall.symm.trans hc
  | pending hc hwait hdatum =>
      cases hcall.symm.trans hc
      refine .pending hcall' ?_ ?_
      · rwa [hstate, hproto]
      · rwa [hproto]
  | told hc hput hmsg hmoved =>
      cases hcall.symm.trans hc
      exact .told hcall' hput (hproto ▸ hmsg) hmoved
  | served hc hput hwait hready hmsg hto =>
      cases hcall.symm.trans hc
      refine .served hcall' hput (hstate.trans hwait) (hproto ▸ hready) (hproto ▸ hmsg) ?_
      intro g y hy hg
      by_cases hgp : g = p
      · subst hgp
        cases hcall'.symm.trans hy
        have hold := hto g _ hcall (hserves g hg)
        exact hold
      · rw [serving_congr (by rw [hproto]) (hcalls g hgp)] at hg
        rw [hcalls g hgp] at hy
        exact hto g y hy hg
  | called hc htold hfrom hway =>
      cases hcall.symm.trans hc
      exact .called hcall' (hproto ▸ htold) (hproto ▸ hfrom) (hproto ▸ hway)
  | acquiring hc hfrom hway =>
      cases hcall.symm.trans hc
      rw [hacq _ _ rfl] at hcall'
      exact .acquiring hcall' (hproto ▸ hfrom) (hproto ▸ hway)
  | finished hc hph =>
      cases hcall.symm.trans hc
      rcases hph with rfl | rfl
      · exact .finished hcall' (hfin _ rfl)
      · rw [hacq _ _ rfl] at hcall'
        exact .finished hcall' (.inr rfl)

end

end Ports

end ReoRs
