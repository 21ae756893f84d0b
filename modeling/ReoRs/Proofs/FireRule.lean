import ReoRs.Proofs.Firing

/-!
# What a firing does

A rule's actions are performed one after the other, but they concern
different locations, so each finds its own as they were when the rule was
selected, and what it leaves is still there when the rule is done. `Fired`
says so for all actions at once; `fire_ok` is its loop.

Cells of different actions may hold the same slot. What keeps them apart is
that a slot is not freed, and so not given out again, while a cell holds it.
-/

namespace ReoRs

variable {D : Type}

open ProtoAll

namespace RunAction

def Mentions (a : RunAction) (l : LocId) : Prop := l = a.putter ∨ l ∈ a.mg ∨ l ∈ a.pg

def Apart (a b : RunAction) : Prop := ∀ l, ¬ (a.Mentions l ∧ b.Mentions l)

/-- The action has exactly one getter. -/
def Single (a : RunAction) : Prop := a.mg.length + a.pg.length = 1

end RunAction

namespace ProtoAll

/-- No slot is in two cells. -/
def Unshared (s : ProtoAll D) : Prop :=
  ∀ l l' q, s.held l = some q → s.held l' = some q → l = l'

end ProtoAll

/-- A slot in one cell only is counted once. -/
theorem Coherent.refs_eq_one {s : ProtoAll D} (hs : Coherent s) (hun : s.Unshared) {l : LocId}
    {q : Ptr} (hl : s.held l = some q) : s.w.active.memRefs.lookup q = some 1 := by
  obtain ⟨n, hn, -⟩ := hs.exists_refs hl
  obtain ⟨-, hcard⟩ := (hs.counted q n).1 hn
  have hone : Sharing.holders (Finset.range s.r.spaces.length) s.held q = {l} := by
    refine Finset.eq_singleton_iff_unique_mem.2 ⟨?_, fun l' hl' => ?_⟩
    · exact Sharing.mem_holders.2 ⟨Finset.mem_range.2 (lt_length_of_held hl), hl⟩
    · exact hun l' l q (Sharing.mem_holders.1 hl').2 hl
  rw [hone, Finset.card_singleton] at hcard
  rw [hn, hcard]

/-! ## One action -/

/-- What is left of an action when the rule is done. -/
structure Outcome (s : ProtoAll D) (a : RunAction) (kind : SourceKind) (sp : PutterSpace D)
    (v : Datum D) (disableMove : Bool) (t : ProtoAll D) : Prop where
  cells : ∀ g ∈ a.mg, ∃ gp dest w, s.getSpace g = some (.memo gp) ∧
    t.getSpace g = some (.memo { gp with ptr := dest }) ∧ dest ≠ .null ∧
    t.heap.read dest = some w ∧ (a.pg = [] ∨ kind = .memory → w = v)
  getters : ∀ g ∈ a.pg, t.getSpace g = some (.poGe ⟨some a.putter⟩)
  putter : t.getSpace a.putter = some (a.putterAfter kind sp disableMove)
  offered : a.pg ≠ [] → t.heap.read sp.ptr = some v

theorem ActionReady.held {s : ProtoAll D} {a : RunAction} {sp : PutterSpace D} {v : Datum D}
    (ha : ActionReady s a .memory sp v) : s.held a.putter = some sp.ptr :=
  held_of_memo ha.putter.1 ha.putter.2.1

section

variable {s t : ProtoAll D} {a : RunAction} {kind : SourceKind} {sp : PutterSpace D}
  {v : Datum D}

/-- Without sharing, a slot that has port getters to serve has no other
reference and gains none. -/
theorem ActionReady.refs (hs : Coherent s) (ha : ActionReady s a .memory sp v) (hne : a.pg ≠ [])
    (hun : s.Unshared) (hsingle : a.Single) :
    s.w.active.memRefs.lookup sp.ptr = some 1 ∧ a.mg = [] := by
  refine ⟨hs.refs_eq_one hun ha.held, List.eq_nil_of_length_eq_zero ?_⟩
  have hpos := List.length_pos_iff.2 hne
  rw [RunAction.Single] at hsingle
  omega

theorem Performed.outcome (hs : Coherent s) (ha : ActionReady s a kind sp v)
    (h : Performed s a kind sp v t) :
    ∃ d, Outcome s a kind sp v d t ∧ (kind = .port → d = false) ∧
      (a.pg ≠ [] → s.Unshared → a.Single → d = false) := by
  obtain ⟨d, hd, hport, hmem⟩ := h.putter
  refine ⟨d, ⟨?_, h.getters, hd, ?_⟩, hport, ?_⟩
  · intro g hg
    obtain ⟨dest, w, hdest, hread, hcells, hw, hwm, -⟩ := h.cells
    obtain ⟨gp, hgp, htg⟩ := hcells g hg
    exact ⟨gp, dest, w, hgp, htg, hdest, hread, fun hk => hk.elim hw fun hk => (hwm hk).1⟩
  · intro _
    rw [h.read sp.ptr, ha.value]
    cases kind with
    | port =>
        left
        rw [ha.putter.2]
        simp
    | memory => exact .inr ((hs.owned _).2 ⟨_, ha.held⟩)
  · intro hne hun hsingle
    cases kind with
    | port => exact hport rfl
    | memory =>
        obtain ⟨n, hn, -, rfl⟩ := hmem rfl
        obtain ⟨hone, hmg⟩ := ha.refs hs hne hun hsingle
        cases hn.symm.trans hone
        rw [hmg]
        rfl

/-- The slots cells hold after an action. -/
theorem Performed.held_cases (ha : ActionReady s a kind sp v) (h : Performed s a kind sp v t) :
    ∃ dest, (kind = .memory → dest = sp.ptr) ∧ (kind = .port → ∀ l, s.held l ≠ some dest) ∧
      ∀ l q, t.held l = some q → (l ∈ a.mg ∧ q = dest) ∨
        (s.held l = some q ∧ ¬ (l = a.putter ∧ kind = .memory ∧ a.pg = [])) := by
  obtain ⟨dest, w, hdest, -, hcells, -, hmem, hnew⟩ := h.cells
  refine ⟨dest, fun hk => (hmem hk).2, hnew, ?_⟩
  intro l q hl
  by_cases hmg : l ∈ a.mg
  · obtain ⟨gp, -, htg⟩ := hcells l hmg
    obtain ⟨-, p, hp, rfl⟩ := held_memo_iff.1 hl
    cases htg.symm.trans hp
    exact .inl ⟨hmg, rfl⟩
  right
  by_cases hpg : l ∈ a.pg
  · obtain ⟨-, p, hp, -⟩ := held_memo_iff.1 hl
    cases (h.getters l hpg).symm.trans hp
  by_cases hput : l = a.putter
  · subst hput
    obtain ⟨d, hd, -⟩ := h.putter
    obtain ⟨hq, p, hp, rfl⟩ := held_memo_iff.1 hl
    rw [hd] at hp
    cases kind with
    | port =>
        rw [RunAction.putterAfter] at hp
        split at hp <;> cases hp
    | memory =>
        rw [RunAction.putterAfter] at hp
        split at hp
        · cases hp
          exact absurd rfl hq
        · next hne =>
            cases hp
            refine ⟨ha.held, fun hcon => hne ?_⟩
            rw [hcon.2.2]
            rfl
  · rw [held_congr (cell_congr (h.others l hput hmg hpg))] at hl
    exact ⟨hl, fun hcon => hput hcon.1⟩

/-- With one getter, a slot is moved rather than shared. -/
theorem Performed.unshared (ha : ActionReady s a kind sp v) (h : Performed s a kind sp v t)
    (hun : s.Unshared) (hsingle : a.Single) : t.Unshared := by
  obtain ⟨dest, hmem, hnew, hcases⟩ := h.held_cases ha
  have hmg : ∀ l ∈ a.mg, a.mg = [l] ∧ a.pg = [] := by
    intro l hl
    have hpos := List.length_pos_of_mem hl
    rw [RunAction.Single] at hsingle
    obtain ⟨l', hl'⟩ := List.length_eq_one_iff.1 (show a.mg.length = 1 by omega)
    rw [hl', List.mem_singleton] at hl
    exact ⟨hl ▸ hl', List.eq_nil_of_length_eq_zero (by omega)⟩
  -- a cell that was filled shares with none that was not
  have hone : ∀ l l' q, l ∈ a.mg → q = dest → s.held l' = some q →
      ¬ (l' = a.putter ∧ kind = .memory ∧ a.pg = []) → False := by
    rintro l l' q hl rfl hl' hnot
    cases kind with
    | port => exact hnew rfl l' hl'
    | memory =>
        rw [hmem rfl] at hl'
        exact hnot ⟨hun l' a.putter _ hl' ha.held, rfl, (hmg l hl).2⟩
  intro l l' q hl hl'
  rcases hcases l q hl with ⟨hlmg, hq⟩ | ⟨hold, hnot⟩
  · rcases hcases l' q hl' with ⟨hlmg', -⟩ | ⟨hold', hnot'⟩
    · rw [(hmg l hlmg).1, List.mem_singleton] at hlmg'
      exact hlmg'.symm
    · exact absurd (hone l l' q hlmg hq hold' hnot') id
  · rcases hcases l' q hl' with ⟨hlmg', hq'⟩ | ⟨hold', -⟩
    · exact absurd (hone l' l q hlmg' hq' hold hnot) id
    · exact hun l l' q hold hold'

end

/-! ## All actions -/

/-- What performing the actions `acts` made of `s`. -/
structure Fired (s : ProtoAll D) (acts : List RunAction) (t : ProtoAll D) : Prop where
  coherent : Coherent t
  frame : Frame s t
  others : ∀ l, (∀ a ∈ acts, ¬ a.Mentions l) → t.getSpace l = s.getSpace l
  read : ∀ q, (∀ n, q ≠ .store n) ∨ (∃ l, s.held l = some q ∧ ∀ a ∈ acts, ¬ a.Mentions l) →
    t.heap.read q = s.heap.read q
  each : ∀ a ∈ acts, ∃ kind sp v d, ActionReady s a kind sp v ∧ Outcome s a kind sp v d t ∧
    (kind = .port → d = false) ∧
    (a.pg ≠ [] → s.Unshared → (∀ b ∈ acts, b.Single) → d = false)
  ready : ∀ l, t.w.active.ready.test l = true ↔ s.w.active.ready.test l = true ∨
    ∃ a ∈ acts, l ∈ a.mg ∨ l = a.putter ∧ a.pg = [] ∧ ∃ p, s.getSpace l = some (.memo p)
  unshared : s.Unshared → (∀ a ∈ acts, a.Single) → t.Unshared
  dropped : (∀ a ∈ acts, a.mg ≠ [] ∨ a.pg ≠ []) → t.heap.dropped = s.heap.dropped

theorem Fired.nil {s : ProtoAll D} (hs : Coherent s) : Fired s [] s where
  coherent := hs
  frame := .refl s
  others := fun _ _ => rfl
  read := fun _ _ => rfl
  each := fun a ha => absurd ha List.not_mem_nil
  ready := by simp
  unshared := fun h _ => h
  dropped := fun _ => rfl

section

variable {s t u : ProtoAll D} {done : List RunAction} {a : RunAction} {kind : SourceKind}
  {sp : PutterSpace D} {v : Datum D}

/-- An action of its own locations is as ready as it was. -/
theorem ActionReady.later (ha : ActionReady s a kind sp v) (hf : Fired s done t)
    (hapart : ∀ b ∈ done, b.Apart a) : ActionReady t a kind sp v := by
  have hnot : ∀ l, a.Mentions l → ∀ b ∈ done, ¬ b.Mentions l :=
    fun l hl b hb hbl => hapart b hb l ⟨hbl, hl⟩
  have hsame : ∀ l, a.Mentions l → t.getSpace l = s.getSpace l :=
    fun l hl => hf.others l (hnot l hl)
  have hput := hsame a.putter (.inl rfl)
  have hval : t.heap.read sp.ptr = some v := by
    rw [hf.read, ha.value]
    cases kind with
    | port =>
        left
        rw [ha.putter.2]
        simp
    | memory => exact .inr ⟨a.putter, ha.held, hnot _ (.inl rfl)⟩
  refine ⟨?_, hval, ha.nodupCells, ha.putterNotCell, ?_, ha.nodupGetters, ?_, ha.clone⟩
  · have hsp := ha.putter
    cases kind with
    | port => exact ⟨hput.trans hsp.1, hsp.2⟩
    | memory =>
        refine ⟨hput.trans hsp.1, hsp.2.1, Bool.eq_false_iff.2 fun hready => ?_⟩
        rcases (hf.ready a.putter).1 hready with hready | ⟨b, hb, hbl⟩
        · exact absurd hready (Bool.eq_false_iff.1 hsp.2.2)
        · refine hnot a.putter (.inl rfl) b hb ?_
          exact hbl.elim (fun h => .inr (.inl h)) fun h => .inl h.1
  · intro g hg
    obtain ⟨p, hp, h⟩ := ha.cells g hg
    exact ⟨p, (hsame g (.inr (.inl hg))).trans hp, h⟩
  · exact fun g hg => (hsame g (.inr (.inr hg))).trans (ha.getters g hg)

/-- What an action left stays. -/
theorem Outcome.later {b : RunAction} {d : Bool} (h : Outcome s b kind sp v d t)
    (hb : ActionReady s b kind sp v) (ht : Coherent t) {kind' : SourceKind}
    {sp' : PutterSpace D} {v' : Datum D} (hperf : Performed t a kind' sp' v' u)
    (hapart : b.Apart a) : Outcome s b kind sp v d u := by
  have hnot : ∀ l, b.Mentions l → u.getSpace l = t.getSpace l := by
    intro l hl
    refine hperf.others l ?_ ?_ ?_
    · exact fun h => hapart l ⟨hl, .inl h⟩
    · exact fun h => hapart l ⟨hl, .inr (.inl h)⟩
    · exact fun h => hapart l ⟨hl, .inr (.inr h)⟩
  refine ⟨?_, ?_, (hnot _ (.inl rfl)).trans h.putter, ?_⟩
  · intro g hg
    obtain ⟨gp, dest, w, hgp, htg, hdest, hread, hw⟩ := h.cells g hg
    refine ⟨gp, dest, w, hgp, (hnot g (.inr (.inl hg))).trans htg, hdest, ?_, hw⟩
    have hheld : t.held g = some dest :=
      held_of_memo htg hdest
    rw [hperf.read dest (.inr ((ht.owned _).2 ⟨g, hheld⟩)), hread]
  · exact fun g hg => (hnot g (.inr (.inr hg))).trans (h.getters g hg)
  · intro hne
    rw [hperf.read sp.ptr, h.offered hne]
    cases kind with
    | port =>
        left
        rw [hb.putter.2]
        simp
    | memory =>
        have hspace := h.putter
        have hempty : b.pg.isEmpty = false := by
          cases hpg : b.pg with
          | nil => exact absurd hpg hne
          | cons g gs => rfl
        rw [RunAction.putterAfter, hempty] at hspace
        have hheld : t.held b.putter = some sp.ptr :=
          held_memo_iff.2 ⟨hb.putter.2.1, _, hspace, rfl⟩
        exact .inr ((ht.owned _).2 ⟨_, hheld⟩)

/-- One more action. -/
theorem Fired.snoc (hf : Fired s done t) (ha : ActionReady s a kind sp v)
    (hapart : ∀ b ∈ done, b.Apart a) (hperf : Performed t a kind sp v u) :
    Fired s (done ++ [a]) u := by
  have hat := ha.later hf hapart
  have hlast : ∀ {p : RunAction → Prop}, (∀ b ∈ done ++ [a], p b) → (∀ b ∈ done, p b) ∧ p a :=
    fun h => ⟨fun b hb => h b (List.mem_append_left _ hb), h a (by simp)⟩
  refine ⟨hperf.coherent, hf.frame.trans hperf.frame, ?_, ?_, ?_, ?_, ?_, ?_⟩
  · intro l hl
    obtain ⟨hdone, hlast⟩ := hlast hl
    simp only [RunAction.Mentions, not_or] at hlast
    rw [hperf.others l hlast.1 hlast.2.1 hlast.2.2, hf.others l hdone]
  · intro q hq
    have hq' : (∀ n, q ≠ .store n) ∨ ∃ l, s.held l = some q ∧ ∀ b ∈ done, ¬ b.Mentions l :=
      hq.imp id fun ⟨l, hl, hnot⟩ => ⟨l, hl, (hlast hnot).1⟩
    rw [hperf.read q ?_, hf.read q hq']
    refine hq'.imp id fun ⟨l, hl, hnot⟩ => (hf.coherent.owned q).2 ⟨l, ?_⟩
    rw [held_congr (cell_congr (hf.others l hnot)), hl]
  · intro b hb
    rcases List.mem_append.1 hb with hb | hb
    · obtain ⟨k, p, w, d, hbs, hout, hport, hmem⟩ := hf.each b hb
      refine ⟨k, p, w, d, hbs, hout.later hbs hf.coherent hperf (hapart b hb), hport, ?_⟩
      exact fun hne hun hall => hmem hne hun (hlast hall).1
    · obtain rfl := List.mem_singleton.1 hb
      obtain ⟨d, hout, hport, hmem⟩ := hperf.outcome hf.coherent hat
      have hsame : ∀ l, b.Mentions l → t.getSpace l = s.getSpace l :=
        fun l hl => hf.others l fun c hc hcl => hapart c hc l ⟨hcl, hl⟩
      refine ⟨kind, sp, v, d, ha, ⟨?_, hout.getters, hout.putter, hout.offered⟩, hport, ?_⟩
      · intro g hg
        obtain ⟨gp, dest, w, hgp, h⟩ := hout.cells g hg
        exact ⟨gp, dest, w, (hsame g (.inr (.inl hg))).symm.trans hgp, h⟩
      · exact fun hne hun hall => hmem hne (hf.unshared hun (hlast hall).1) (hlast hall).2
  · intro l
    rw [hperf.ready, Bool.or_eq_true, Bool.or_eq_true, decide_eq_true_iff, decide_eq_true_iff,
      hf.ready]
    have hmemo : l = a.putter → (kind = .memory ↔ ∃ p, s.getSpace l = some (.memo p)) := by
      rintro rfl
      have hsp := ha.putter
      cases kind with
      | port => simp [hsp.1]
      | memory => simp [hsp.1]
    constructor
    · rintro ((hg | ⟨hl, hk, hpg⟩) | hready | ⟨b, hb, hbl⟩)
      · exact .inr ⟨a, by simp, .inl hg⟩
      · exact .inr ⟨a, by simp, .inr ⟨hl, hpg, (hmemo hl).1 hk⟩⟩
      · exact .inl hready
      · exact .inr ⟨b, List.mem_append_left _ hb, hbl⟩
    · rintro (hready | ⟨b, hb, hbl⟩)
      · exact .inr (.inl hready)
      · rcases List.mem_append.1 hb with hb | hb
        · exact .inr (.inr ⟨b, hb, hbl⟩)
        · obtain rfl := List.mem_singleton.1 hb
          left
          exact hbl.imp id fun ⟨hl, hpg, hp⟩ => ⟨hl, (hmemo hl).2 hp, hpg⟩
  · intro hun hall
    exact hperf.unshared hat (hf.unshared hun (hlast hall).1) (hlast hall).2
  · intro hall
    rw [hperf.dropped (.inr (hlast hall).2), hf.dropped (hlast hall).1]

end

/-- Actions that are ready and apart are all performed. -/
theorem fire_ok {s : ProtoAll D} {rule : RunRule D} (hs : Coherent s)
    (hready : ∀ a ∈ rule.actions, ∃ kind sp v, ActionReady s a kind sp v)
    (hapart : rule.actions.Pairwise RunAction.Apart) :
    ∃ t, rule.fire.run s = .ok () t ∧ Fired s rule.actions t := by
  refine Effect.forEach_ok (I := Fired s) ?_ (Fired.nil hs)
  intro done a rest t hall hf
  rw [hall] at hready hapart
  obtain ⟨kind, sp, v, ha⟩ := hready a (by simp)
  have hdone : ∀ b ∈ done, b.Apart a :=
    fun b hb => (List.pairwise_append.1 hapart).2.2 b hb a List.mem_cons_self
  obtain ⟨u, hrun, hperf⟩ := performAction_ok hf.coherent (ha.later hf hdone)
  exact ⟨u, hrun, hf.snoc ha hdone hperf⟩

end ReoRs
