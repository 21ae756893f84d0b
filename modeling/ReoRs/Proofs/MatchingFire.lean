import ReoRs.Proofs.MatchingSteps

/-!
# A firing, all at once

The runtime performs a rule's actions one after the other and leaves the
getters to fetch their values in their own time; the automaton has every value
at its end already. With one getter to every action the two agree: the value
goes to a cell and the putter is told so, or a getter is called, which will
find it behind the putter's pointer.
-/

namespace ReoRs

variable {D : Type}

open ProtoAll Coordination

/-- Every action has one getter, which is not its putter. -/
def OneGetter (P : Proto D) : Prop :=
  ∀ r ∈ P.typelessProtoDef.behaviour.rules, ∀ a ∈ r.actions,
    ∃ g, g ≠ a.putter ∧ a.getters.eraseDups = [g]

section

variable {P : Proto D} {a : ActionDef} {g l : LocId} {locKinds : HashMap LocId LocKind}

theorem mem_getters_iff (h : a.getters.eraseDups = [g]) : l ∈ a.getters ↔ l = g := by
  rw [← List.mem_eraseDups, h, List.mem_singleton]

theorem OneGetter.noSelfPut (h : OneGetter P) : NoSelfPut P := by
  intro r hr a ha hmem
  obtain ⟨g, hne, hg⟩ := h r hr a ha
  exact hne ((mem_getters_iff hg).1 hmem).symm

theorem OneGetter.fanOutClones (h : OneGetter P) : FanOutClones P := by
  intro r hr a ha htwo
  obtain ⟨g, -, hg⟩ := h r hr a ha
  rw [hg] at htwo
  exact absurd htwo (by simp)

theorem encode_of_cell (h : a.getters.eraseDups = [g]) (hmem : isMemLoc locKinds g = true) :
    (a.encode locKinds).mg = [g] ∧ (a.encode locKinds).pg = [] := by
  rw [ActionDef.encode, h, encodeAction]
  simp [hmem]

theorem encode_of_port (h : a.getters.eraseDups = [g]) (hmem : isMemLoc locKinds g = false) :
    (a.encode locKinds).mg = [] ∧ (a.encode locKinds).pg = [g] := by
  rw [ActionDef.encode, h, encodeAction]
  simp [hmem]

theorem encode_single (h : a.getters.eraseDups = [g]) : (a.encode locKinds).Single := by
  cases hmem : isMemLoc locKinds g with
  | true =>
      obtain ⟨hmg, hpg⟩ := encode_of_cell h hmem
      rw [RunAction.Single, hmg, hpg]
      rfl
  | false =>
      obtain ⟨hmg, hpg⟩ := encode_of_port h hmem
      rw [RunAction.Single, hmg, hpg]
      rfl

end

namespace Ports

variable {P : Proto D} {infos : HashMap TypeId (TypeInfo D)} {s t : Ports D}
  {owed : LocId → Nat} {A : Automaton D} {p q g l : LocId} {kind : SourceKind}
  {sp : PutterSpace D} {x : PortState D} {c : PortCall D} {ph : Phase} {out : Option (Datum D)}

/-- A ready port has its call pending. -/
theorem Matches.pendingAt (h : Matches s A) (hsound : Sound (s.coordination owed))
    {b : MsgDropbox} (hb : s.proto.getDropbox p = some b)
    (hready : s.proto.w.active.ready.test p = true) :
    ∃ c ph, s.calls p = some ⟨c, ph, none⟩ ∧ A.ports p = .pending c ∧
      ∀ v, c.datum = some v → s.proto.heap.read (.stack p) = some v := by
  have hwait : s.callState p = .waiting := (hsound.dropbox hb hready).2.1
  cases hcall : s.calls p with
  | none =>
      rw [callState, hcall] at hwait
      cases hwait
  | some y =>
      obtain ⟨c, ph, out⟩ := y
      obtain ⟨hx, rfl, hdatum⟩ := (h.ports p).of_fresh hsound (.inr hready) hcall hb
      exact ⟨c, ph, rfl, hx, hdatum⟩

/-- A location that is no cell has no value at rest. -/
theorem atRest_of_port {s : ProtoAll D} (hs : Standing P infos s)
    (hmem : isMemLoc P.typelessProtoDef.locKinds l = false) : s.atRest l = none := by
  refine atRest_of_held_none ?_
  cases hheld : s.held l with
  | none => rfl
  | some r =>
      obtain ⟨-, sp, hsp, -⟩ := held_memo_iff.1 hheld
      cases hmem.symm.trans (hs.shaped.isMemLoc_of_memo hsp)

/-- A ready source serves nobody. -/
theorem Kept.not_serving (hk : Kept s owed) (hsound : Sound (s.coordination owed))
    (hfrom : Handing s.proto q kind sp) (hready : s.proto.w.active.ready.test q = true) :
    ¬ s.Serving q g := by
  intro hg
  cases hready.symm.trans (hk.served hsound hfrom hg).2.1

section Fire

variable {i : RuleId} {r : RuleDef} {run : RunRule D} {proto : ProtoAll D} {a : ActionDef}
  {v : Datum D}

section

variable (h : Matches s A) (hk : Kept s owed) (hsound : Sound (s.coordination owed))
  (hgen : Genuine P.typelessProtoDef.locKinds s.proto r.actions) (ha : a ∈ r.actions)
include h hk hsound hgen ha

/-- What the automaton has at the putter of an action that is about to be
performed. -/
theorem Matches.offered (hs : Standing P infos s.proto)
    (hready : ActionReady (s.proto.prepare run) (a.encode P.typelessProtoDef.locKinds) kind sp v) :
    A.offered P.typelessProtoDef.locKinds a.putter = some v ∧
      (kind = .port → ∃ c ph, s.calls a.putter = some ⟨c, ph, none⟩ ∧
        A.ports a.putter = .pending c ∧ c.datum = some v) := by
  have hisready := hgen.ready a.putter ⟨a, ha, .inl rfl⟩
  have hput := hready.putter
  have hvalue : s.proto.heap.read sp.ptr = some v := hready.value
  cases kind with
  | port =>
      have hsp : s.proto.getSpace a.putter = some (.poPu sp ⟨none⟩) := hput.1
      have hptr : sp.ptr = .stack a.putter := hput.2
      have hb : s.proto.getDropbox a.putter = some ⟨none⟩ := getDropbox_eq hsp
      obtain ⟨c, ph, hcall, hx, hdatum⟩ := h.pendingAt hsound hb hisready
      have hv : c.datum = some v := by
        cases hk.fits _ _ hcall with
        | putter hput _ _ =>
            have hread := hdatum _ hput
            rw [hptr, hread] at hvalue
            exact hput.trans hvalue
        | getter _ hshape _ =>
            rw [hsp] at hshape
            cases hshape
      refine ⟨?_, fun _ => ⟨c, ph, hcall, hx, hv⟩⟩
      have hmem : isMemLoc P.typelessProtoDef.locKinds a.putter = false :=
        isMemLoc_of_lookup (hs.shaped.lookup_of_poPu hsp)
      rw [Automaton.offered, hmem, if_neg (by simp), hx]
      exact hv
  | memory =>
      have hsp : s.proto.getSpace a.putter = some (.memo sp) := hput.1
      have hheld : s.proto.held a.putter = some sp.ptr :=
        held_of_memo hsp hput.2.1
      refine ⟨?_, fun hk => by cases hk⟩
      rw [Automaton.offered, hs.shaped.isMemLoc_of_memo hsp, if_pos rfl, h.cells, atRest, hisready,
        if_pos rfl, hheld]
      exact hvalue

/-- What it has at a port getter. -/
theorem Matches.asked (hg : g ∈ a.getters)
    (hspace : s.proto.getSpace g = some (.poGe ⟨none⟩)) :
    ∃ c ph, s.calls g = some ⟨c, ph, none⟩ ∧ A.ports g = .pending c ∧ c.datum = none := by
  have hb : s.proto.getDropbox g = some ⟨none⟩ := getDropbox_eq hspace
  obtain ⟨c, ph, hcall, hx, -⟩ := h.pendingAt hsound hb (hgen.ready g ⟨a, ha, .inr hg⟩)
  refine ⟨c, ph, hcall, hx, ?_⟩
  cases hk.fits _ _ hcall with
  | putter _ hshape _ =>
      rw [hspace] at hshape
      cases hshape
  | getter hget _ _ => exact hget

end

section

variable (h : Matches s A) (hk : Kept s owed) (hsound : Sound (s.coordination owed))
  (henc : Encodes P.typelessProtoDef.locKinds r run)
  (hgen : Genuine P.typelessProtoDef.locKinds s.proto r.actions)
  (hf : Fired (s.proto.prepare run) run.actions proto)
include h hk hsound henc hgen hf

/-- A location the rule has nothing to do with. -/
theorem Matches.fired_other (hinv : ¬ involved r.actions l) : PortMatches { s with proto } l
    ((A.fire P.typelessProtoDef.locKinds r.actions).ports l) := by
  have hsame : ∀ l, ¬ involved r.actions l → proto.getSpace l = s.proto.getSpace l :=
    fun l hl => hf.others l fun x hx hxl => hl (henc.involved hx hxl)
  rw [Automaton.fire_ports_other fun b hb hbl => hinv ⟨b, hb, hbl⟩]
  refine (h.ports l).congr rfl (hsame l hinv)
    (ready_of_not_involved (s := s.coordination owed) henc hf hinv)
    (hf.read _ (.inl (by simp))) ?_ ?_
  · rintro q kind sp hserving hfrom
    have hq : ¬ involved r.actions q := fun hq =>
      hk.not_serving hsound hfrom (hgen.ready q hq) hserving
    obtain ⟨space, hspace, hsource⟩ := hfrom
    refine ⟨⟨space, (hsame q hq).trans hspace, hsource⟩, hf.read sp.ptr ?_⟩
    by_cases hstore : ∀ n, sp.ptr ≠ .store n
    · exact .inl hstore
    · right
      refine ⟨q, ?_, fun x hx hxq => hq (henc.involved hx hxq)⟩
      have hnull : sp.ptr ≠ .null := by
        intro hnull
        exact hstore fun n => by rw [hnull]; simp
      rcases Handing.cases ⟨space, hspace, hsource⟩ with ⟨-, b, hb⟩ | ⟨-, hmem⟩
      · rcases (hsound.putter (l := q) hb).2.1 with hptr | hptr
        · exact absurd hptr hnull
        · exact absurd (fun n => by rw [hptr]; simp) hstore
      · exact held_of_memo hmem hnull
  · intro g y hy hg
    refine ⟨y, hy, rfl, ?_⟩
    rcases hg with hg | hg
    · rcases Bool.or_eq_true_iff.1 hg with hg | hg
      · rcases (told_fired hsound henc hgen hf _ _).1 hg with hold | ⟨x, hx, hput, -⟩
        · exact .inl (Bool.or_eq_true_iff.2 (.inl hold))
        · exact absurd (henc.involved hx (.inl hput.symm)) hinv
      · exact .inl (Bool.or_eq_true_iff.2 (.inr hg))
    · exact .inr hg

variable (hs : Standing P infos s.proto)
include hs

/-- The automaton may fire the rule. -/
theorem Matches.enabled : A.Enabled P.typelessProtoDef.locKinds r.actions := by
  intro a ha
  have hx := henc.mem_actions.2 ⟨a, ha, rfl⟩
  obtain ⟨kind, sp, v, d, hready, -⟩ := hf.each _ hx
  refine ⟨?_, fun g hg => ?_⟩
  · rw [(h.offered hk hsound hgen ha hs hready).1]
    simp
  · rw [Automaton.Accepts]
    cases hmem : isMemLoc P.typelessProtoDef.locKinds g with
    | true =>
        rw [if_pos rfl, h.cells]
        exact atRest_of_held_none (hgen.empty a ha g hg hmem)
    | false =>
        rw [if_neg (by simp)]
        have hspace : s.proto.getSpace g = some (.poGe ⟨none⟩) :=
          hready.getters g (ActionDef.mem_pg.2 ⟨hg, hmem⟩)
        obtain ⟨c, ph, -, hx, hget⟩ := h.asked hk hsound hgen ha hg hspace
        exact ⟨c, hx, hget⟩

variable (hone : OneGetter P) (hr : P.typelessProtoDef.behaviour.rules[i]? = some r)
include hone hr

/-- The cells after the firing. -/
theorem Matches.fired_cells (hrule : s.proto.r.rules[i]? = some run) (l : LocId) :
    (A.fire P.typelessProtoDef.locKinds r.actions).cells l = proto.atRest l := by
  have hwf := hs.wellFormed r (List.mem_of_getElem? hr)
  have hapart := henc.apart hwf
  have hs' : Standing P infos proto := (hs.prepare hrule).frame hf.frame
  by_cases hinv : involved r.actions l
  · obtain ⟨a, ha, hal⟩ := hinv
    have hx := henc.mem_actions.2 ⟨a, ha, rfl⟩
    obtain ⟨kind, sp, v, d, hready, hout, -, -⟩ := hf.each _ hx
    have hnoself := hone.noSelfPut r (List.mem_of_getElem? hr)
    cases hmem : isMemLoc P.typelessProtoDef.locKinds l with
    | false =>
        rw [Automaton.fire_cells_port hmem, h.cells, atRest_of_port hs hmem,
          atRest_of_port hs' hmem]
    | true =>
        rcases hal with rfl | hg
        · -- the cell is left empty, or has a getter to wait for
          rw [Automaton.fire_cells_putter hmem ha rfl]
          · symm
            have hput := hout.putter
            have hsp : proto.getSpace a.putter =
              some ((a.encode P.typelessProtoDef.locKinds).putterAfter kind sp d) := hput
            obtain ⟨sp', hsp', -⟩ := hs'.shaped.isCell hmem
            cases kind with
            | port =>
                rw [RunAction.putterAfter] at hsp
                split at hsp <;> cases hsp.symm.trans hsp'
            | memory =>
                cases hpg : (a.encode P.typelessProtoDef.locKinds).pg with
                | nil =>
                    rw [RunAction.putterAfter, hpg] at hsp
                    refine atRest_of_held_none ?_
                    rw [held, cell, getMePu, hsp]
                    rfl
                | cons g gs =>
                    refine atRest_of_not_ready ?_
                    rw [Bool.eq_false_iff]
                    intro hcon
                    have hmentions : (a.encode P.typelessProtoDef.locKinds).Mentions a.putter :=
                      .inl rfl
                    rcases (ready_of_mentions (s := s.coordination owed) henc hapart hf hx
                      hmentions).1 hcon with hmg | ⟨-, hnil, -⟩
                    · exact hnoself a ha (ActionDef.mem_mg.1 hmg).1
                    · cases hpg.symm.trans hnil
          · intro b hb hg
            obtain rfl := hwf.eq_of_mentions ha hb (.inl rfl) (.inr hg)
            exact hnoself a ha hg
        · rw [Automaton.fire_cells_getter hmem ha hg fun b hb hbg =>
            (hwf.eq_of_mentions ha hb (.inr hg) (.inr hbg)).symm,
            (h.offered hk hsound hgen ha hs hready).1]
          have hmg := ActionDef.mem_mg.2 ⟨hg, hmem⟩
          obtain ⟨gp, dest, w, -, hcell, hdest, hread, hw⟩ := hout.cells l hmg
          obtain ⟨g, -, hone'⟩ := hone r (List.mem_of_getElem? hr) a ha
          obtain rfl := (mem_getters_iff hone').1 hg
          rw [hw (.inl (encode_of_cell hone' hmem).2)] at hread
          have hready' := (ready_of_mentions (s := s.coordination owed) henc hapart hf hx
            (.inr (.inl hmg))).2 (.inl hmg)
          have hheld : proto.held l = some dest :=
            held_of_memo hcell hdest
          rw [atRest, if_pos hready', hheld]
          exact hread.symm
  · rw [Automaton.fire_cells_other fun b hb hbl => hinv ⟨b, hb, hbl⟩, h.cells]
    refine (atRest_congr ?_ (ready_of_not_involved (s := s.coordination owed) henc hf hinv)
      fun r hr => ?_).symm
    · exact hf.others l fun x hx hxl => hinv (henc.involved hx hxl)
    · exact hf.read r (.inr ⟨l, hr, fun x hx hxl => hinv (henc.involved hx hxl)⟩)

/-- A port that puts: it has the message of a cell that was filled, or is to
hear from its getter. -/
theorem Matches.fired_putter (ha : a ∈ r.actions)
    (hmem : isMemLoc P.typelessProtoDef.locKinds a.putter = false) :
    PortMatches { s with proto } a.putter
      ((A.fire P.typelessProtoDef.locKinds r.actions).ports a.putter) := by
  have hwf := hs.wellFormed r (List.mem_of_getElem? hr)
  have hapart := henc.apart hwf
  have hx := henc.mem_actions.2 ⟨a, ha, rfl⟩
  obtain ⟨kind, sp, v, d, hready, hout, -, -⟩ := hf.each _ hx
  obtain ⟨g, -, hone'⟩ := hone r (List.mem_of_getElem? hr) a ha
  have hg := (mem_getters_iff hone').2 rfl
  cases kind with
  | memory =>
      have hsp : s.proto.getSpace a.putter = some (.memo sp) := hready.putter.1
      cases hmem.symm.trans (hs.shaped.isMemLoc_of_memo hsp)
  | port =>
      have hwas : s.proto.getSpace a.putter = some (.poPu sp ⟨none⟩) := hready.putter.1
      have hfresh := hgen.ready a.putter ⟨a, ha, .inl rfl⟩
      obtain ⟨c, ph, hcall, hpending, hput⟩ := (h.offered hk hsound hgen ha hs hready).2 rfl
      rw [Automaton.fire_ports_putter hpending ha rfl fun b hb hba =>
        (hwf.eq_of_mentions ha hb (.inl rfl) (.inl hba.symm)).symm]
      have hspace : proto.getSpace a.putter =
        some ((a.encode P.typelessProtoDef.locKinds).putterAfter .port sp d) := hout.putter
      have hany : ∀ b, A.takes P.typelessProtoDef.locKinds g = b →
          a.getters.any (A.takes P.typelessProtoDef.locKinds) = b := by
        rintro b rfl
        rw [Bool.eq_iff_iff, List.any_eq_true]
        refine ⟨fun ⟨l, hl, hlt⟩ => ?_, fun hlt => ⟨g, hg, hlt⟩⟩
        rwa [(mem_getters_iff hone').1 hl] at hlt
      cases hgm : isMemLoc P.typelessProtoDef.locKinds g with
      | true =>
          obtain ⟨hmg, hpg⟩ := encode_of_cell hone' hgm
          rw [RunAction.putterAfter, hpg, hmg] at hspace
          rw [hany true (by rw [Automaton.takes, hgm, Bool.true_or])]
          refine .told hcall hput (m := 1) ?_ rfl
          show proto.getDropbox a.putter = _
          rw [getDropbox, hspace]
          rfl
      | false =>
          obtain ⟨hmg, hpg⟩ := encode_of_port hone' hgm
          rw [RunAction.putterAfter, hpg] at hspace
          have hgspace : s.proto.getSpace g = some (.poGe ⟨none⟩) :=
            hready.getters g (ActionDef.mem_pg.2 ⟨hg, hgm⟩)
          obtain ⟨cg, phg, hcallg, hxg, -⟩ := h.asked hk hsound hgen ha hg hgspace
          rw [hany cg.wantsData (by rw [Automaton.takes, hgm, Bool.false_or, hxg])]
          have hb : s.proto.getDropbox a.putter = some ⟨none⟩ := getDropbox_eq hwas
          refine .served hcall hput (hsound.dropbox hb hfresh).2.1 ?_ ?_ fun g' y hy hg' => ?_
          · show proto.w.active.ready.test a.putter = false
            rw [Bool.eq_false_iff]
            intro hcon
            rcases (ready_of_mentions (s := s.coordination owed) henc hapart hf hx
              (l := a.putter) (.inl rfl)).1 hcon with hcm | ⟨-, hnil, -⟩
            · rw [hmg] at hcm
              cases hcm
            · cases hpg.symm.trans hnil
          · show proto.getDropbox a.putter = _
            rw [getDropbox, hspace]
            rfl
          · -- the only getter is the one just called
            have hfrom : Handing s.proto a.putter .port sp := ⟨_, hwas, rfl⟩
            have hnot := hk.not_serving (g := g') hsound hfrom hfresh
            have htold : proto.told a.putter g' = true := by
              rcases hg' with hg' | hg'
              · rcases Bool.or_eq_true_iff.1 hg' with hg' | hg'
                · exact hg'
                · exact absurd (.inl (Bool.or_eq_true_iff.2 (.inr hg'))) hnot
              · exact absurd (.inr hg') hnot
            rcases (told_fired hsound henc hgen hf _ _).1 htold with hold | ⟨x, hx', hput', hpg'⟩
            · exact absurd (.inl (Bool.or_eq_true_iff.2 (.inl hold))) hnot
            · obtain rfl := RunAction.eq_of_mentions hapart hx' hx (.inl hput'.symm) (.inl rfl)
              rw [hpg, List.mem_singleton] at hpg'
              subst hpg'
              cases hcallg.symm.trans hy
              rfl

/-- A port that gets: it is called, and its value waits for it. -/
theorem Matches.fired_getter (ha : a ∈ r.actions) (hg : g ∈ a.getters)
    (hmem : isMemLoc P.typelessProtoDef.locKinds g = false) (hun : s.proto.Unshared)
    (hsingle : ∀ x ∈ run.actions, x.Single) : PortMatches { s with proto } g
      ((A.fire P.typelessProtoDef.locKinds r.actions).ports g) := by
  have hwf := hs.wellFormed r (List.mem_of_getElem? hr)
  have hx := henc.mem_actions.2 ⟨a, ha, rfl⟩
  obtain ⟨kind, sp, v, d, hready, hout, -, hmove⟩ := hf.each _ hx
  obtain ⟨g', -, hone'⟩ := hone r (List.mem_of_getElem? hr) a ha
  obtain rfl := (mem_getters_iff hone').1 hg
  obtain ⟨hmg, hpg⟩ := encode_of_port hone' hmem
  have hne : (a.encode P.typelessProtoDef.locKinds).pg ≠ [] := by
    rw [hpg]
    simp
  obtain rfl := hmove hne hun hsingle
  have hin := ActionDef.mem_pg.2 ⟨hg, hmem⟩
  have hgspace : s.proto.getSpace g = some (.poGe ⟨none⟩) := hready.getters g hin
  obtain ⟨c, ph, hcall, hpending, -⟩ := h.asked hk hsound hgen ha hg hgspace
  have hnoself := hone.noSelfPut r (List.mem_of_getElem? hr)
  rw [Automaton.fire_ports_getter hpending ha hg, (h.offered hk hsound hgen ha hs hready).1]
  · have hspace : proto.getSpace a.putter =
      some ((a.encode P.typelessProtoDef.locKinds).putterAfter kind sp false) := hout.putter
    have hfrom : Handing proto a.putter kind (sp.beginHandOff 1 false) := by
      cases kind with
      | port | memory =>
          rw [RunAction.putterAfter, hpg] at hspace
          exact ⟨_, hspace, rfl⟩
    exact .called hcall (told_eq_true.2 (hout.getters g hin)) hfrom
      (.start (hout.offered hne) sp.typeInfo.isCopy c.wantsData)
  · rintro b hb rfl
    obtain rfl := hwf.eq_of_mentions ha hb (.inr hg) (.inl rfl)
    exact hnoself a ha hg
  · exact fun b hb hbg => (hwf.eq_of_mentions ha hb (.inr hg) (.inr hbg)).symm

/-- The automaton fires with the runtime. -/
theorem Matches.fired (hrule : s.proto.r.rules[i]? = some run) :
    Matches { s with proto } (A.fire P.typelessProtoDef.locKinds r.actions) := by
  have hsingle : ∀ x ∈ run.actions, x.Single := by
    intro x hx
    obtain ⟨a, ha, rfl⟩ := henc.mem_actions.1 hx
    obtain ⟨g, -, hg⟩ := hone r (List.mem_of_getElem? hr) a ha
    exact encode_single hg
  have hun : (s.proto.prepare run).Unshared := h.unshared
  refine ⟨fun l => h.fired_cells hk hsound henc hgen hf hs hone hr hrule l, fun l => ?_,
    hf.unshared hun hsingle, h.timed⟩
  by_cases hinv : involved r.actions l
  · cases hmem : isMemLoc P.typelessProtoDef.locKinds l with
    | true =>
        -- a cell makes no calls
        obtain ⟨sp, hsp, -⟩ := hs.shaped.isCell hmem
        have hnone : s.calls l = none := by
          cases hc : s.calls l with
          | none => rfl
          | some y => exact absurd hsp (hk.fits l y hc).not_memo
        rw [Automaton.fire_ports_idle ((h.ports l).of_idle hnone)]
        exact .idle hnone
    | false =>
        obtain ⟨a, ha, rfl | hg⟩ := hinv
        · exact h.fired_putter hk hsound henc hgen hf hs hone hr ha hmem
        · exact h.fired_getter hk hsound henc hgen hf hs hone hr ha hg hmem hun hsingle
  · exact h.fired_other hk hsound henc hgen hf hinv

end

end Fire

end Ports

end ReoRs
