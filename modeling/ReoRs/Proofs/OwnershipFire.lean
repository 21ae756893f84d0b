import ReoRs.Proofs.OwnershipSteps

/-!
# What changes hands when a rule fires

A firing has two kinds of actions. Where the getter is a cell, the putter and
the cell change places in the accounts, and the putter is told so at once.
Where it is a port, nothing changes hands yet. The actions of a rule have no
location in common, so the changes of places can be made one after the other.
-/

namespace ReoRs

variable {D : Type}

open ProtoAll Coordination

namespace Ports

variable {P : Proto D} {infos : HashMap TypeId (TypeInfo D)} {s : Ports D}
  {owed : LocId → Nat} {A : Automaton D} {p q g l : LocId} {kind : SourceKind}
  {sp : PutterSpace D} {i : RuleId} {r : RuleDef} {run : RunRule D} {proto : ProtoAll D}
  {a : ActionDef} {v : Datum D}

/-- The actions with a cell for a getter, as pairs of locations. -/
def exchanges (actions : List RunAction) : List (LocId × LocId) :=
  actions.filterMap fun x => x.mg.head?.map (x.putter, ·)

theorem mem_exchanges {actions : List RunAction} :
    (p, g) ∈ exchanges actions ↔ ∃ x ∈ actions, x.putter = p ∧ x.mg.head? = some g := by
  rw [exchanges, List.mem_filterMap]
  constructor
  · rintro ⟨x, hx, heq⟩
    obtain ⟨g', hg', heq⟩ := Option.map_eq_some_iff.1 heq
    cases heq
    exact ⟨x, hx, rfl, hg'⟩
  · rintro ⟨x, hx, rfl, hg⟩
    exact ⟨x, hx, by rw [hg]; rfl⟩

theorem exchanges_apart {actions : List RunAction} (h : actions.Pairwise RunAction.Apart) :
    (exchanges actions).Pairwise fun x y =>
      x.1 ≠ y.1 ∧ x.1 ≠ y.2 ∧ x.2 ≠ y.1 ∧ x.2 ≠ y.2 := by
  rw [exchanges, List.pairwise_filterMap]
  refine h.imp fun {x y} hxy b hb c hc => ?_
  obtain ⟨gx, hgx, rfl⟩ := Option.map_eq_some_iff.1 hb
  obtain ⟨gy, hgy, rfl⟩ := Option.map_eq_some_iff.1 hc
  have hx : x.Mentions gx := .inr (.inl (List.mem_of_head? hgx))
  have hy : y.Mentions gy := .inr (.inl (List.mem_of_head? hgy))
  refine ⟨fun heq => ?_, fun heq => ?_, fun heq => ?_, fun heq => ?_⟩
  · exact hxy x.putter ⟨.inl rfl, .inl heq⟩
  · rw [← show x.putter = gy from heq] at hy
    exact hxy x.putter ⟨.inl rfl, hy⟩
  · exact hxy gx ⟨hx, .inl heq⟩
  · rw [← show gx = gy from heq] at hy
    exact hxy gx ⟨hx, hy⟩

section

variable (h : Matches s A) (hk : Kept s owed) (hsound : Sound (s.coordination owed))
  (hgen : Genuine P.typelessProtoDef.locKinds s.proto r.actions)
include h hk hsound hgen

/-- What a putter has to give is its own. -/
theorem owned_of_ready (ha : a ∈ r.actions) (hs : Standing P infos s.proto)
    (hready : ActionReady (s.proto.prepare run) (a.encode P.typelessProtoDef.locKinds) kind sp v) :
    s.owned a.putter = some v := by
  have hfresh := hgen.ready a.putter ⟨a, ha, .inl rfl⟩
  have hput := hready.putter
  cases kind with
  | port =>
      have hsp : s.proto.getSpace a.putter = some (.poPu sp ⟨none⟩) := hput.1
      obtain ⟨c, ph, hcall, -, hdatum⟩ := (h.offered hk hsound hgen ha hs hready).2 rfl
      have htaken : s.taken a.putter = false := not_taken_of_port hk hsound hsp fun hcon => by
        cases hfresh.symm.trans hcon.2.2
      have hbox : s.proto.getDropbox a.putter = some ⟨none⟩ := getDropbox_eq hsp
      rw [owned_of_put hcall hdatum, htaken, hbox, if_neg (by simp)]
  | memory =>
      have hsp : s.proto.getSpace a.putter = some (.memo sp) := hput.1
      have hnone : s.calls a.putter = none := by
        cases hc : s.calls a.putter with
        | none => rfl
        | some y => exact absurd hsp (hk.fits _ y hc).not_memo
      have hheld : s.proto.held a.putter = some sp.ptr :=
        held_of_memo hsp hput.2.1
      have htaken : s.taken a.putter = false := not_taken fun g hg =>
        hk.not_serving hsound ⟨_, hsp, rfl⟩ hfresh hg
      rw [owned_of_none hnone, htaken, hheld]
      exact hready.value

end

/-- A firing is no getter's step. -/
theorem taken_fired (hf : Fired (s.proto.prepare run) run.actions proto) (l : LocId) :
    taken { s with proto } l = s.taken l :=
  taken_congr (length_spaces_of_shapes hf.frame.shapes) fun _ => rfl

section Fire

variable (h : Matches s A) (hk : Kept s owed) (hsound : Sound (s.coordination owed))
  (henc : Encodes P.typelessProtoDef.locKinds r run)
  (hgen : Genuine P.typelessProtoDef.locKinds s.proto r.actions)
  (hf : Fired (s.proto.prepare run) run.actions proto) (hs : Standing P infos s.proto)
  (hone : OneGetter P) (hr : P.typelessProtoDef.behaviour.rules[i]? = some r)
include h hk hsound henc hgen hf hs hone hr

/-- A putter and the cell it gives to change places. -/
theorem exchanged (hpair : (p, g) ∈ exchanges run.actions) :
    owned { s with proto } p = s.owned g ∧ owned { s with proto } g = s.owned p := by
  obtain ⟨x, hx, hxp, hhead⟩ := mem_exchanges.1 hpair
  obtain ⟨a, ha, rfl⟩ := henc.mem_actions.1 hx
  obtain rfl : a.putter = p := hxp
  obtain ⟨kind, sp, v, d, hready, hout, -, -⟩ := hf.each _ hx
  obtain ⟨g', -, hone'⟩ := hone r (List.mem_of_getElem? hr) a ha
  have hmg := List.mem_of_head? hhead
  obtain ⟨hg, hmem⟩ := ActionDef.mem_mg.1 hmg
  obtain rfl := (mem_getters_iff hone').1 hg
  obtain ⟨hmgs, hpg⟩ := encode_of_cell hone' hmem
  obtain ⟨gp, dest, w, hwas, hcell, hdest, hread, hw⟩ := hout.cells g hmg
  have hwas : s.proto.getSpace g = some (.memo gp) := hwas
  rw [hw (.inl hpg)] at hread
  have hnoneg : s.calls g = none := by
    cases hc : s.calls g with
    | none => rfl
    | some y => exact absurd hwas (hk.fits g y hc).not_memo
  have htaken : s.taken g = false := not_taken fun g' hg' =>
    hk.not_serving hsound ⟨_, hwas, rfl⟩ (hgen.ready g ⟨a, ha, .inr hg⟩) hg'
  have hempty : s.owned g = none := by
    rw [owned_of_none hnoneg, hgen.empty a ha g hg hmem]
    exact ite_self none
  have hheld : proto.held g = some dest :=
    held_of_memo hcell hdest
  rw [hempty, owned_of_ready h hk hsound hgen ha hs hready]
  constructor
  · have hput := hout.putter
    have hwasp := hready.putter
    cases kind with
    | port =>
        obtain ⟨c, ph, hcall, -, hdatum⟩ := (h.offered hk hsound hgen ha hs hready).2 rfl
        rw [RunAction.putterAfter, hpg, hmgs] at hput
        have hput : proto.getSpace a.putter = some (.poPu sp ⟨some 1⟩) := hput
        have hbox : proto.getDropbox a.putter = some ⟨some 1⟩ := getDropbox_eq hput
        exact (owned_of_put (s := { s with proto }) hcall hdatum).trans (if_pos (.inr hbox))
    | memory =>
        rw [RunAction.putterAfter, hpg] at hput
        have hsp : s.proto.getSpace a.putter = some (.memo sp) := hwasp.1
        have hput : proto.getSpace a.putter = some (.memo { sp with ptr := .null }) := hput
        have hnone : s.calls a.putter = none := by
          cases hc : s.calls a.putter with
          | none => rfl
          | some y => exact absurd hsp (hk.fits _ y hc).not_memo
        have hheldp : proto.held a.putter = none := by
          rw [ProtoAll.held, cell, getMePu, hput]
          rfl
        rw [owned_of_none (s := { s with proto }) hnone]
        show (if _ then none else (proto.held a.putter).bind _) = _
        rw [hheldp]
        exact ite_self none
  · rw [owned_of_none (s := { s with proto }) hnoneg,
      taken_fired hf, htaken]
    show (proto.held g).bind proto.heap.read = some v
    rw [hheld]
    exact hread

/-- Everything else stays where it is. -/
theorem not_exchanged (hnot : ∀ x ∈ exchanges run.actions, l ≠ x.1 ∧ l ≠ x.2) :
    owned { s with proto } l = s.owned l := by
  have htaken := taken_fired hf l
  by_cases hinv : involved r.actions l
  · obtain ⟨a, ha, hal⟩ := hinv
    have hx := henc.mem_actions.2 ⟨a, ha, rfl⟩
    obtain ⟨kind, sp, v, d, hready, hout, -, -⟩ := hf.each _ hx
    obtain ⟨g, -, hone'⟩ := hone r (List.mem_of_getElem? hr) a ha
    -- the getter is a port, or there is an exchange
    cases hmem : isMemLoc P.typelessProtoDef.locKinds g with
    | true =>
        obtain ⟨hmg, -⟩ := encode_of_cell hone' hmem
        obtain ⟨hp, hg⟩ := hnot (a.putter, g) (mem_exchanges.2 ⟨_, hx, rfl, by rw [hmg]; rfl⟩)
        rcases hal with rfl | hal
        · exact absurd rfl hp
        · exact absurd ((mem_getters_iff hone').1 hal) hg
    | false =>
        obtain ⟨hmg, hpg⟩ := encode_of_port hone' hmem
        have hg := (mem_getters_iff hone').2 rfl
        have hgspace : s.proto.getSpace g = some (.poGe ⟨none⟩) :=
          hready.getters g (ActionDef.mem_pg.2 ⟨hg, hmem⟩)
        obtain ⟨c, ph, hcall, -, hget⟩ := h.asked hk hsound hgen ha hg hgspace
        rcases hal with rfl | hal
        · have hput := hout.putter
          have hwas := hready.putter
          cases kind with
          | port =>
              rw [RunAction.putterAfter, hpg] at hput
              have hput : proto.getSpace a.putter = some (.poPu (sp.beginHandOff 1 d) ⟨none⟩) := hput
              have hwas : s.proto.getSpace a.putter = some (.poPu sp ⟨none⟩) := hwas.1
              obtain ⟨c, ph, hcall, -, hdatum⟩ := (h.offered hk hsound hgen ha hs hready).2 rfl
              refine owned_congr rfl htaken (fun _ _ _ _ => ?_) fun hnone => ?_
              · show proto.getDropbox a.putter = _
                rw [getDropbox, getDropbox, hput, hwas]
                rfl
              · cases hcall.symm.trans hnone
          | memory =>
              rw [RunAction.putterAfter, hpg] at hput
              have hput : proto.getSpace a.putter = some (.memo (sp.beginHandOff 1 d)) := hput
              have hsp : s.proto.getSpace a.putter = some (.memo sp) := hwas.1
              refine owned_congr rfl htaken (fun x _ hx _ => ?_) fun _ => ?_
              · exact absurd hsp (hk.fits _ x hx).not_memo
              · have hheld : s.proto.held a.putter = some sp.ptr :=
                  held_of_memo hsp hwas.2.1
                have hheld' : proto.held a.putter = some sp.ptr :=
                  held_memo_iff.2 ⟨hwas.2.1, _, hput, rfl⟩
                have hread : proto.heap.read sp.ptr = some v := hout.offered (by rw [hpg]; simp)
                show (proto.held a.putter).bind proto.heap.read = _
                rw [hheld, hheld', Option.bind_some, Option.bind_some, hread]
                exact hready.value.symm
        · obtain rfl := (mem_getters_iff hone').1 hal
          rw [owned_of_get hcall hget, owned_of_get (s := { s with proto }) hcall hget]
  · have hspace : proto.getSpace l = s.proto.getSpace l :=
      hf.others l fun x hx hxl => hinv (henc.involved hx hxl)
    refine owned_congr rfl htaken (fun _ _ _ _ => ?_) fun _ => ?_
    · show proto.getDropbox l = _
      rw [getDropbox, getDropbox, hspace]
    · show (proto.held l).bind proto.heap.read = _
      rw [held_congr (cell_congr hspace)]
      cases hheld : s.proto.held l with
      | none => rfl
      | some q => exact hf.read q (.inr ⟨l, hheld, fun x hx hxl => hinv (henc.involved hx hxl)⟩)

/-- A firing. -/
theorem Balanced.fired : Balanced s (.fire p i) { s with proto } := by
  have hapart := henc.apart (hs.wellFormed r (List.mem_of_getElem? hr))
  have hlen : proto.r.spaces.length = s.proto.r.spaces.length :=
    length_spaces_of_shapes hf.frame.shapes
  have hlt : ∀ x ∈ exchanges run.actions, x.1 < s.proto.r.spaces.length ∧
      x.2 < s.proto.r.spaces.length := by
    rintro ⟨p, g⟩ hpair
    obtain ⟨x, hx, rfl, hhead⟩ := mem_exchanges.1 hpair
    obtain ⟨kind, sp, v, d, hready, hout, -, -⟩ := hf.each _ hx
    obtain ⟨space, hspace, -⟩ := source_of_putterReady hready.putter
    obtain ⟨gp, dest, w, hwas, -⟩ := hout.cells g (List.mem_of_head? hhead)
    exact ⟨(List.getElem?_eq_some_iff.1 hspace).1, (List.getElem?_eq_some_iff.1 hwas).1⟩
  have htotal : owners { s with proto } = s.owners := by
    show Holdings.total proto.r.spaces.length _ = _
    rw [hlen]
    refine Holdings.total_exchange (exchanges_apart hapart) (fun x hx => ?_) fun l hl => ?_
    · obtain ⟨hp, hg⟩ := exchanged h hk hsound henc hgen hf hs hone hr hx
      exact ⟨(hlt x hx).1, (hlt x hx).2, hp, hg⟩
    · exact not_exchanged h hk hsound henc hgen hf hs hone hr hl
  have hdropped : proto.heap.dropped = s.proto.heap.dropped := by
    refine hf.dropped fun x hx => ?_
    obtain ⟨a, ha, rfl⟩ := henc.mem_actions.1 hx
    obtain ⟨g, -, hone'⟩ := hone r (List.mem_of_getElem? hr) a ha
    cases hmem : isMemLoc P.typelessProtoDef.locKinds g with
    | true => exact .inl (by rw [(encode_of_cell hone' hmem).1]; simp)
    | false => exact .inr (by rw [(encode_of_port hone' hmem).2]; simp)
  rw [Balanced, htotal]
  show s.owners + 0 + s.dropped + s.proto.heap.dropped =
    s.owners + 0 + s.dropped + (proto.heap.dropped : Multiset (Datum D))
  rw [hdropped]

end Fire

end Ports

end ReoRs
