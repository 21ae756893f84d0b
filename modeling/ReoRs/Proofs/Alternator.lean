import ReoRs.Proofs.Scripts
import ReoRs.Proto.Circuits

/-!
# The alternator

The alternator works in rounds. The first firing of a round takes a datum from
each putter, gives the getter the first and keeps the second; the other gives
the getter what was kept. `Alternates` is what that makes of the answers, said
firing by firing, and everything else is read off it: who hears what, in every
run, and that a test with matching numbers of calls cannot leave anyone
waiting. If the getter waits, a full cell would be given to it, and with an
empty one the putters are as far behind as it is.
-/

namespace ReoRs

variable {D : Type}

theorem alternator_rules {r : RuleDef} (hr : r ∈ alternatorDef.behaviour.rules) :
    r = ⟨.true, [⟨0, [2]⟩, ⟨1, [3]⟩]⟩ ∨ r = ⟨.true, [⟨3, [2]⟩]⟩ := by
  simpa [alternatorDef] using hr

theorem alternator_plain (info : TypeInfo D) : Ports.Plain (alternatorProto info) where
  pos := (by decide : 1 ≤ maxLocId alternatorDef)
  le := (by decide : maxLocId alternatorDef ≤ 63)
  uninitialized := .of_pairs (by show ∀ e ∈ alternatorDef.locKinds.pairs, _; decide)
  oneGetter := by
    intro r hr a ha
    rcases alternator_rules hr with rfl | rfl
    · simp only [List.mem_cons, List.not_mem_nil, or_false] at ha
      rcases ha with rfl | rfl
      · exact ⟨2, by decide, rfl⟩
      · exact ⟨3, by decide, rfl⟩
    · obtain rfl := List.mem_singleton.1 ha
      exact ⟨2, by decide, rfl⟩
  guards := by
    show ∀ r ∈ alternatorDef.behaviour.rules, _
    decide
  actions := by
    show ∀ r ∈ alternatorDef.behaviour.rules, _
    decide

theorem alternator_wellFormed (info : TypeInfo D) :
    ∀ r ∈ (alternatorProto info).typelessProtoDef.behaviour.rules,
      WellFormedRule alternatorDef.locKinds (alternatorProto info).typeAt r.actions := by
  intro r hr
  rcases alternator_rules hr with rfl | rfl
  · refine ⟨?_, ?_, by decide, ?_⟩
    · intro a ha
      simp only [List.mem_cons, List.not_mem_nil, or_false] at ha
      rcases ha with rfl | rfl <;> exact ⟨.portPutter, by decide, rfl⟩
    · intro a ha g hg
      simp only [List.mem_cons, List.not_mem_nil, or_false] at ha
      rcases ha with rfl | rfl
      · obtain rfl := List.mem_singleton.1 hg
        exact ⟨.portGetter, by decide, rfl, rfl⟩
      · obtain rfl := List.mem_singleton.1 hg
        exact ⟨.memUninitialized, by decide, rfl, rfl⟩
    · simp [ActionDef.mentions]
  · refine ⟨?_, ?_, by decide, List.pairwise_singleton _ _⟩
    · intro a ha
      obtain rfl := List.mem_singleton.1 ha
      exact ⟨.memUninitialized, by decide, rfl⟩
    · intro a ha g hg
      obtain rfl := List.mem_singleton.1 ha
      obtain rfl := List.mem_singleton.1 hg
      exact ⟨.portGetter, by decide, rfl, rfl⟩

theorem finish_alternator (info : TypeInfo D) (heap : Heap D) :
    ∃ s b, (finish (alternatorProto info)).run (.new heap) = .ok s b := by
  refine finish_of_unguarded (alternator_plain info).uninitialized (fun l k hl => ?_)
    (alternator_wellFormed info) (fun r hr => ?_) (.new heap)
  · have hall : ∀ e ∈ alternatorDef.locKinds.pairs, e.1 ≤ 3 := by decide
    exact ⟨info, if_pos (hall _ (mem_pairs.2 hl))⟩
  · rcases alternator_rules hr with rfl | rfl <;> rfl

theorem alternator_involvesPort (info : TypeInfo D) :
    ∀ r ∈ (alternatorProto info).typelessProtoDef.behaviour.rules, ∃ l, involved r.actions l ∧
      isMemLoc (alternatorProto info).typelessProtoDef.locKinds l = false := by
  intro r hr
  have hm₂ : isMemLoc alternatorDef.locKinds 2 = false := by decide
  rcases alternator_rules hr with rfl | rfl
  · exact ⟨2, ⟨⟨0, [2]⟩, by simp, .inr (List.mem_singleton_self 2)⟩, hm₂⟩
  · exact ⟨2, ⟨⟨3, [2]⟩, by simp, .inr (List.mem_singleton_self 2)⟩, hm₂⟩

/-- One thread for each port. -/
def alternatorThreads (xs ys gs : List (PortCall D)) : LocId → List (PortCall D)
  | 0 => xs
  | 1 => ys
  | 2 => gs
  | _ => []

/-! ## Rounds -/

/-- What the alternator has told the putters 0 and 1 and the getter 2, and
what is in its cell. It goes in rounds of two firings. -/
inductive Alternates : List (PortCall D × Answer D) → List (PortCall D × Answer D) →
    List (PortCall D × Answer D) → Option (Datum D) → Prop where
  | start : Alternates [] [] [] none
  | first {xs ys zs : List (PortCall D × Answer D)} {c d g : PortCall D} {v w : Datum D}
      (h : Alternates xs ys zs none) (hc : c.datum = some v) (hd : d.datum = some w) :
      Alternates (xs ++ [(c, c.putAnswer g.wantsData)]) (ys ++ [(d, d.putAnswer true)])
        (zs ++ [(g, .got (if g.wantsData then some v else none))]) (some w)
  | second {xs ys zs : List (PortCall D × Answer D)} {g : PortCall D} {w : Datum D}
      (h : Alternates xs ys zs (some w)) :
      Alternates xs ys (zs ++ [(g, .got (if g.wantsData then some w else none))]) none

section

variable {xs ys zs : List (PortCall D × Answer D)} {cell : Option (Datum D)}

/-- How far the ports are. -/
theorem Alternates.lengths (h : Alternates xs ys zs cell) : xs.length = ys.length ∧
    zs.length + cell.isSome.toNat = 2 * xs.length := by
  induction h with
  | start => exact ⟨rfl, rfl⟩
  | first _ _ _ ih =>
      obtain ⟨hxy, hz⟩ := ih
      simp only [List.length_append, List.length_singleton, Option.isSome_some,
        Option.isSome_none, Bool.toNat_true, Bool.toNat_false] at hz ⊢
      omega
  | second _ ih =>
      obtain ⟨hxy, hz⟩ := ih
      simp only [List.length_append, List.length_singleton, Option.isSome_some,
        Option.isSome_none, Bool.toNat_true, Bool.toNat_false] at hz ⊢
      omega

/-- What is kept for the next time is the last of the second putter. -/
theorem Alternates.kept {w : Datum D} (h : Alternates xs ys zs (some w)) :
    ∃ d a, ys[ys.length - 1]? = some (d, a) ∧ d.datum = some w := by
  cases h with
  | @first xs ys zs c d g v w h hc hd =>
      refine ⟨d, d.putAnswer true, ?_, hd⟩
      rw [List.length_append, List.length_singleton, Nat.add_sub_cancel,
        List.getElem?_concat_length]

/-- The second putter's data are always taken. -/
theorem Alternates.second_moved (h : Alternates xs ys zs cell) {c : PortCall D} {a : Answer D}
    (hc : (c, a) ∈ ys) : a = c.putAnswer true := by
  induction h with
  | start => cases hc
  | first _ _ _ ih =>
      rcases List.mem_append.1 hc with hc | hc
      · exact ih hc
      · cases List.mem_singleton.1 hc
        rfl
  | second _ ih => exact ih hc

/-- The first putter's `n`-th datum is taken if the getter's `2n`-th call wants
data. -/
theorem Alternates.first_answer (h : Alternates xs ys zs cell) {n : Nat} {c : PortCall D}
    {a : Answer D} (hc : xs[n]? = some (c, a)) :
    ∃ g b, zs[2 * n]? = some (g, b) ∧ a = c.putAnswer g.wantsData := by
  induction h with
  | start => cases hc
  | @first xs ys zs c' d g v w h _ _ ih =>
      obtain ⟨-, hlen⟩ := h.lengths
      rw [Option.isSome_none, Bool.toNat_false, Nat.add_zero] at hlen
      rcases getElem?_concat_cases hc with hold | ⟨rfl, heq⟩
      · obtain ⟨g', b, hg, ha⟩ := ih hold
        exact ⟨g', b, getElem?_of_initial (List.prefix_append _ _) hg, ha⟩
      · obtain ⟨rfl, rfl⟩ := Prod.mk.inj heq
        refine ⟨g, .got (if g.wantsData then some v else none), ?_, rfl⟩
        rw [← hlen, List.getElem?_concat_length]
  | second _ ih =>
      obtain ⟨g', b, hg, ha⟩ := ih hc
      exact ⟨g', b, getElem?_of_initial (List.prefix_append _ _) hg, ha⟩

/-- The getter's calls are answered with the data of the putters in turn. -/
theorem Alternates.getter_answer (h : Alternates xs ys zs cell) {n : Nat} {g : PortCall D}
    {a : Answer D} (hg : zs[n]? = some (g, a)) :
    ∃ c b v, (if n % 2 = 0 then xs else ys)[n / 2]? = some (c, b) ∧ c.datum = some v ∧
      a = .got (if g.wantsData then some v else none) := by
  induction h with
  | start => cases hg
  | @first xs ys zs c' d g' v w h hc hd ih =>
      obtain ⟨-, hlen⟩ := h.lengths
      rw [Option.isSome_none, Bool.toNat_false, Nat.add_zero] at hlen
      rcases getElem?_concat_cases hg with hold | ⟨rfl, heq⟩
      · obtain ⟨c, b, v, hput, hv, ha⟩ := ih hold
        refine ⟨c, b, v, getElem?_of_initial ?_ hput, hv, ha⟩
        split <;> exact List.prefix_append _ _
      · obtain ⟨rfl, rfl⟩ := Prod.mk.inj heq
        refine ⟨c', c'.putAnswer g.wantsData, v, ?_, hc, rfl⟩
        rw [if_pos (by omega), show zs.length / 2 = xs.length by omega, List.getElem?_concat_length]
  | @second xs ys zs g' w h ih =>
      obtain ⟨hxy, hlen⟩ := h.lengths
      rw [Option.isSome_some, Bool.toNat_true] at hlen
      rcases getElem?_concat_cases hg with hold | ⟨rfl, heq⟩
      · exact ih hold
      · obtain ⟨rfl, rfl⟩ := Prod.mk.inj heq
        obtain ⟨d, b, hlast, hd⟩ := h.kept
        refine ⟨d, b, w, ?_, hd, rfl⟩
        rw [if_neg (by omega), show zs.length / 2 = ys.length - 1 by omega]
        exact hlast

end

section

variable {A : Automaton D}

/-- The first firing of a round. -/
theorem alternator_first (h : A.Enabled alternatorDef.locKinds [⟨0, [2]⟩, ⟨1, [3]⟩]) :
    ∃ c d g v w, A.ports 0 = .pending c ∧ c.datum = some v ∧ A.ports 1 = .pending d ∧
      d.datum = some w ∧ A.ports 2 = .pending g ∧ A.cells 3 = none ∧
      (A.fire alternatorDef.locKinds [⟨0, [2]⟩, ⟨1, [3]⟩]).ports 0 =
        .settled (c.putAnswer g.wantsData) ∧
      (A.fire alternatorDef.locKinds [⟨0, [2]⟩, ⟨1, [3]⟩]).ports 1 = .settled (d.putAnswer true) ∧
      (A.fire alternatorDef.locKinds [⟨0, [2]⟩, ⟨1, [3]⟩]).ports 2 =
        .settled (.got (if g.wantsData then some v else none)) ∧
      (A.fire alternatorDef.locKinds [⟨0, [2]⟩, ⟨1, [3]⟩]).cells 3 = some w := by
  have h₀ : (⟨0, [2]⟩ : ActionDef) ∈ [(⟨0, [2]⟩ : ActionDef), ⟨1, [3]⟩] := by simp
  have h₁ : (⟨1, [3]⟩ : ActionDef) ∈ [(⟨0, [2]⟩ : ActionDef), ⟨1, [3]⟩] := by simp
  have hm₀ : isMemLoc alternatorDef.locKinds 0 = false := by decide
  have hm₁ : isMemLoc alternatorDef.locKinds 1 = false := by decide
  have hm₂ : isMemLoc alternatorDef.locKinds 2 = false := by decide
  have hm₃ : isMemLoc alternatorDef.locKinds 3 = true := by decide
  obtain ⟨c, v, hp₀, hc⟩ := Automaton.exists_of_offered hm₀ (h _ h₀).1
  obtain ⟨d, w, hp₁, hd⟩ := Automaton.exists_of_offered hm₁ (h _ h₁).1
  obtain ⟨g, hp₂, hg⟩ := (Automaton.accepts_port hm₂).1 ((h _ h₀).2 2 (by decide))
  have hcell := (Automaton.accepts_cell hm₃).1 ((h _ h₁).2 3 (by decide))
  refine ⟨c, d, g, v, w, hp₀, hc, hp₁, hd, hp₂, hcell, ?_, ?_, ?_, ?_⟩
  · rw [Automaton.fire_ports_putter hp₀ h₀ rfl (by simp)]
    simp [Automaton.takes, hm₂, hp₂]
  · rw [Automaton.fire_ports_putter hp₁ h₁ rfl (by simp)]
    simp [Automaton.takes, hm₃]
  · rw [Automaton.fire_ports_getter hp₂ h₀ (by simp) (by simp) (by simp),
      Automaton.offered_port hm₀ hp₀, hc]
  · rw [Automaton.fire_cells_getter hm₃ h₁ (by simp) (by simp),
      Automaton.offered_port hm₁ hp₁, hd]

/-- The second. -/
theorem alternator_second (h : A.Enabled alternatorDef.locKinds [⟨3, [2]⟩]) :
    ∃ g w, A.ports 2 = .pending g ∧ A.cells 3 = some w ∧
      (A.fire alternatorDef.locKinds [⟨3, [2]⟩]).ports 0 = A.ports 0 ∧
      (A.fire alternatorDef.locKinds [⟨3, [2]⟩]).ports 1 = A.ports 1 ∧
      (A.fire alternatorDef.locKinds [⟨3, [2]⟩]).ports 2 =
        .settled (.got (if g.wantsData then some w else none)) ∧
      (A.fire alternatorDef.locKinds [⟨3, [2]⟩]).cells 3 = none := by
  have h₀ : (⟨3, [2]⟩ : ActionDef) ∈ [(⟨3, [2]⟩ : ActionDef)] := by simp
  have hm₂ : isMemLoc alternatorDef.locKinds 2 = false := by decide
  have hm₃ : isMemLoc alternatorDef.locKinds 3 = true := by decide
  have hoffered := (h _ h₀).1
  rw [Automaton.offered_cell hm₃] at hoffered
  obtain ⟨w, hw⟩ := Option.ne_none_iff_exists'.1 hoffered
  obtain ⟨g, hp₂, hg⟩ := (Automaton.accepts_port hm₂).1 ((h _ h₀).2 2 (by decide))
  refine ⟨g, w, hp₂, hw, Automaton.fire_ports_other (by simp [ActionDef.mentions]),
    Automaton.fire_ports_other (by simp [ActionDef.mentions]), ?_, ?_⟩
  · rw [Automaton.fire_ports_getter hp₂ h₀ (by simp) (by simp) (by simp),
      Automaton.offered_cell hm₃, hw]
  · exact Automaton.fire_cells_putter hm₃ h₀ rfl (by simp)

/-- In every run of the alternator's automaton. -/
theorem alternates_of_reach (info : TypeInfo D) {h : List (Automaton.Act D)}
    (hrun : Run.Reach (Automaton.Step (alternatorProto info)) .start h A) :
    (∀ p, Automaton.Recorded p h (A.ports p)) ∧ Alternates (Automaton.settledAt 0 h A)
      (Automaton.settledAt 1 h A) (Automaton.settledAt 2 h A) (A.cells 3) := by
  refine Automaton.settled_of_reach (Q := fun S cells => Alternates (S 0) (S 1) (S 2) (cells 3))
    .start ?_ hrun
  intro A S i r hr henabled hS
  rcases alternator_rules (List.mem_of_getElem? hr) with rfl | rfl
  · obtain ⟨c, d, g, v, w, hp₀, hc, hp₁, hd, hp₂, hcell, hq₀, hq₁, hq₂, hcell'⟩ :=
      alternator_first henabled
    rw [hcell] at hS
    have hnext := hS.first (g := g) hc hd
    show Alternates (S 0 ++ Automaton.settles (A.ports 0) _)
      (S 1 ++ Automaton.settles (A.ports 1) _) (S 2 ++ Automaton.settles (A.ports 2) _) _
    rw [hp₀, hp₁, hp₂]
    exact hq₀ ▸ hq₁ ▸ hq₂ ▸ hcell' ▸ hnext
  · obtain ⟨g, w, hp₂, hcell, hq₀, hq₁, hq₂, hcell'⟩ := alternator_second henabled
    rw [hcell] at hS
    have hnext := hS.second (g := g)
    show Alternates (S 0 ++ Automaton.settles (A.ports 0) _)
      (S 1 ++ Automaton.settles (A.ports 1) _) (S 2 ++ Automaton.settles (A.ports 2) _) _
    rw [hp₂]
    rw [show Automaton.settles (A.ports 0) _ = [] from hq₀ ▸ Automaton.settles_self _,
      show Automaton.settles (A.ports 1) _ = [] from hq₁ ▸ Automaton.settles_self _,
      List.append_nil, List.append_nil]
    exact hq₂ ▸ hcell' ▸ hnext

end

/-- The answers of the alternator, in a history of what its ports saw: the
getter has the data of the two putters in turn, or signals for them; a putter
is told that its datum was moved, but for the first when only a signal was
asked for. Calls that timed out have had no part. -/
structure AlternatorAnswers (h : List (Automaton.Act D)) : Prop where
  getter : ∀ (n : Nat) (g : PortCall D) (a : Answer D),
    (Automaton.completed 2 h)[n]? = some (g, a) →
    ∃ c v, (Automaton.asked (n % 2) h)[n / 2]? = some c ∧ c.datum = some v ∧
      a = .got (if g.wantsData then some v else none)
  first : ∀ (n : Nat) (c : PortCall D) (a : Answer D),
    (Automaton.completed 0 h)[n]? = some (c, a) →
    ∃ g, (Automaton.asked 2 h)[2 * n]? = some g ∧ a = c.putAnswer g.wantsData
  second : ∀ (n : Nat) (c : PortCall D) (a : Answer D),
    (Automaton.completed 1 h)[n]? = some (c, a) → a = .moved

theorem alternatorAnswers_of_reach (info : TypeInfo D) {h : List (Automaton.Act D)}
    {A : Automaton D}
    (hrun : Run.Reach (Automaton.Step (alternatorProto info)) .start h A) :
    AlternatorAnswers h := by
  obtain ⟨hrec, halt⟩ := alternates_of_reach info hrun
  refine ⟨fun n g a hg => ?_, fun n c a hc => ?_, fun n c a hc => ?_⟩
  · obtain ⟨c, b, v, hput, hv, ha⟩ :=
      halt.getter_answer (getElem?_of_initial (Automaton.completed_prefix 2 h A) hg)
    refine ⟨c, v, ?_, hv, ha⟩
    rcases Nat.mod_two_eq_zero_or_one n with hn | hn
    · rw [if_pos hn] at hput
      rw [hn]
      exact (hrec 0).asked_of_settled hput
    · rw [if_neg (by omega)] at hput
      rw [hn]
      exact (hrec 1).asked_of_settled hput
  · obtain ⟨g, b, hg, ha⟩ :=
      halt.first_answer (getElem?_of_initial (Automaton.completed_prefix 0 h A) hc)
    exact ⟨g, (hrec 2).asked_of_settled hg, ha⟩
  · have hmem := List.mem_of_getElem? (getElem?_of_initial (Automaton.completed_prefix 1 h A) hc)
    rw [halt.second_moved hmem]
    cases c <;> rfl

namespace Ports

/-- Whoever calls the ports of the alternator, however they interleave, whatever
times out and whatever the type: the getter hears from the putters in turn. -/
theorem alternator_answers (info : TypeInfo D) {heap : Heap D} {b : Build D} {s₀ : ProtoAll D}
    (hfin : (finish (alternatorProto info)).run (.new heap) = .ok s₀ b) {h : List (Act D)}
    {t : Ports D} (hrun : Run.Reach (Step .actual) (start s₀) h t) :
    AlternatorAnswers (h.filterMap Act.observed) := by
  obtain ⟨_, _, A, hA, -⟩ := reach_tracked (alternator_plain info) hfin hrun
  exact alternatorAnswers_of_reach info hA

end Ports

/-- One round of numbers, to the end. -/
theorem alternator_answers_round : ∃ s b h t,
    (finish (alternatorProto cellInfo)).run (.new .empty) = .ok s b ∧
    Run.Reach (Ports.Step .actual) (.start s) h t ∧ Ports.Resting .actual t ∧
    AlternatorAnswers (h.filterMap Ports.Act.observed) := by
  obtain ⟨s, b, hfin⟩ := finish_alternator cellInfo .empty
  obtain ⟨h, t, hrun, hstuck⟩ := Threads.exists_stuck .actual
    (alternator_plain cellInfo) (alternator_involvesPort cellInfo) hfin
    (alternatorThreads [.put (.data 7)] [.putTimeout (.data 8)] [.get, .getSignal])
  have hrun := Threads.reach_ports hrun
  exact ⟨s, b, h, t.ports, hfin, hrun, Threads.resting_of_stuck hstuck,
    Ports.alternator_answers cellInfo hfin hrun⟩

/-! ## A test of the alternator -/

/-- What the threads of a test of the alternator call: as many puts at 0 as at
1, and as many gets or signals at 2 as both together, without timeouts. -/
structure AlternatorScript (xs ys gs : List (PortCall D)) : Prop where
  firsts : ∀ c ∈ xs, c.datum.isSome = true ∧ c.timed = false
  seconds : ∀ c ∈ ys, c.datum.isSome = true ∧ c.timed = false
  gets : ∀ c ∈ gs, c.datum = none ∧ c.timed = false
  same : ys.length = xs.length
  double : gs.length = 2 * xs.length

theorem AlternatorScript.wellKinded {xs ys gs : List (PortCall D)}
    (h : AlternatorScript xs ys gs) (info : TypeInfo D) :
    Threads.WellKinded (alternatorProto info) (alternatorThreads xs ys gs) := by
  have hlookup : ∀ p k, alternatorDef.locKinds.lookup p = some k →
      (alternatorProto info).typelessProtoDef.locKinds.lookup p = some k := fun _ _ h => h
  intro p c hc
  match p, hc with
  | 0, hc =>
      rw [(h.firsts c hc).1]
      exact hlookup 0 _ (by decide)
  | 1, hc =>
      rw [(h.seconds c hc).1]
      exact hlookup 1 _ (by decide)
  | 2, hc =>
      rw [(h.gets c hc).1]
      exact hlookup 2 .portGetter (by decide)
  | n + 3, hc => cases hc

theorem AlternatorScript.untimed {xs ys gs : List (PortCall D)} (h : AlternatorScript xs ys gs)
    (p : LocId) : ∀ c ∈ alternatorThreads xs ys gs p, c.timed = false := by
  intro c hc
  match p, hc with
  | 0, hc => exact (h.firsts c hc).2
  | 1, hc => exact (h.seconds c hc).2
  | 2, hc => exact (h.gets c hc).2
  | n + 3, hc => cases hc

/-- A round, with a get and a signal. -/
theorem alternatorScript_round (v w : Datum D) :
    AlternatorScript [.put v] [.put w] [PortCall.get, .getSignal] := by
  refine ⟨?_, ?_, ?_, rfl, rfl⟩ <;> simp [PortCall.datum, PortCall.timed]

section

variable {A : Automaton D}

/-- With all three ports pending a round begins. -/
theorem alternator_enabled_first {c d g : PortCall D} (hp₀ : A.ports 0 = .pending c)
    (hc : c.datum.isSome = true) (hp₁ : A.ports 1 = .pending d) (hd : d.datum.isSome = true)
    (hp₂ : A.ports 2 = .pending g) (hg : g.datum = none) (hcell : A.cells 3 = none) :
    A.Enabled alternatorDef.locKinds [⟨0, [2]⟩, ⟨1, [3]⟩] := by
  have hm₀ : isMemLoc alternatorDef.locKinds 0 = false := by decide
  have hm₁ : isMemLoc alternatorDef.locKinds 1 = false := by decide
  have hm₂ : isMemLoc alternatorDef.locKinds 2 = false := by decide
  have hm₃ : isMemLoc alternatorDef.locKinds 3 = true := by decide
  intro a ha
  simp only [List.mem_cons, List.not_mem_nil, or_false] at ha
  rcases ha with rfl | rfl
  · refine ⟨?_, fun l hl => ?_⟩
    · rw [Automaton.offered_port hm₀ hp₀]
      exact Option.isSome_iff_ne_none.1 hc
    · obtain rfl := List.mem_singleton.1 hl
      exact (Automaton.accepts_port hm₂).2 ⟨g, hp₂, hg⟩
  · refine ⟨?_, fun l hl => ?_⟩
    · rw [Automaton.offered_port hm₁ hp₁]
      exact Option.isSome_iff_ne_none.1 hd
    · obtain rfl := List.mem_singleton.1 hl
      exact (Automaton.accepts_cell hm₃).2 hcell

/-- With a full cell and the getter pending it ends. -/
theorem alternator_enabled_second {g : PortCall D} (hp₂ : A.ports 2 = .pending g)
    (hg : g.datum = none) (hcell : A.cells 3 ≠ none) :
    A.Enabled alternatorDef.locKinds [⟨3, [2]⟩] := by
  have hm₂ : isMemLoc alternatorDef.locKinds 2 = false := by decide
  have hm₃ : isMemLoc alternatorDef.locKinds 3 = true := by decide
  intro a ha
  obtain rfl := List.mem_singleton.1 ha
  refine ⟨?_, fun l hl => ?_⟩
  · rw [Automaton.offered_cell hm₃]
    exact hcell
  · obtain rfl := List.mem_singleton.1 hl
    exact (Automaton.accepts_port hm₂).2 ⟨g, hp₂, hg⟩

end

/-- What round `n` of the test came to. -/
def Round (xs ys gs : List (PortCall D)) (h : List (Automaton.Act D)) (n : Nat) : Prop :=
  ∃ c d g g' v w, xs[n]? = some c ∧ ys[n]? = some d ∧ gs[2 * n]? = some g ∧
    gs[2 * n + 1]? = some g' ∧ c.datum = some v ∧ d.datum = some w ∧
    (Automaton.completed 0 h)[n]? = some (c, c.putAnswer g.wantsData) ∧
    (Automaton.completed 1 h)[n]? = some (d, .moved) ∧
    (Automaton.completed 2 h)[2 * n]? = some (g, .got (if g.wantsData then some v else none)) ∧
    (Automaton.completed 2 h)[2 * n + 1]? =
      some (g', .got (if g'.wantsData then some w else none))

/-- The rounds of a history in which all calls of the scripts have returned. -/
theorem round_of_answers {xs ys gs : List (PortCall D)} (hscript : AlternatorScript xs ys gs)
    {h : List (Automaton.Act D)} (hanswers : AlternatorAnswers h)
    (hasked : ∀ p, Automaton.asked p h = alternatorThreads xs ys gs p)
    (hcompleted : ∀ p, (Automaton.completed p h).map Prod.fst = alternatorThreads xs ys gs p)
    {n : Nat} (hn : n < xs.length) : Round xs ys gs h n := by
  have hsame := hscript.same
  have hdouble := hscript.double
  obtain ⟨c, hc⟩ : ∃ c, xs[n]? = some c := ⟨_, List.getElem?_eq_getElem hn⟩
  obtain ⟨d, hd⟩ : ∃ d, ys[n]? = some d := ⟨_, List.getElem?_eq_getElem (by omega)⟩
  obtain ⟨g, hg⟩ : ∃ g, gs[2 * n]? = some g := ⟨_, List.getElem?_eq_getElem (by omega)⟩
  obtain ⟨g', hg'⟩ : ∃ g, gs[2 * n + 1]? = some g := ⟨_, List.getElem?_eq_getElem (by omega)⟩
  obtain ⟨a, ha⟩ := exists_of_map_fst (hcompleted 0) hc
  obtain ⟨a', ha'⟩ := exists_of_map_fst (hcompleted 1) hd
  obtain ⟨b, hb⟩ := exists_of_map_fst (hcompleted 2) hg
  obtain ⟨b', hb'⟩ := exists_of_map_fst (hcompleted 2) hg'
  -- the putters' answers
  obtain ⟨g₁, hg₁, rfl⟩ := hanswers.first n c a ha
  obtain rfl := hanswers.second n d a' ha'
  rw [hasked 2] at hg₁
  cases hg.symm.trans hg₁
  -- and the getter's
  obtain ⟨c₁, v, hc₁, hv, rfl⟩ := hanswers.getter (2 * n) g b hb
  obtain ⟨d₁, w, hd₁, hw, rfl⟩ := hanswers.getter (2 * n + 1) g' b' hb'
  rw [show 2 * n % 2 = 0 by omega, show 2 * n / 2 = n by omega, hasked 0] at hc₁
  rw [show (2 * n + 1) % 2 = 1 by omega, show (2 * n + 1) / 2 = n by omega, hasked 1] at hd₁
  cases hc.symm.trans hc₁
  cases hd.symm.trans hd₁
  exact ⟨c, d, g, g', v, w, hc, hd, hg, hg', hv, hw, ha, ha', hb, hb'⟩

namespace Threads

variable {info : TypeInfo D} {xs ys gs : List (PortCall D)} {h : List (Ports.Act D)}
  {t : Threads D} {A : Automaton D}

/-- Nobody waits at the end of the test. -/
theorem alternator_idle (hscript : AlternatorScript xs ys gs)
    (hover : Over (alternatorProto info) t A)
    (hA : Run.Reach (Automaton.Step (alternatorProto info)) .start
      (h.filterMap Ports.Act.observed) A) {s₀ : ProtoAll D}
    (hrun : Run.Reach (Step .actual) (start s₀ (alternatorThreads xs ys gs)) h t) (p : LocId) :
    A.ports p = .idle ∧ (t.ports.calls p = none ∧ t.todo p = []) ∧
      (Automaton.settledAt p (h.filterMap Ports.Act.observed) A).map Prod.fst =
        alternatorThreads xs ys gs p := by
  obtain ⟨hrec, halt⟩ := alternates_of_reach info hA
  have hthread := fun p => hover.thread hA hrun (hscript.untimed p) (hrec p)
  have hfirst : ¬ A.Enabled alternatorDef.locKinds [⟨0, [2]⟩, ⟨1, [3]⟩] :=
    hover.ports.rules ⟨.true, _⟩ (by simp [alternatorProto, alternatorDef]) rfl
  have hsecond : ¬ A.Enabled alternatorDef.locKinds [⟨3, [2]⟩] :=
    hover.ports.rules ⟨.true, _⟩ (by simp [alternatorProto, alternatorDef]) rfl
  obtain ⟨hxy, hz⟩ := halt.lengths
  have hsame := hscript.same
  have hdouble := hscript.double
  have hlength : ∀ {q : LocId}, (Automaton.settledAt q (h.filterMap Ports.Act.observed) A).map
      Prod.fst = alternatorThreads xs ys gs q →
        (Automaton.settledAt q (h.filterMap Ports.Act.observed) A).length =
          (alternatorThreads xs ys gs q).length := fun hall => by rw [← hall, List.length_map]
  have hgetter : (Automaton.settledAt 2 (h.filterMap Ports.Act.observed) A).length = gs.length := by
    rcases hthread 2 with ⟨-, -, hall⟩ | ⟨g, hp₂, hg, hlt⟩
    · exact hlength hall
    exfalso
    have hg := (hscript.gets g hg).1
    have hlt : _ < gs.length := hlt
    have hcell : A.cells 3 = none :=
      by_contra fun hfull => hsecond (alternator_enabled_second hp₂ hg hfull)
    rw [hcell, Option.isSome_none, Bool.toNat_false, Nat.add_zero] at hz
    -- the putters are as far behind
    rcases hthread 0 with ⟨-, -, hall⟩ | ⟨c, hp₀, hc, -⟩
    · have hlen : _ = xs.length := hlength hall
      omega
    rcases hthread 1 with ⟨-, -, hall⟩ | ⟨d, hp₁, hd, -⟩
    · have hlen : _ = ys.length := hlength hall
      omega
    exact hfirst (alternator_enabled_first hp₀ (hscript.firsts c hc).1 hp₁
      (hscript.seconds d hd).1 hp₂ hg hcell)
  rcases hthread p with hdone | ⟨c, -, hc, hlt⟩
  · exact hdone
  exfalso
  match p, hc, hlt with
  | 0, hc, hlt =>
      have hlt : _ < xs.length := hlt
      omega
  | 1, hc, hlt =>
      have hlt : _ < ys.length := hlt
      omega
  | 2, hc, hlt => exact Nat.ne_of_lt hlt hgetter
  | n + 3, hc, hlt => cases hc

/-- However the threads of a test of the alternator interleave, the test ends,
all its calls return, and every round goes as it should. -/
theorem alternator_test (info : TypeInfo D) {heap : Heap D} {b : Build D} {s₀ : ProtoAll D}
    (hfin : (finish (alternatorProto info)).run (.new heap) = .ok s₀ b)
    (hscript : AlternatorScript xs ys gs)
    (hrun : Run.Reach (Step .actual) (start s₀ (alternatorThreads xs ys gs)) h t) :
    h.length ≤ 64 * xs.length ∧ (Run.Stuck (Step .actual) t →
      (∀ p, t.ports.calls p = none ∧ t.todo p = []) ∧
        ∀ n, n < xs.length → Round xs ys gs (h.filterMap Ports.Act.observed) n) := by
  have hP := alternator_plain info
  constructor
  · have hlen := length_le_of_reach hP (alternator_involvesPort info) hfin hrun
    have hmax : maxLocId (alternatorProto info).typelessProtoDef = 3 := by
      show maxLocId alternatorDef = 3
      decide
    have hzero : Count.sumTo 0 (fun p => (alternatorThreads xs ys gs p).length) = 0 := rfl
    rw [hmax, Count.sumTo_succ, Count.sumTo_succ, Count.sumTo_succ, Count.sumTo_succ, hzero] at hlen
    have hlen : _ ≤ 16 * (0 + xs.length + ys.length + gs.length + 0) := hlen
    have hsame := hscript.same
    have hdouble := hscript.double
    omega
  · intro hstuck
    obtain ⟨A, hA, hover⟩ := over_of_stuck hP hfin (hscript.wellKinded info) hrun hstuck
    have hidle := alternator_idle hscript hover hA hrun
    have hrec := (alternates_of_reach info hA).1
    refine ⟨fun p => (hidle p).2.1, fun n hn => round_of_answers hscript
      (alternatorAnswers_of_reach info hA) (fun p => ?_) (fun p => ?_) hn⟩
    · rw [(hrec p).asked_of_idle (hidle p).1]
      exact (hidle p).2.2
    · rw [← Automaton.settledAt_of_idle (hidle p).1]
      exact (hidle p).2.2

end Threads

/-- A round of numbers, with a get and a signal. -/
theorem alternator_test_round : ∃ s b h t,
    (finish (alternatorProto cellInfo)).run (.new .empty) = .ok s b ∧
    Run.Reach (Threads.Step .actual) (.start s
      (alternatorThreads [.put (.data 7)] [.put (.data 8)] [.get, .getSignal])) h t ∧
    h.length ≤ 64 ∧ Round [.put (.data 7)] [.put (.data 8)] [.get, .getSignal]
      (h.filterMap Ports.Act.observed) 0 := by
  obtain ⟨s, b, hfin⟩ := finish_alternator cellInfo .empty
  obtain ⟨h, t, hrun, hstuck⟩ := Threads.exists_stuck .actual
    (alternator_plain cellInfo) (alternator_involvesPort cellInfo) hfin
    (alternatorThreads [.put (.data 7)] [.put (.data 8)] [.get, .getSignal])
  obtain ⟨hlen, hend⟩ := Threads.alternator_test cellInfo hfin (alternatorScript_round _ _) hrun
  exact ⟨s, b, h, t, hfin, hrun, hlen, (hend hstuck).2 0 (by decide)⟩

end ReoRs
