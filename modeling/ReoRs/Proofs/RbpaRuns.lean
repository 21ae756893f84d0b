import ReoRs.Proofs.Alternator
import ReoRs.Proofs.Fullness
import ReoRs.Proofs.GroupFlags
import ReoRs.Proofs.RbpaBuild

/-!
# The automaton of a protocol and its runs

`new_rbpa` forgets the data, the guards over them, and who is ready. What is
left is a path: whenever a rule fires, the memory bits take a step of the rule
the automaton has for it, and they change at no other time. So the automaton
allows every run, whatever the ports do, and an observer of the ports that are
kept sees a path of the automaton with the silent rules taken out.

A firing that panics half-way has changed the memory bits already, and counts
as one.
-/

namespace ReoRs

variable {D : Type}

namespace Coordination

variable {P : Proto D} {infos : HashMap TypeId (TypeInfo D)}

/-- Whoever has the lock has made something ready. -/
theorem Step.ready_ne_nil {s t : Coordination D} {a : Act D} (hs : Standing P infos s.proto)
    (h : Step s a t) (hlock : s.locked = true → s.proto.w.active.ready.data ≠ [])
    (hlocked : t.locked = true) : t.proto.w.active.ready.data ≠ [] := by
  by_cases hwas : s.locked = true
  · have hlen := h.longer.ready
    exact List.length_pos_iff.1 (Nat.lt_of_lt_of_le (List.length_pos_iff.2 (hlock hwas)) hlen)
  · cases h with
    | offer _ _ | request _ _ | receive _ _ | acquire _ _ _ | withdraw _ _ _ | finalizePort _ _ _ =>
        exact absurd hlocked hwas
    | arrive _ _ hrun =>
        rw [run_readySet hs.ungrouped] at hrun
        cases hrun
        exact ne_nil_setReady _ _
    | fire hlock _ _ | leave hlock _ _ | panic hlock _ => exact absurd hlock hwas
    | finalizeCell _ _ _ hrun =>
        obtain ⟨_, u, hempty, hset⟩ := Effect.ok_of_bind_ok hrun
        have hu := ((keeps_makeEmpty _ _).of_ok (Frame.refl _) hempty).ungrouped hs.ungrouped
        rw [run_readySet hu] at hset
        cases hset
        exact ne_nil_setReady _ _
    | fault _ hfree _ _ => exact absurd hlocked hwas

theorem ready_ne_nil_of_locked {s : ProtoAll D} (hs : Standing P infos s) {h : List (Act D)}
    {t : Coordination D} (hrun : Run.Reach Step (start s) h t) (hlock : t.locked = true) :
    t.proto.w.active.ready.data ≠ [] := by
  refine hrun.invariant (P := fun _ t => t.locked = true → t.proto.w.active.ready.data ≠ [])
    (fun h => absurd h Bool.false_ne_true) ?_ hlock
  intro h t a u hrun ht hstep
  exact hstep.ready_ne_nil (reach_standing hs hrun) ht

/-- What a step has to do with firing a rule. -/
inductive Fires (s : Coordination D) (a : Act D) (t : Coordination D) : Prop where
  | none (hact : ∀ i, a ≠ .fire i) (hbits : t.proto.w.memoryBits = s.proto.w.memoryBits) :
      Fires s a t
  | rule {i : RuleId} {rule : RunRule D} (hact : a = .fire i ∨ a = .panic)
      (hlock : s.locked = true) (hrule : s.proto.r.rules[i]? = some rule)
      (henabled : Enabled s.proto rule)
      (hbits : t.proto.w.memoryBits = assignMemoryBits s.proto.w.memoryBits rule) : Fires s a t

theorem Step.fires {s t : Coordination D} {a : Act D} (hs : Standing P infos s.proto)
    (h : Step s a t) : Fires s a t := by
  cases h with
  | offer _ _ | request _ _ | receive _ _ | withdraw _ _ _ | acquire _ _ _ =>
      exact .none (fun _ => nofun) rfl
  | arrive _ _ hrun =>
      rw [run_readySet hs.ungrouped] at hrun
      cases hrun
      exact .none (fun _ => nofun) rfl
  | fire hlock hrule hrun =>
      have hres := exhaustPass_result hs.ungrouped hs.tempMems
      rw [hrun] at hres
      cases hres with
      | fired hrule henabled hfire =>
          exact .rule (.inl rfl) hlock hrule henabled
            ((keeps_fire _).of_ok (Frame.refl _) hfire).memoryBits
  | leave _ hend hrun =>
      have hres := exhaustPass_result hs.ungrouped hs.tempMems
      rw [hrun] at hres
      cases hres with
      | quiet _ => exact .none (fun _ => nofun) rfl
      | @fired i _ _ _ _ _ => exact absurd rfl (hend i)
  | panic hlock hrun =>
      have hres := exhaustPass_result hs.ungrouped hs.tempMems
      rw [hrun] at hres
      cases hres with
      | guardFault _ _ _ => exact .none (fun _ => nofun) rfl
      | fireFault hrule henabled hfire =>
          exact .rule (.inr rfl) hlock hrule henabled
            ((keeps_fire _).of_error (Frame.refl _) hfire).memoryBits
  | finalizePort _ _ hrun =>
      exact .none (fun _ => nofun) ((keeps_finalizePoPu _ _).of_ok (Frame.refl _) hrun).memoryBits
  | finalizeCell _ _ _ hrun =>
      exact .none (fun _ => nofun)
        ((keeps_finalizeMemo hs.ungrouped _ _).of_ok (Frame.refl _) hrun).memoryBits
  | fault _ _ _ hrun =>
      exact .none (fun _ => nofun)
        ((keeps_finalizeMemo hs.ungrouped _ _).of_error (Frame.refl _) hrun).memoryBits

end Coordination

/-! ## A firing is a step of the automaton -/

theorem not_missed {d : TypelessProtoDef} {actions : List ActionDef} {bits : BitSet} {l : LocId}
    (hpos : 1 ≤ maxLocId d) (hle : maxLocId d ≤ 63) : ¬ Missed d actions bits l := by
  intro h
  have hmod := h.begins
  rw [h.last, Nat.mod_eq_of_lt (Nat.lt_succ_of_le hle)] at hmod
  exact absurd hmod (Nat.ne_of_gt hpos)

/-- What a rule that may fire asks of the memory, and what it leaves. -/
theorem memStep_of_mayFire {locKinds : HashMap LocId LocKind} {actions : List ActionDef}
    {memory ready bits' : BitSet} (hmay : MayFire locKinds actions memory ready)
    (hupdated : FullnessUpdated locKinds actions memory bits') :
    MemStep (isMemLoc locKinds · = true) actions memory.test bits'.test where
  full := by
    rintro l hmem ⟨a, ha, hla⟩
    exact (hmay l ⟨a, ha, .inl hla⟩).full hmem ⟨a, ha, hla⟩
  empty := by
    rintro l hmem ⟨a, ha, hla⟩ hput
    exact (hmay l ⟨a, ha, .inr hla⟩).empty hmem ⟨a, ha, hla, fun heq => hput ⟨a, ha, heq⟩⟩
  filled := by
    rintro l hmem ⟨a, ha, hla⟩
    by_cases hself : putsToItself actions l
    · -- it was full, and stays so
      rw [hupdated.unchanged l fun h => h.2.2 hself]
      obtain ⟨b, hb, hlb, -⟩ := hself
      exact (hmay l ⟨b, hb, .inl hlb⟩).full hmem ⟨b, hb, hlb⟩
    · exact hupdated.filled l hmem ⟨a, ha, hla⟩ hself
  emptied l hmem hput hget :=
    hupdated.emptied l hmem hput fun ⟨a, ha, _, hla⟩ => hget ⟨a, ha, hla⟩
  unchanged l hl := hupdated.unchanged l fun h => hl ⟨h.1, h.2.1⟩

section Runs

variable {P : Proto D} {b b' : Build D} {s : ProtoAll D} {portSet portIds : Finset LocId}
  {rules : List RbpaRule} {t : Coordination D}

/-- The port a rule of the definition is labelled with. -/
def labelAt (portSet : Finset LocId) (ruleDefs : List RuleDef) (i : RuleId) : Option LocId :=
  (ruleDefs[i]?).bind fun r => (portsMet portSet r.actions).head?

/-- Firing a rule of a reachable state is a step of its memory. -/
theorem memStep_of_isReady (hfin : (finish P).run b = .ok s b')
    (hpos : 1 ≤ maxLocId P.typelessProtoDef) (hle : maxLocId P.typelessProtoDef ≤ 63)
    {h : List (Coordination.Act D)} (hrun : Run.Reach Coordination.Step (.start s) h t)
    (hready : t.proto.w.active.ready.data ≠ []) {i : RuleId} {r : RuleDef} {run : RunRule D}
    (hr : P.typelessProtoDef.behaviour.rules[i]? = some r)
    (hrule : t.proto.r.rules[i]? = some run)
    (hmet : isReady t.proto.w.memoryBits t.proto.w.active.ready run = true) :
    MemStep (isMemLoc P.typelessProtoDef.locKinds · = true) r.actions t.proto.w.memoryBits.test
      (assignMemoryBits t.proto.w.memoryBits run).test := by
  obtain ⟨infos, hs⟩ := (built_of_finish hfin).standing
  obtain ⟨fired, -, hbits⟩ := Coordination.reach_memoryBits hs hrun
  have hmay := ((Coordination.reach_standing hs hrun).isReady_iff_mayFire hpos hle hready hr
    hrule).1 hmet
  rw [(Coordination.reach_sameInstance hs hrun).rules] at hrule
  have hupdated := (fullnessUpdated_iff P hfin fired hr hrule).2 (not_missed hpos hle)
  rw [← hbits] at hupdated
  exact memStep_of_mayFire hmay hupdated

/-- The cells of a rule are its locations that are no ports. -/
theorem isMemLoc_iff_not_mem {locKinds : HashMap LocId LocKind} {typeAt : LocId → Option TypeId}
    {actions : List ActionDef} (hwf : WellFormedRule locKinds typeAt actions)
    (hids : ∀ l, l ∈ portIds ↔ isPortLoc locKinds l = true) {l : LocId}
    (hl : involved actions l) : isMemLoc locKinds l = true ↔ l ∉ portIds := by
  rw [hids]
  constructor
  · intro hmem hport
    rw [isMemLoc_of_isPortLoc hport] at hmem
    cases hmem
  · intro hport
    by_contra hmem
    exact hport (hwf.isPortLoc hl (Bool.eq_false_of_not_eq_true hmem))

theorem takes_of_isReady (portSet : Finset LocId) (hfin : (finish P).run b = .ok s b')
    (hpos : 1 ≤ maxLocId P.typelessProtoDef) (hle : maxLocId P.typelessProtoDef ≤ 63)
    (hids : ∀ l, l ∈ portIds ↔ isPortLoc P.typelessProtoDef.locKinds l = true)
    {h : List (Coordination.Act D)} (hrun : Run.Reach Coordination.Step (.start s) h t)
    (hready : t.proto.w.active.ready.data ≠ []) {i : RuleId} {r : RuleDef} {run : RunRule D}
    (hr : P.typelessProtoDef.behaviour.rules[i]? = some r)
    (hrule : t.proto.r.rules[i]? = some run)
    (hmet : isReady t.proto.w.memoryBits t.proto.w.active.ready run = true) :
    (readRule portSet portIds r.actions).Takes t.proto.w.memoryBits.test
      (assignMemoryBits t.proto.w.memoryBits run).test := by
  obtain ⟨infos, hs⟩ := (built_of_finish hfin).standing
  have hwf := (Coordination.reach_standing hs hrun).wellFormed r (List.mem_of_getElem? hr)
  have hstep := memStep_of_isReady hfin hpos hle hrun hready hr hrule hmet
  exact (takes_readRule_iff hwf.apart).2 (hstep.congr fun l hl => isMemLoc_iff_not_mem hwf hids hl)

theorem stepOf_of_isReady (hfin : (finish P).run b = .ok s b')
    (hpos : 1 ≤ maxLocId P.typelessProtoDef) (hle : maxLocId P.typelessProtoDef ≤ 63)
    (hids : ∀ l, l ∈ portIds ↔ isPortLoc P.typelessProtoDef.locKinds l = true)
    (hrules : newRbpa portSet portIds P.typelessProtoDef.behaviour.rules = .ok rules)
    {h : List (Coordination.Act D)} (hrun : Run.Reach Coordination.Step (.start s) h t)
    (hready : t.proto.w.active.ready.data ≠ []) {i : RuleId} {run : RunRule D}
    (hrule : t.proto.r.rules[i]? = some run)
    (hmet : isReady t.proto.w.memoryBits t.proto.w.active.ready run = true) :
    Rbpa.stepOf rules (labelAt portSet P.typelessProtoDef.behaviour.rules i)
      t.proto.w.memoryBits.test (assignMemoryBits t.proto.w.memoryBits run).test := by
  obtain ⟨infos, hs⟩ := (built_of_finish hfin).standing
  obtain ⟨hi, -⟩ := List.getElem?_eq_some_iff.1 hrule
  obtain ⟨r, hr⟩ : ∃ r, P.typelessProtoDef.behaviour.rules[i]? = some r :=
    ⟨_, List.getElem?_eq_getElem ((Coordination.reach_standing hs hrun).rules.length_eq ▸ hi)⟩
  refine (stepOf_newRbpa hrules _ _ _).2 ⟨r, List.mem_of_getElem? hr, ?_,
    takes_of_isReady portSet hfin hpos hle hids hrun hready hr hrule hmet⟩
  rw [labelAt, hr, Option.bind_some]

/-- The labels of the rules that fire in a history. A pass that panics has
fired a rule or has not. -/
inductive Shows (label : RuleId → Option LocId) :
    List (Coordination.Act D) → List (Option LocId) → Prop where
  | nil : Shows label [] []
  | fire {h : List (Coordination.Act D)} {ls : List (Option LocId)} (i : RuleId)
      (hls : Shows label h ls) : Shows label (.fire i :: h) (label i :: ls)
  | panic {h : List (Coordination.Act D)} {ls : List (Option LocId)} (i : RuleId)
      (hls : Shows label h ls) : Shows label (.panic :: h) (label i :: ls)
  | other {h : List (Coordination.Act D)} {ls : List (Option LocId)} {a : Coordination.Act D}
      (ha : ∀ i, a ≠ .fire i) (hls : Shows label h ls) : Shows label (a :: h) ls

/-- In every run of a protocol the memory goes along a path of its automaton,
under the labels of the rules that fire. -/
theorem reach_stepOf (hfin : (finish P).run b = .ok s b')
    (hpos : 1 ≤ maxLocId P.typelessProtoDef) (hle : maxLocId P.typelessProtoDef ≤ 63)
    (hids : ∀ l, l ∈ portIds ↔ isPortLoc P.typelessProtoDef.locKinds l = true)
    (hrules : newRbpa portSet portIds P.typelessProtoDef.behaviour.rules = .ok rules)
    {h : List (Coordination.Act D)} (hrun : Run.Reach Coordination.Step (.start s) h t) :
    ∃ ls, Shows (labelAt portSet P.typelessProtoDef.behaviour.rules) h ls ∧
      Run.Reach (fun m l m' => Rbpa.stepOf rules l m m') s.w.memoryBits.test ls
        t.proto.w.memoryBits.test := by
  obtain ⟨infos, hs⟩ := (built_of_finish hfin).standing
  refine hrun.invariant (P := fun h t => ∃ ls,
    Shows (labelAt portSet P.typelessProtoDef.behaviour.rules) h ls ∧
      Run.Reach (fun m l m' => Rbpa.stepOf rules l m m') s.w.memoryBits.test ls
        t.proto.w.memoryBits.test) ⟨[], .nil, .refl⟩ ?_
  rintro h t a u hrun ⟨ls, hshows, hpath⟩ hstep
  have ht := Coordination.reach_standing hs hrun
  cases hstep.fires ht with
  | none hact hbits => exact ⟨ls, .other hact hshows, hbits ▸ hpath⟩
  | @rule i run hact hlocked hrule henabled hbits =>
      have hone := stepOf_of_isReady hfin hpos hle hids hrules hrun
        (Coordination.ready_ne_nil_of_locked hs hrun hlocked) hrule henabled.1
      rw [← hbits] at hone
      rcases hact with rfl | rfl
      · exact ⟨_, .fire i hshows, hpath.tail hone⟩
      · exact ⟨_, .panic i hshows, hpath.tail hone⟩

/-- The automaton allows whatever a protocol does in a run. Where taking out its
silent rules loses nothing, what an observer of the ports that are kept sees is
a path of the rules that are left, and the memory is what the silent rules that
have fired since make of it. -/
theorem reach_newRbpa (P : Proto D) (hfin : (finish P).run b = .ok s b')
    (hpos : 1 ≤ maxLocId P.typelessProtoDef) (hle : maxLocId P.typelessProtoDef ≤ 63)
    (hids : ∀ l, l ∈ portIds ↔ isPortLoc P.typelessProtoDef.locKinds l = true)
    (hrules : newRbpa portSet portIds P.typelessProtoDef.behaviour.rules = .ok rules)
    {h : List (Coordination.Act D)} (hrun : Run.Reach Coordination.Step (.start s) h t) :
    ∃ ls, Shows (labelAt portSet P.typelessProtoDef.behaviour.rules) h ls ∧
      Run.Reach (fun m l m' => Rbpa.stepOf rules l m m') s.w.memoryBits.test ls
        t.proto.w.memoryBits.test ∧
      ∀ fuel result, Rbpa.normalize fuel rules = some result → Rbpa.LoopKeeps fuel rules →
        ∃ m, Run.Reach (fun m p m' => Rbpa.stepOf result (some p) m m') s.w.memoryBits.test
            (ls.filterMap id) m ∧
          Relation.ReflTransGen (Rbpa.stepOf rules none) m t.proto.w.memoryBits.test := by
  obtain ⟨ls, hshows, hpath⟩ := reach_stepOf hfin hpos hle hids hrules hrun
  refine ⟨ls, hshows, hpath, fun fuel result hnormal hkeeps => ?_⟩
  obtain ⟨m, hweak, hsilent⟩ := Hiding.exists_weak_path hpath
  exact ⟨m, hweak.mono fun hstep => (Rbpa.weak_normalize hnormal hkeeps).1 hstep, hsilent⟩

end Runs

/-! ## The alternator, seen from its first putter -/

theorem mem_ports_alternator (l : LocId) : l ∈ ({0, 1, 2} : Finset LocId) ↔
    isPortLoc alternatorDef.locKinds l = true := by
  have hall : ∀ e ∈ alternatorDef.locKinds.pairs, e.1 ≤ 3 := by decide
  by_cases hl : l ≤ 3
  · revert l
    decide
  · refine iff_of_false ?_ ?_
    · simp only [Finset.mem_insert, Finset.mem_singleton]
      rintro (rfl | rfl | rfl) <;> exact hl (by decide)
    · intro hport
      rw [isPortLoc, Option.any_eq_true] at hport
      obtain ⟨k, hk, -⟩ := hport
      exact hl (hall _ (mem_pairs.2 hk))

/-- A put at either putter and a get, to the end. The automaton has the rule of
the first putter and, silent, the one that empties the cell. -/
theorem reach_newRbpa_alternator : ∃ s b h t rules result ls m,
    (finish (alternatorProto cellInfo)).run (.new .empty) = .ok s b ∧
    newRbpa {0} {0, 1, 2} alternatorDef.behaviour.rules = .ok rules ∧
    Rbpa.normalize 2 rules = some result ∧ Run.Reach Coordination.Step (.start s) h t ∧
    Shows (labelAt {0} alternatorDef.behaviour.rules) h ls ∧
    Run.Reach (fun m p m' => Rbpa.stepOf result (some p) m m') s.w.memoryBits.test
      (ls.filterMap id) m ∧
    Relation.ReflTransGen (Rbpa.stepOf rules none) m t.proto.w.memoryBits.test := by
  have hP := alternator_plain cellInfo
  obtain ⟨s, b, hfin⟩ := finish_alternator cellInfo .empty
  obtain ⟨h, t, hrun, -⟩ := Threads.exists_stuck .actual hP (alternator_involvesPort cellInfo) hfin
    (alternatorThreads [.put (.data 7)] [.put (.data 8)] [.get, .getSignal])
  obtain ⟨k, owed, hk, -⟩ := Ports.reach_coordination hP.uninitialized hP.oneGetter.noSelfPut
    hP.oneGetter.fanOutClones hP.pos hP.le hfin (Threads.reach_ports hrun)
  obtain ⟨rules, hrules⟩ : ∃ rules,
      newRbpa {0} {0, 1, 2} alternatorDef.behaviour.rules = .ok rules := ⟨_, rfl⟩
  obtain ⟨result, hresult⟩ : ∃ result, Rbpa.normalize 2 rules = some result := by
    cases hrules
    exact Option.isSome_iff_exists.1 (by decide)
  have hkeeps : Rbpa.LoopKeeps 2 rules := by
    cases hrules
    decide
  obtain ⟨ls, hshows, -, hnormal⟩ := reach_newRbpa (alternatorProto cellInfo) hfin hP.pos hP.le
    mem_ports_alternator hrules hk
  obtain ⟨m, hpath, hsilent⟩ := hnormal 2 result hresult hkeeps
  exact ⟨s, b, k, _, rules, result, ls, m, hfin, hrules, hresult, hk, hshows, hpath, hsilent⟩

end ReoRs
