import ReoRs.Lib.Count
import ReoRs.Lib.Run
import ReoRs.Proofs.Coherence

/-!
# The loop of `exhaust_rules` ends

Every firing begins with taking the readiness of all the locations its rule
involves, and gives some of it back: memory cells that were filled or emptied
are ready again before the firing is over. Ports are not, since only the
caller of a port marks it ready. So in a protocol whose rules all involve a
port, each round of the loop costs a ready port, and the loop ends when they
are spent at the latest. Neither the guards nor a group's tentative ports have
a say in this: what they can do is end the loop earlier.
-/

namespace ReoRs

variable {D : Type}

open Effect (Keeps keeps_zoom keeps_pure keeps_throw keeps_modify keeps_get_bind)

def isPortLoc (locKinds : HashMap LocId LocKind) (l : LocId) : Bool :=
  (locKinds.lookup l).any fun k => !k.isMem

/-- How many ports are ready. -/
def Proto.readyPorts (P : Proto D) (s : ProtoAll D) : Nat :=
  Count.upTo (maxLocId P.typelessProtoDef + 1) fun l =>
    isPortLoc P.typelessProtoDef.locKinds l && s.w.active.ready.test l

theorem Proto.readyPorts_mono (P : Proto D) {s t : ProtoAll D}
    (h : ∀ l, isPortLoc P.typelessProtoDef.locKinds l = true →
      t.w.active.ready.test l = true → s.w.active.ready.test l = true) :
    P.readyPorts t ≤ P.readyPorts s := by
  refine List.countP_mono_left fun l _ hl => ?_
  rw [Bool.and_eq_true] at hl ⊢
  exact ⟨hl.1, h l hl.1 hl.2⟩

/-- The rule is enabled, and none before it is. -/
structure FirstEnabled (s : ProtoAll D) (i : RuleId) : Prop where
  enabled : ∃ rule, s.r.rules[i]? = some rule ∧ Enabled s rule
  first : ∀ j rule, j < i → s.r.rules[j]? = some rule → ¬ Enabled s rule

/-- A round of the loop that fires and goes on. -/
def FiredPass (s : ProtoAll D) (i : RuleId) (t : ProtoAll D) : Prop :=
  exhaustPass.run s = .ok (.fired i) t

/-! ## A round -/

/-- Waking the waiters changes dropboxes and the list of them. -/
structure Notified (s t : ProtoAll D) : Prop where
  rules : t.r.rules = s.r.rules
  shapes : t.shapes = s.shapes
  memoryBits : t.w.memoryBits = s.w.memoryBits
  active : t.w.active = s.w.active

theorem keeps_notifyStateWaiters (s : ProtoAll D) :
    Keeps (Notified s) (notifyStateWaiters (D := D)) :=
  keeps_notifyStateWaiters_of_setDropbox
    (fun {t} ht l m => { ht with shapes := (ProtoAll.shapes_setDropbox t l m).trans ht.shapes })
    fun ht _ => { ht with }

/-- A rule that is fired, and its firing. With tentative ports to wait for it
would be committed to. -/
theorem fireRule_fired {s t : ProtoAll D} {n i : RuleId} {rule : RunRule D}
    (h : (fireRule n rule).run s = .ok (.fired i) t) :
    i = n ∧ ∃ u, rule.fire.run (s.prepare rule) = .ok () u ∧ Notified u t := by
  cases htent : s.w.active.ready.iterAnd s.w.readyTentative with
  | nil =>
      rw [run_fireRule_of_none htent] at h
      obtain ⟨_, u, hfire, h⟩ := Effect.ok_of_bind_ok h
      obtain ⟨_, v, hnotify, h⟩ := Effect.ok_of_bind_ok h
      cases h
      refine ⟨rfl, u, hfire, ?_⟩
      exact (keeps_notifyStateWaiters u).of_ok ⟨rfl, rfl, rfl, rfl⟩ hnotify
  | cons l ls =>
      rw [fireRule, EStateM.run_bind, EStateM.run_get] at h
      dsimp only at h
      rw [htent] at h
      obtain ⟨_, u, -, h⟩ := Effect.ok_of_bind_ok h
      cases h

/-- The scan passed over the rules before one it fired. -/
def Found (s : ProtoAll D) (n : RuleId) (rules : List (RunRule D)) (i : RuleId)
    (t : ProtoAll D) : Prop :=
  ∃ done rule rest u, rules = done ++ rule :: rest ∧ i = n + done.length ∧
    (∀ r ∈ done, ¬ Enabled s r) ∧ Enabled s rule ∧
    rule.fire.run (s.prepare rule) = .ok () u ∧ Notified u t

theorem tryRules_fired {s t : ProtoAll D} {i : RuleId} :
    ∀ {rules : List (RunRule D)} {n : RuleId}, (∀ rule ∈ rules, rule.tempMems = []) →
      (tryRules n rules).run s = .ok (.fired i) t → Found s n rules i t
  | [], n, _, h => by cases h
  | rule :: rules, n, htemps, h => by
      have hnext : ¬ Enabled s rule → (tryRules (n + 1) rules).run s = .ok (.fired i) t →
          Found s n (rule :: rules) i t := by
        intro hnot hrest
        obtain ⟨done, r, rest, u, hrules, hi, hdone, henabled, hfire, hnotify⟩ :=
          tryRules_fired (fun r hr => htemps r (List.mem_cons_of_mem rule hr)) hrest
        refine ⟨rule :: done, r, rest, u, by rw [hrules, List.cons_append], ?_,
          List.forall_mem_cons.2 ⟨hnot, hdone⟩, henabled, hfire, hnotify⟩
        rw [hi, List.length_cons, Nat.add_assoc, Nat.add_comm 1]
      rw [run_tryRules_cons (htemps rule List.mem_cons_self)] at h
      by_cases hready : isReady s.w.memoryBits s.w.active.ready rule = true
      · rw [if_pos hready] at h
        cases hguard : evalFormula s rule.guardPred with
        | error e =>
            rw [hguard] at h
            cases h
        | ok pass =>
            rw [hguard] at h
            cases pass with
            | true =>
                obtain ⟨rfl, u, hfire, hnotify⟩ := fireRule_fired h
                exact ⟨[], rule, rules, u, rfl, rfl, by simp, ⟨hready, hguard⟩, hfire, hnotify⟩
            | false =>
                refine hnext (fun henabled => ?_) h
                have := henabled.2.symm.trans hguard
                cases this
      · rw [if_neg hready] at h
        exact hnext (fun henabled => hready henabled.1) h

theorem FiredPass.cases {s t : ProtoAll D} {i : RuleId}
    (htemps : ∀ rule ∈ s.r.rules, rule.tempMems = []) (h : FiredPass s i t) :
    FirstEnabled s i ∧ ∃ rule u, s.r.rules[i]? = some rule ∧ Enabled s rule ∧
      rule.fire.run (s.prepare rule) = .ok () u ∧ Notified u t := by
  rw [FiredPass, exhaustPass, EStateM.run_bind, EStateM.run_get] at h
  obtain ⟨done, rule, rest, u, hrules, hi, hdone, henabled, hfire, hnotify⟩ :=
    tryRules_fired htemps h
  rw [Nat.zero_add] at hi
  subst hi
  have hrule : s.r.rules[done.length]? = some rule := by simp [hrules]
  refine ⟨⟨⟨rule, hrule, henabled⟩, fun j r hj hr => ?_⟩, rule, u, hrule, henabled, hfire, hnotify⟩
  rw [hrules, List.getElem?_append_left hj] at hr
  exact hdone r (List.mem_of_getElem? hr)

/-! ## What a firing does to the ports -/

/-- What an action keeps: the instance, and the readiness of the ports. -/
structure PortsKept (locKinds : HashMap LocId LocKind) (s t : ProtoAll D) : Prop where
  frame : Frame s t
  ports : ∀ l, isMemLoc locKinds l = false →
    t.w.active.ready.test l = s.w.active.ready.test l

/-- The updates of an action make memory locations ready, and no ports. -/
theorem robust_portsKept (locKinds : HashMap LocId LocKind) (s : ProtoAll D) :
    Robust (fun l => isMemLoc locKinds l = true) (PortsKept locKinds s) where
  setPtr h _ q := ⟨h.frame.setPtr _ q, h.ports⟩
  setReady := by
    intro t l h hl v
    refine ⟨h.frame.setReady _ v, fun p hp => ?_⟩
    have hne : p ≠ l := by
      rintro rfl
      rw [hl] at hp
      cases hp
    rw [ProtoAll.ready_setReady, if_neg hne]
    exact h.ports p hp
  setDropbox h l m := ⟨h.frame.setDropbox l m, h.ports⟩
  beginHandOff h l n d := ⟨h.frame.mapSpace (f := Space.mapPutter (·.beginHandOff n d))
    (Space.shape_mapPutter fun _ => rfl) l, h.ports⟩
  mapMemRefs h f := ⟨h.frame.mapMemRefs f, h.ports⟩
  store _ _ _ _ := keeps_zoom (fun m _ h => ⟨h.frame.putMem m, h.ports⟩) _
  dispose _ _ _ := keeps_zoom (fun m _ h => ⟨h.frame.putMem m, h.ports⟩) _

section

variable {P : Proto D} {infos : HashMap TypeId (TypeInfo D)} {s t : ProtoAll D}

/-- The putter of an action is a port putter's space or a memory location. -/
theorem Standing.isMemLoc_of_putter (hs : Standing P infos s) (ht : t.shapes = s.shapes)
    {r : RuleDef} (hr : r ∈ P.typelessProtoDef.behaviour.rules) {a : ActionDef}
    (ha : a ∈ r.actions) (hnot : ∀ sp b, t.getSpace a.putter ≠ some (.poPu sp b)) :
    isMemLoc P.typelessProtoDef.locKinds a.putter = true := by
  obtain ⟨k, hk, hput⟩ := (hs.wellFormed r hr).putters a ha
  rw [isMemLoc_of_lookup hk]
  cases k with
  | portPutter =>
      obtain ⟨sp, b, hsp, -⟩ := (hs.shaped.congr ht).isPutter hk
      exact absurd hsp (hnot sp b)
  | portGetter => cases hput
  | memInitialized => rfl
  | memUninitialized => rfl

/-- A firing makes no port ready. -/
theorem Standing.keeps_fire_ports (hs : Standing P infos s) (hst : t.shapes = s.shapes)
    {r : RuleDef} (hr : r ∈ P.typelessProtoDef.behaviour.rules) {rule : RunRule D}
    (henc : Encodes P.typelessProtoDef.locKinds r rule) :
    Keeps (PortsKept P.typelessProtoDef.locKinds t) rule.fire := by
  refine Effect.keeps_forEach_of_mem fun a ha => ?_
  rw [henc.actions] at ha
  obtain ⟨d, hd, rfl⟩ := List.mem_map.1 ha
  have hmg : ∀ g ∈ (encodeAction P.typelessProtoDef.locKinds d.putter d.getters.eraseDups).mg,
      isMemLoc P.typelessProtoDef.locKinds g = true := fun g hg => (List.mem_filter.1 hg).2
  refine (robust_portsKept _ t).performAction (fun g hg _ => hmg g hg)
    (fun _ _ g hg => hmg g hg) ?_ _
  intro _ u hu hnot
  exact hs.isMemLoc_of_putter (hu.frame.shapes.trans hst) hr hd hnot

/-! ## What a firing costs -/

/-- The location of a rule that is not a memory cell is a port. -/
theorem WellFormedRule.isPortLoc {locKinds : HashMap LocId LocKind}
    {typeAt : LocId → Option TypeId} {actions : List ActionDef}
    (h : WellFormedRule locKinds typeAt actions) {l : LocId} (hl : involved actions l)
    (hmem : isMemLoc locKinds l = false) : isPortLoc locKinds l = true := by
  obtain ⟨a, ha, hal⟩ := hl
  have hk : ∃ k, locKinds.lookup l = some k := by
    rcases hal with rfl | hal
    · obtain ⟨k, hk, -⟩ := h.putters a ha
      exact ⟨k, hk⟩
    · obtain ⟨k, hk, -⟩ := h.getters a ha l hal
      exact ⟨k, hk⟩
  obtain ⟨k, hk⟩ := hk
  rw [isMemLoc_of_lookup hk] at hmem
  rw [ReoRs.isPortLoc, hk, Option.any_some, hmem]
  rfl

theorem isMemLoc_of_isPortLoc {locKinds : HashMap LocId LocKind} {l : LocId}
    (h : isPortLoc locKinds l = true) : isMemLoc locKinds l = false := by
  rw [isPortLoc, Option.any_eq_true] at h
  obtain ⟨k, hk, hport⟩ := h
  rw [isMemLoc_of_lookup hk]
  cases hmem : k.isMem with
  | false => rfl
  | true =>
      rw [hmem] at hport
      cases hport

/-- An enabled rule has all its ports ready, if they are in the first chunk. -/
theorem Standing.ready_of_enabled (hs : Standing P infos s) (hst : SameInstance s t)
    (hpos : 1 ≤ maxLocId P.typelessProtoDef) (hle : maxLocId P.typelessProtoDef ≤ 63)
    (hready : t.w.active.ready.data ≠ []) {i : RuleId} {rule : RunRule D}
    (hrule : t.r.rules[i]? = some rule)
    (henabled : isReady t.w.memoryBits t.w.active.ready rule = true)
    {l : LocId} (hl : rule.guardReady.test l = true) : t.w.active.ready.test l = true := by
  rw [hst.rules] at hrule
  obtain ⟨r, hr, henc⟩ := hs.rule_at hrule
  have hmax := (hs.wellFormed r hr).le_maxLocId ((henc.sets.ready l).1 hl)
  have hone := BitSet.lenNeededForCapacity_eq_one hpos hle
  have hpad := hs.padded rule (List.mem_of_getElem? hrule)
  have hfull := hpad.full
  have hguard := hpad.ready
  have hcap := Nat.le_trans hs.capacity hst.capacity
  have hlen : 0 < t.w.active.ready.data.length := List.length_pos_iff.2 hready
  refine ((isReady_iff _ _ rule).1 henabled l ?_ hl).1
  rw [Nat.div_eq_of_lt (Nat.lt_succ_of_le (Nat.le_trans hmax hle)), seenChunks]
  rw [hone] at hfull hguard hcap
  exact Nat.lt_min.2 ⟨Nat.lt_min.2 ⟨hlen, hcap⟩, Nat.lt_min.2 ⟨hguard, hfull⟩⟩

/-- What a round that fires leaves: the memory bits are assigned, and of the
ports those of the rule are not ready any more. -/
structure Spent (P : Proto D) (s t : ProtoAll D) (i : RuleId) (u : ProtoAll D) (r : RuleDef)
    (rule : RunRule D) : Prop where
  same : SameInstance s u
  nonempty : u.w.active.ready.data ≠ []
  found : t.r.rules[i]? = some rule
  source : P.typelessProtoDef.behaviour.rules[i]? = some r
  encodes : Encodes P.typelessProtoDef.locKinds r rule
  enabled : Enabled t rule
  bits : u.w.memoryBits = assignMemoryBits t.w.memoryBits rule
  ports : ∀ l, isMemLoc P.typelessProtoDef.locKinds l = false →
    u.w.active.ready.test l = (t.w.active.ready.test l && !rule.guardReady.test l)

theorem Standing.spent_of_firedPass (hs : Standing P infos s) (hst : SameInstance s t)
    (hready : t.w.active.ready.data ≠ []) {i : RuleId} {u : ProtoAll D} (h : FiredPass t i u) :
    ∃ r rule, Spent P s t i u r rule := by
  have htemps : ∀ rule ∈ t.r.rules, rule.tempMems = [] := by
    rw [hst.rules]
    exact hs.tempMems
  obtain ⟨-, rule, v, hrule, henabled, hfire, hnotify⟩ := h.cases htemps
  have hrule' := hrule
  rw [hst.rules] at hrule'
  obtain ⟨hi, -⟩ := List.getElem?_eq_some_iff.1 hrule'
  obtain ⟨r, hr⟩ : ∃ r, P.typelessProtoDef.behaviour.rules[i]? = some r :=
    ⟨_, List.getElem?_eq_getElem (hs.rules.length_eq ▸ hi)⟩
  have henc := hs.encodes_at hr hrule'
  have hkept := (hs.keeps_fire_ports (t := t.prepare rule) hst.shapes
    (List.mem_of_getElem? hr) henc).of_ok ⟨Frame.refl _, fun _ _ => rfl⟩ hfire
  have hready' : u.w.active.ready = v.w.active.ready := by rw [hnotify.active]
  refine ⟨r, rule, ⟨?_, ?_, ?_⟩, ?_, hrule, hr, henc, henabled, ?_, ?_⟩
  · rw [hnotify.rules, hkept.frame.rules]
    exact hst.rules
  · rw [hnotify.shapes, hkept.frame.shapes]
    exact hst.shapes
  · rw [hnotify.memoryBits, hkept.frame.memoryBits]
    refine Nat.le_trans hst.capacity (Nat.le_of_eq ?_)
    exact (length_assignMemoryBits _ rule).symm
  · rw [hready', ← List.length_pos_iff]
    refine Nat.lt_of_lt_of_le ?_ hkept.frame.readyLength
    show 0 < (subtractReadiness t.w.active.ready rule).data.length
    rw [length_subtractReadiness]
    exact List.length_pos_iff.2 hready
  · rw [hnotify.memoryBits, hkept.frame.memoryBits]
    rfl
  · intro l hl
    rw [hready', hkept.ports l hl]
    exact test_subtractReadiness _ rule l

section Spent

variable {i : RuleId} {u : ProtoAll D} {r : RuleDef} {rule : RunRule D}

theorem Spent.mem (h : Spent P s t i u r rule) : r ∈ P.typelessProtoDef.behaviour.rules :=
  List.mem_of_getElem? h.source

theorem Spent.port (h : Spent P s t i u r rule) {l : LocId}
    (hport : isPortLoc P.typelessProtoDef.locKinds l = true)
    (hl : u.w.active.ready.test l = true) : t.w.active.ready.test l = true := by
  rw [h.ports l (isMemLoc_of_isPortLoc hport), Bool.and_eq_true] at hl
  exact hl.1

/-- No port becomes ready. -/
theorem Spent.readyPorts_le (h : Spent P s t i u r rule) : P.readyPorts u ≤ P.readyPorts t :=
  P.readyPorts_mono fun _ => h.port

/-- One that the rule involves was ready and is not any more. -/
theorem Spent.readyPorts_lt (h : Spent P s t i u r rule) (hs : Standing P infos s)
    (hst : SameInstance s t) (hpos : 1 ≤ maxLocId P.typelessProtoDef)
    (hle : maxLocId P.typelessProtoDef ≤ 63) (hready : t.w.active.ready.data ≠ []) {p : LocId}
    (hp : involved r.actions p) (hmem : isMemLoc P.typelessProtoDef.locKinds p = false) :
    P.readyPorts u < P.readyPorts t := by
  have hport := (hs.wellFormed r h.mem).isPortLoc hp hmem
  have hguard : rule.guardReady.test p = true := (h.encodes.sets.ready p).2 hp
  have hbefore := hs.ready_of_enabled hst hpos hle hready h.found h.enabled.1 hguard
  refine Count.upTo_lt_upTo (i := p) (fun l hl => ?_)
    (Nat.lt_succ_of_le ((hs.wellFormed r h.mem).le_maxLocId hp)) ?_ ?_
  · rw [Bool.and_eq_true] at hl ⊢
    exact ⟨hl.1, h.port hl.1 hl.2⟩
  · rw [hport, hbefore]
    rfl
  · rw [h.ports p hmem, hguard, Bool.not_true, Bool.and_false, Bool.and_false]

end Spent

/-- A round that fires uses up a ready port at least. -/
theorem Standing.readyPorts_lt (hs : Standing P infos s) (hst : SameInstance s t)
    (hpos : 1 ≤ maxLocId P.typelessProtoDef) (hle : maxLocId P.typelessProtoDef ≤ 63)
    (hports : ∀ r ∈ P.typelessProtoDef.behaviour.rules,
      ∃ l, involved r.actions l ∧ isMemLoc P.typelessProtoDef.locKinds l = false)
    (hready : t.w.active.ready.data ≠ []) {i : RuleId} {u : ProtoAll D} (h : FiredPass t i u) :
    SameInstance s u ∧ u.w.active.ready.data ≠ [] ∧ P.readyPorts u < P.readyPorts t := by
  obtain ⟨r, rule, hspent⟩ := hs.spent_of_firedPass hst hready h
  obtain ⟨p, hp, hmem⟩ := hports r hspent.mem
  exact ⟨hspent.same, hspent.nonempty,
    hspent.readyPorts_lt hs hst hpos hle hready hp hmem⟩

end

/-! ## The loop -/

/-- Fuel that runs out was spent on rounds that fired. -/
theorem reach_of_exhaustRules_false {fuel : Nat} {s t : ProtoAll D}
    (h : (exhaustRules fuel).run s = .ok false t) :
    ∃ is, Run.Reach FiredPass s is t ∧ is.length = fuel := by
  induction fuel generalizing s with
  | zero =>
      cases h
      exact ⟨[], .refl, rfl⟩
  | succ fuel ih =>
      rw [exhaustRules] at h
      obtain ⟨fin, u, hpass, h⟩ := Effect.ok_of_bind_ok h
      cases fin with
      | quiet => cases h
      | committed i => cases h
      | fired i =>
          obtain ⟨is, hreach, hlen⟩ := ih h
          exact ⟨is ++ [i], .head hpass hreach, by simp [hlen]⟩

/-- A scan in which the bits allow no rule. -/
theorem tryRules_quiet {s : ProtoAll D} :
    ∀ {rules : List (RunRule D)} (n : RuleId), (∀ rule ∈ rules, rule.tempMems = []) →
      (∀ rule ∈ rules, isReady s.w.memoryBits s.w.active.ready rule = false) →
        (tryRules n rules).run s = .ok .quiet s
  | [], _, _, _ => rfl
  | rule :: rules, n, htemps, hnone => by
      rw [run_tryRules_cons (htemps rule List.mem_cons_self),
        if_neg (by rw [hnone rule List.mem_cons_self]; exact Bool.false_ne_true)]
      exact tryRules_quiet (n + 1) (fun r hr => htemps r (List.mem_cons_of_mem rule hr))
        fun r hr => hnone r (List.mem_cons_of_mem rule hr)

/-- The loop, begun in `s`, fires `n` rules at most: it has nothing left to do
after that many, and so cannot fail in another firing. What it fires is the
first enabled rule each time, and the fuel it is given does not run out. -/
structure ExhaustsWithin (n : Nat) (s : ProtoAll D) : Prop where
  bounded : ∀ is t, Run.Reach FiredPass s is t → is.length ≤ n
  spent : ∀ is t, Run.Reach FiredPass s is t → is.length = n → exhaustPass.run t = .ok .quiet t
  first : ∀ is t, Run.Reach FiredPass s is t → ∀ i u, FiredPass t i u → FirstEnabled t i
  ends : ∀ fuel, n < fuel → ∀ t, (exhaustRules fuel).run s ≠ .ok false t

/-- Where every rule involves a port and the ids fit in a chunk, the loop fires
at most as many rules as there are ready ports, in any state the instance may
come to in which something is ready. -/
theorem exhaustsWithin_readyPorts (P : Proto D) {b b' : Build D} {s : ProtoAll D}
    (hfin : (finish P).run b = .ok s b') (hpos : 1 ≤ maxLocId P.typelessProtoDef)
    (hle : maxLocId P.typelessProtoDef ≤ 63)
    (hports : ∀ r ∈ P.typelessProtoDef.behaviour.rules,
      ∃ l, involved r.actions l ∧ isMemLoc P.typelessProtoDef.locKinds l = false)
    {t : ProtoAll D} (hst : SameInstance s t) (hready : ∃ l, t.w.active.ready.test l = true) :
    ExhaustsWithin (P.readyPorts t) t := by
  obtain ⟨infos, hs⟩ := (built_of_finish hfin).standing
  have hnonempty : t.w.active.ready.data ≠ [] := by
    obtain ⟨l, hl⟩ := hready
    exact List.length_pos_iff.1 (Nat.zero_lt_of_lt (BitSet.lt_length_of_test hl))
  have htemps : ∀ {u : ProtoAll D}, SameInstance s u → ∀ rule ∈ u.r.rules, rule.tempMems = [] := by
    intro u hu
    rw [hu.rules]
    exact hs.tempMems
  have hcost : ∀ {is u}, Run.Reach FiredPass t is u →
      (SameInstance s u ∧ u.w.active.ready.data ≠ []) ∧
        is.length + P.readyPorts u ≤ P.readyPorts t := fun hr =>
    hr.length_add_le P.readyPorts (I := fun u => SameInstance s u ∧ u.w.active.ready.data ≠ [])
      (fun hu hpass => by
        obtain ⟨hv, hne, hlt⟩ := hs.readyPorts_lt hu.1 hpos hle hports hu.2 hpass
        exact ⟨⟨hv, hne⟩, hlt⟩) ⟨hst, hnonempty⟩
  have hbounded : ∀ is u, Run.Reach FiredPass t is u → is.length ≤ P.readyPorts t :=
    fun is u hr => Nat.le_trans (Nat.le_add_right _ _) (hcost hr).2
  refine ⟨hbounded, ?_, ?_, ?_⟩
  · intro is u hr hlen
    obtain ⟨⟨hu, hne⟩, hle'⟩ := hcost hr
    have hzero : P.readyPorts u = 0 := by omega
    have hnone : ∀ rule ∈ u.r.rules, isReady u.w.memoryBits u.w.active.ready rule = false := by
      intro rule hrule
      obtain ⟨i, hi⟩ := List.getElem?_of_mem hrule
      have hi' := hi
      rw [hu.rules] at hi'
      obtain ⟨r, hr', henc⟩ := hs.rule_at hi'
      obtain ⟨p, hp, hmem⟩ := hports r hr'
      cases henabled : isReady u.w.memoryBits u.w.active.ready rule with
      | false => rfl
      | true =>
          have hset := hs.ready_of_enabled hu hpos hle hne hi henabled ((henc.sets.ready p).2 hp)
          have hat := Count.upTo_eq_zero.1 hzero p
            (Nat.lt_succ_of_le ((hs.wellFormed r hr').le_maxLocId hp))
          rw [(hs.wellFormed r hr').isPortLoc hp hmem, hset] at hat
          cases hat
    rw [exhaustPass, EStateM.run_bind, EStateM.run_get]
    exact tryRules_quiet 0 (htemps hu) hnone
  · intro is u hr i v hpass
    exact (hpass.cases (htemps (hcost hr).1.1)).1
  · intro fuel hlt u hrun
    obtain ⟨is, hr, hlen⟩ := reach_of_exhaustRules_false hrun
    have := hbounded is u hr
    omega

/-- As a put into a cell enters: one port is ready, so one rule may be fired,
and is, and not a second. -/
theorem exhaustsWithin_link : ∃ s b h t u,
    (finish (link .memUninitialized .true 1)).run (.new .empty) = .ok s b ∧
    Run.Reach Coordination.Step (.start s) h t ∧ t.locked = true ∧ FiredPass t.proto 0 u ∧
    ExhaustsWithin 1 t.proto := by
  obtain ⟨s, b, t, u, hfin, hrun, hlock, hset, hpass, -⟩ := link_reach_fire
  obtain ⟨infos, hs⟩ := (built_of_finish hfin).standing
  have hone : (link .memUninitialized .true 1).readyPorts t.proto = 1 := by
    have hmax : maxLocId (link .memUninitialized .true 1).typelessProtoDef = 1 := by decide
    have hkinds : ∀ l < 2, isPortLoc (link .memUninitialized .true 1).typelessProtoDef.locKinds l =
        decide (l = 0) := by decide
    rw [Proto.readyPorts, hmax]
    simp [Count.upTo, List.range_succ, hkinds, hset]
  refine ⟨s, b, _, t, u.proto, hfin, hrun, hlock, hpass, ?_⟩
  have hwithin := exhaustsWithin_readyPorts (link .memUninitialized .true 1) hfin (by decide)
    (by decide) ?_ (Coordination.reach_sameInstance hs hrun) ⟨0, hset⟩
  · rwa [hone] at hwithin
  · intro r hr
    obtain rfl := List.mem_singleton.1 hr
    exact ⟨0, ⟨_, List.mem_singleton_self _, .inl rfl⟩, by decide⟩

end ReoRs
