import ReoRs.Proofs.Robust

/-!
# One pass over the rules

`PassResult` is everything `exhaustPass` can do in a protocol without port
groups: find no rule enabled, fire the first enabled one, or panic, in a guard
or in a firing. Whatever it does, it does to the spaces' contents, the memory
and the readiness only; `Frame` is the rest.
-/

namespace ReoRs

variable {D : Type}

open Effect (Keeps keeps_zoom)

/-! ## What no action touches -/

/-- The parts of the state an action leaves alone. -/
structure Frame (s t : ProtoAll D) : Prop where
  rules : t.r.rules = s.r.rules
  shapes : t.shapes = s.shapes
  memoryBits : t.w.memoryBits = s.w.memoryBits
  commitment : t.w.commitment = s.w.commitment
  readyTentative : t.w.readyTentative = s.w.readyTentative
  awaitingStates : t.w.awaitingStates = s.w.awaitingStates
  readyLength : s.w.active.ready.data.length ≤ t.w.active.ready.data.length

namespace Frame

theorem refl (s : ProtoAll D) : Frame s s := ⟨rfl, rfl, rfl, rfl, rfl, rfl, Nat.le_refl _⟩

theorem trans {s t u : ProtoAll D} (h : Frame s t) (k : Frame t u) : Frame s u where
  rules := k.rules.trans h.rules
  shapes := k.shapes.trans h.shapes
  memoryBits := k.memoryBits.trans h.memoryBits
  commitment := k.commitment.trans h.commitment
  readyTentative := k.readyTentative.trans h.readyTentative
  awaitingStates := k.awaitingStates.trans h.awaitingStates
  readyLength := Nat.le_trans h.readyLength k.readyLength

theorem ungrouped {s t : ProtoAll D} (h : Frame s t) (hs : s.Ungrouped) : t.Ungrouped :=
  ⟨h.commitment.trans hs.commitment, h.readyTentative.trans hs.readyTentative,
    h.awaitingStates.trans hs.awaitingStates⟩

theorem mapSpace {s t : ProtoAll D} (h : Frame s t) {f : Space D → Space D}
    (hf : ∀ sp, (f sp).shape = sp.shape) (id : LocId) : Frame s (t.mapSpace id f) :=
  { h with shapes := (ProtoAll.shapes_mapSpace hf t id).trans h.shapes }

theorem setPtr {s t : ProtoAll D} (h : Frame s t) (id : LocId) (q : Ptr) :
    Frame s (t.setPtr id q) :=
  { h with shapes := (ProtoAll.shapes_setPtr t id q).trans h.shapes }

theorem setDropbox {s t : ProtoAll D} (h : Frame s t) (id : LocId) (m : Option Nat) :
    Frame s (t.setDropbox id m) :=
  { h with shapes := (ProtoAll.shapes_setDropbox t id m).trans h.shapes }

theorem setReady {s t : ProtoAll D} (h : Frame s t) (id : LocId) (v : Bool) :
    Frame s (t.setReady id v) :=
  { h with readyLength := Nat.le_trans h.readyLength (BitSet.length_le_setTo _ id v) }

theorem mapMemRefs {s t : ProtoAll D} (h : Frame s t) (f : HashMap Ptr Nat → HashMap Ptr Nat) :
    Frame s (t.mapMemRefs f) := { h with }

theorem putMem {s t : ProtoAll D} (h : Frame s t) (m : Mem D) :
    Frame s (ProtoAll.putMem m t) := { h with }

end Frame

section Keeps

variable {s : ProtoAll D}

theorem robust_frame : Robust (fun _ => True) (Frame s) where
  setPtr h _ q := h.setPtr _ q
  setReady h _ v := h.setReady _ v
  setDropbox h l m := h.setDropbox l m
  beginHandOff h l n d :=
    h.mapSpace (f := Space.mapPutter (·.beginHandOff n d)) (Space.shape_mapPutter fun _ => rfl) l
  mapMemRefs h f := h.mapMemRefs f
  store _ _ _ _ := keeps_zoom (fun m _ h => h.putMem m) _
  dispose _ _ _ := keeps_zoom (fun m _ h => h.putMem m) _

theorem keeps_send (id : LocId) (msg : Nat) : Keeps (Frame s) (send (D := D) id msg) :=
  robust_frame.send id msg

theorem keeps_makeEmpty (drop : Bool) (id : LocId) :
    Keeps (Frame s) (makeEmpty (D := D) drop id) :=
  robust_frame.makeEmpty drop trivial

theorem keeps_feedMemory (putter : LocId) (mg pg : List LocId) :
    Keeps (Frame s) (feedMemory (D := D) putter mg pg) :=
  robust_frame.feedMemory (fun _ _ _ => trivial) (fun _ _ _ _ => trivial) pg

theorem keeps_releasePutter (putter : LocId) (mg : List LocId) :
    Keeps (Frame s) (releasePutter (D := D) putter mg) :=
  robust_frame.releasePutter fun _ _ _ _ => trivial

theorem keeps_callGetters (putter : LocId) (disableMove : Bool) (pg : List LocId) :
    Keeps (Frame s) (callGetters (D := D) putter disableMove pg) :=
  robust_frame.callGetters putter disableMove pg

theorem keeps_fire (rule : RunRule D) : Keeps (Frame s) rule.fire :=
  robust_frame.fire rule

end Keeps

/-! ## A pass -/

/-- The bits allow the rule, and so does its guard. -/
def Enabled (s : ProtoAll D) (rule : RunRule D) : Prop :=
  isReady s.w.memoryBits s.w.active.ready rule = true ∧ evalFormula s rule.guardPred = .ok true

/-- The state a rule's actions are performed in: memory bits assigned,
readiness taken away. -/
def ProtoAll.prepare (s : ProtoAll D) (rule : RunRule D) : ProtoAll D :=
  { s with w := { s.w with
      memoryBits := assignMemoryBits s.w.memoryBits rule
      active := { s.w.active with ready := subtractReadiness s.w.active.ready rule } } }

/-- What a pass comes to. -/
inductive PassResult (s : ProtoAll D) : EStateM.Result Fault (ProtoAll D) PassEnd → Prop where
  | quiet (hnone : ∀ rule ∈ s.r.rules, ¬ Enabled s rule) : PassResult s (.ok .quiet s)
  | fired {i : RuleId} {rule : RunRule D} {t : ProtoAll D} (hrule : s.r.rules[i]? = some rule)
      (henabled : Enabled s rule) (hfire : rule.fire.run (s.prepare rule) = .ok () t) :
      PassResult s (.ok (.fired i) t)
  | guardFault {i : RuleId} {rule : RunRule D} {e : Fault} (hrule : s.r.rules[i]? = some rule)
      (hready : isReady s.w.memoryBits s.w.active.ready rule = true)
      (hguard : evalFormula s rule.guardPred = .error e) : PassResult s (.error e s)
  | fireFault {i : RuleId} {rule : RunRule D} {e : Fault} {t : ProtoAll D}
      (hrule : s.r.rules[i]? = some rule) (henabled : Enabled s rule)
      (hfire : rule.fire.run (s.prepare rule) = .error e t) : PassResult s (.error e t)

theorem run_reading_ok {α : Type} {x : ProtoAll D → Except Fault α} {s : ProtoAll D} {a : α}
    (h : x s = .ok a) : (reading x).run s = .ok a s := by
  show (get >>= _ : Proc D α).run s = _
  rw [EStateM.run_bind, EStateM.run_get]
  simp only [h]
  rfl

theorem run_reading_error {α : Type} {x : ProtoAll D → Except Fault α} {s : ProtoAll D}
    {e : Fault} (h : x s = .error e) : (reading x).run s = .error e s := by
  show (get >>= _ : Proc D α).run s = _
  rw [EStateM.run_bind, EStateM.run_get]
  simp only [h]
  rfl

theorem run_notifyStateWaiters {s : ProtoAll D} (hs : s.Ungrouped) :
    notifyStateWaiters.run s = .ok () s := by
  have hw := hs.awaitingStates
  rw [notifyStateWaiters, EStateM.run_bind, EStateM.run_get]
  simp only [hw, notifyWaiters, EStateM.run_modify, ProtoAll.setAwaitingStates]
  congr 1
  rw [← hw]

/-- Without tentative ports there is nothing to commit to. -/
theorem run_fireRule_of_none {s : ProtoAll D}
    (hnone : s.w.active.ready.iterAnd s.w.readyTentative = []) (i : RuleId) (rule : RunRule D) :
    (fireRule i rule).run s =
      (rule.fire >>= fun _ => notifyStateWaiters >>= fun _ => pure (.fired i)).run
        (s.prepare rule) := by
  rw [fireRule, EStateM.run_bind, EStateM.run_get]
  simp only [hnone]
  rfl

/-- A rule whose turn it is is then fired at once. -/
theorem run_fireRule {s : ProtoAll D} (hs : s.Ungrouped) (i : RuleId) (rule : RunRule D) :
    (fireRule i rule).run s = match rule.fire.run (s.prepare rule) with
      | .ok () t => .ok (.fired i) t
      | .error e t => .error e t := by
  have hnone : s.w.active.ready.iterAnd s.w.readyTentative = [] := by
    rw [hs.readyTentative, BitSet.iterAnd_empty]
  have hprep : (s.prepare rule).Ungrouped := ⟨hs.commitment, hs.readyTentative, hs.awaitingStates⟩
  rw [run_fireRule_of_none hnone, EStateM.run_bind]
  cases hfire : rule.fire.run (s.prepare rule) with
  | error e t => rfl
  | ok a t =>
      have ht : t.Ungrouped :=
        ((keeps_fire rule).of_ok (Frame.refl (s.prepare rule)) hfire).ungrouped hprep
      exact Effect.run_bind_of_ok (run_notifyStateWaiters ht)

/-- One rule of the scan, in a protocol without temporary memories. -/
theorem run_tryRules_cons {rule : RunRule D} (htemp : rule.tempMems = []) (s : ProtoAll D)
    (n : RuleId) (rest : List (RunRule D)) :
    (tryRules n (rule :: rest)).run s =
      if isReady s.w.memoryBits s.w.active.ready rule then
        match evalFormula s rule.guardPred with
        | .error e => .error e s
        | .ok true => (fireRule n rule).run s
        | .ok false => (tryRules (n + 1) rest).run s
      else (tryRules (n + 1) rest).run s := by
  have htemps : (buildTemps rule).run s = .ok () s := by
    rw [buildTemps, htemp, Effect.run_forEach_nil]
  have huntemps : (unbuildTemps rule).run s = .ok () s := by
    rw [unbuildTemps, htemp, Effect.run_forEach_nil]
  rw [tryRules, EStateM.run_bind, EStateM.run_get]
  by_cases hready : isReady s.w.memoryBits s.w.active.ready rule = true
  · simp only [hready, if_true]
    rw [Effect.run_bind_of_ok htemps]
    cases hguard : evalFormula s rule.guardPred with
    | error e => rw [Effect.run_bind_of_error (run_reading_error hguard)]
    | ok pass =>
        rw [Effect.run_bind_of_ok (run_reading_ok hguard)]
        cases pass with
        | true => rw [if_pos rfl]
        | false => rw [if_neg (by simp), Effect.run_bind_of_ok huntemps]
  · simp only [hready]
    rfl

theorem tryRules_result {s : ProtoAll D} (hs : s.Ungrouped)
    (htemps : ∀ rule ∈ s.r.rules, rule.tempMems = []) :
    ∀ (rest done : List (RunRule D)), s.r.rules = done ++ rest →
      (∀ rule ∈ done, ¬ Enabled s rule) →
        PassResult s ((tryRules done.length rest).run s) := by
  intro rest
  induction rest with
  | nil =>
      intro done hall hdone
      rw [List.append_nil] at hall
      exact .quiet fun rule hrule => hdone rule (hall ▸ hrule)
  | cons rule rest ih =>
      intro done hall hdone
      have hrule : s.r.rules[done.length]? = some rule := by simp [hall]
      have hnext : ¬ Enabled s rule →
          PassResult s ((tryRules (done.length + 1) rest).run s) := by
        intro hnot
        have := ih (done ++ [rule]) (by simp [hall]) (by
          intro r hr
          rcases List.mem_append.1 hr with hr | hr
          · exact hdone r hr
          · exact List.mem_singleton.1 hr ▸ hnot)
        rwa [List.length_append, List.length_singleton] at this
      rw [run_tryRules_cons (htemps rule (by simp [hall]))]
      by_cases hready : isReady s.w.memoryBits s.w.active.ready rule = true
      · rw [if_pos hready]
        cases hguard : evalFormula s rule.guardPred with
        | error e => exact .guardFault hrule hready hguard
        | ok pass =>
            cases pass with
            | true =>
                dsimp only
                rw [run_fireRule hs]
                cases hfire : rule.fire.run (s.prepare rule) with
                | ok a t => exact .fired hrule ⟨hready, hguard⟩ hfire
                | error e t => exact .fireFault hrule ⟨hready, hguard⟩ hfire
            | false =>
                refine hnext fun h => ?_
                have := h.2.symm.trans hguard
                cases this
      · rw [if_neg hready]
        exact hnext fun h => hready h.1

theorem exhaustPass_result {s : ProtoAll D} (hs : s.Ungrouped)
    (htemps : ∀ rule ∈ s.r.rules, rule.tempMems = []) :
    PassResult s (exhaustPass.run s) := by
  rw [exhaustPass, EStateM.run_bind, EStateM.run_get]
  exact tryRules_result hs htemps s.r.rules [] rfl (by simp)

/-- Without a commitment to wait for, `exhaust_rules` always follows. -/
theorem run_readySet {s : ProtoAll D} (hs : s.Ungrouped) (id : LocId) :
    (readySet id).run s = .ok true (s.setReady id true) := by
  have hc : (s.setReady id true).w.commitment = none := hs.commitment
  rw [readySet, EStateM.run_bind, EStateM.run_modify]
  simp only [EStateM.run_bind, EStateM.run_get, hc]
  rfl

end ReoRs
