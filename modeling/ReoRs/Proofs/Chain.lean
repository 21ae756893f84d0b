import ReoRs.Proofs.Networks
import ReoRs.Proofs.SyncChannel

/-!
# A chain of channels

The values put at the one end of a chain of synchronous channels come out at
the other in order, and every put is told that its value moved. The channels
have no conflicts, so one interleaving is looked at: the values go down the
chain one after another, and a value goes from channel to channel. In between
all channels are as they were at first.
-/

namespace ReoRs

variable {D R : Type}

theorem sync_conflictFree (info : TypeInfo D) : ConflictFree (syncProto info) where
  unguarded := by
    intro r hr
    obtain rfl := sync_rules hr
    rfl
  rules := List.pairwise_singleton _ _

/-! ## One value at one channel -/

namespace Automaton

theorem sync_handOver (info : TypeInfo D) (v : Datum D) : ∃ A₁ A₂ A₃ A₄ : Automaton D,
    Move (syncProto info) .start (.call 0 (.put v)) A₁ ∧
    Move (syncProto info) A₁ (.call 1 .get) A₂ ∧ Move (syncProto info) A₂ (.fire 0) A₃ ∧
    Move (syncProto info) A₃ (.ret 0 .moved) A₄ ∧
    Move (syncProto info) A₄ (.ret 1 (.got (some v))) .start := by
  have hm₀ : isMemLoc syncDef.locKinds 0 = false := by decide
  have hm₁ : isMemLoc syncDef.locKinds 1 = false := by decide
  have hk₀ : syncDef.locKinds.lookup 0 = some .portPutter := by decide
  have hk₁ : syncDef.locKinds.lookup 1 = some .portGetter := by decide
  have ha : (⟨0, [1]⟩ : ActionDef) ∈ [(⟨0, [1]⟩ : ActionDef)] := List.mem_singleton_self _
  let A₂ : Automaton D := (start.setPort 0 (.pending (.put v))).setPort 1 (.pending .get)
  have hp₀ : A₂.ports 0 = .pending (.put v) :=
    (setPort_ne _ (by decide : (0 : LocId) ≠ 1)).trans (setPort_self 0 _)
  have hp₁ : A₂.ports 1 = .pending .get := setPort_self 1 _
  have henabled : A₂.Enabled syncDef.locKinds [⟨0, [1]⟩] := by
    intro a ha
    obtain rfl := List.mem_singleton.1 ha
    refine ⟨?_, fun g hg => ?_⟩
    · rw [offered_port hm₀ hp₀]
      exact Option.some_ne_none v
    · obtain rfl := List.mem_singleton.1 hg
      exact (accepts_port hm₁).2 ⟨_, hp₁, rfl⟩
  have hq₀ : (A₂.fire syncDef.locKinds [⟨0, [1]⟩]).ports 0 = .settled .moved := by
    rw [fire_ports_putter hp₀ ha rfl (by simp)]
    simp [takes, hm₁, hp₁, PortCall.wantsData, PortCall.putAnswer]
  have hq₁ : (A₂.fire syncDef.locKinds [⟨0, [1]⟩]).ports 1 = .settled (.got (some v)) := by
    rw [fire_ports_getter hp₁ ha (by simp) (by simp) (by simp), offered_port hm₀ hp₀]
    rfl
  refine ⟨_, A₂, _, _, .call rfl hk₀, .call rfl hk₁, .fire rfl henabled, .ret hq₀, ?_⟩
  have hlast : Move (syncProto info)
      ((A₂.fire syncDef.locKinds [⟨0, [1]⟩]).setPort 0 .idle) (.ret 1 (.got (some v))) _ :=
    .ret ((setPort_ne _ (by decide : (1 : LocId) ≠ 0)).trans hq₁)
  have hstart : ((A₂.fire syncDef.locKinds [⟨0, [1]⟩]).setPort 0 .idle).setPort 1 .idle =
      .start := by
    refine ext_of (fun l => ?_) fun l => ?_
    · have hl : isMemLoc syncDef.locKinds l = false := by
        rw [isMemLoc, Option.any_eq_false]
        intro k hk
        have hall : ∀ e ∈ syncDef.locKinds.pairs, e.2.isMem = false := by decide
        exact hall _ (mem_pairs.2 hk)
      exact fire_cells_port hl
    · by_cases h₁ : l = 1
      · rw [h₁, setPort_self]
        rfl
      rw [setPort_ne _ h₁]
      by_cases h₀ : l = 0
      · rw [h₀, setPort_self]
        rfl
      rw [setPort_ne _ h₀]
      refine fire_ports_idle ?_
      rw [setPort_ne _ h₁, setPort_ne _ h₀]
      rfl
  rwa [hstart] at hlast

end Automaton

namespace Automata

open Automaton

section

variable {ι τ : Type} [DecidableEq ι] [DecidableEq τ] {P : ι → Proto D} {owner : ι → LocId → τ}
  {programs : τ → Program ι D R} {f : ι → Automaton D} {i : ι} {a : Act D} {A B : Automaton D}

theorem Step.of_move (hnext : Offers owner programs i a) (hmove : Move (P i) A a B) :
    Step P owner ⟨Function.update f i A, programs⟩ (i, a)
      ⟨Function.update f i B, after owner programs i a⟩ := by
  have hat : Move (P i) (Function.update f i A i) a B := by rwa [Function.update_self]
  have hstep : Step P owner ⟨Function.update f i A, programs⟩ (i, a) _ := .mk hnext hat
  rwa [Function.update_idem] at hstep

end

variable (info : TypeInfo D) {programs : Nat → Program Nat D R} {i : Nat} {v : Datum D}
  {next next' : Answer D → Program Nat D R}

/-- A value goes from the thread before the channel to the one after it. -/
theorem reach_handOver (hput : programs i = .call i 0 (.put v) next)
    (hget : programs (i + 1) = .call i 1 .get next') :
    ∃ g, Run.Reach (Step (fun _ => syncProto info) chainOwner) (start programs) g
      (start (Function.update (Function.update programs i (next .moved)) (i + 1)
        (next' (.got (some v))))) ∧ g.countP (fun x => x.2.isCall) = 2 := by
  obtain ⟨A₁, A₂, A₃, A₄, h₁, h₂, h₃, h₄, h₅⟩ := sync_handOver info v
  have hput : programs (chainOwner i 0) = .call i 0 (.put v) next := hput
  have hget : programs (chainOwner i 1) = .call i 1 .get next' := hget
  have hget' : Function.update programs i (next .moved) (chainOwner i 1) =
      .call i 1 .get next' := (Function.update_of_ne (Nat.succ_ne_self i) _ _).trans hget
  have hfirst : after chainOwner programs i (.ret 0 .moved) =
      Function.update programs i (next .moved) := by
    rw [after, hput]
    rfl
  have hlast : after chainOwner (Function.update programs i (next .moved)) i
      (.ret 1 (.got (some v))) = Function.update (Function.update programs i (next .moved)) (i + 1)
        (next' (.got (some v))) := by
    rw [after, hget']
    rfl
  have ho₁ : Offers chainOwner programs i (.call 0 (.put v)) := ⟨next, hput⟩
  have ho₂ : Offers chainOwner programs i (.call 1 (.get : PortCall D)) := ⟨next', hget⟩
  have ho₄ : Offers chainOwner programs i (.ret 0 (.moved : Answer D)) := ⟨_, next, hput⟩
  have ho₅ : Offers chainOwner (Function.update programs i (next .moved)) i
      (.ret 1 (.got (some v))) := ⟨_, next', hget'⟩
  let during (A : Automaton D) : Nat → Automaton D := Function.update (fun _ => .start) i A
  have hat : during .start = fun _ => .start := Function.update_eq_self i _
  have hs₁ : Step (fun _ => syncProto info) chainOwner ⟨during .start, programs⟩
      (i, .call 0 (.put v)) ⟨during A₁, programs⟩ := .of_move ho₁ h₁
  have hs₂ : Step (fun _ => syncProto info) chainOwner ⟨during A₁, programs⟩
      (i, .call 1 .get) ⟨during A₂, programs⟩ := .of_move ho₂ h₂
  have hs₃ : Step (fun _ => syncProto info) chainOwner ⟨during A₂, programs⟩
      (i, .fire 0) ⟨during A₃, programs⟩ := .of_move trivial h₃
  have hs₄ : Step (fun _ => syncProto info) chainOwner ⟨during A₃, programs⟩
      (i, .ret 0 .moved) ⟨during A₄, _⟩ := .of_move ho₄ h₄
  rw [hfirst] at hs₄
  have hs₅ : Step (fun _ => syncProto info) chainOwner
      ⟨during A₄, Function.update programs i (next .moved)⟩
      (i, .ret 1 (.got (some v))) ⟨during .start, _⟩ := .of_move ho₅ h₅
  rw [hlast, hat] at hs₅
  rw [hat] at hs₁
  exact ⟨_, ((((Run.Reach.single hs₁).tail hs₂).tail hs₃).tail hs₄).tail hs₅, rfl⟩

end Automata

/-! ## One value down the chain -/

section Chain

variable (m : Nat) (seen : List (Datum D)) (v : Datum D) (vs : List (Datum D)) {i k : Nat}

/-- The thread with the value in its hands. -/
def holding : Nat → Program Nat D (Option (List (Datum D)))
  | 0 => putAll 0 (v :: vs)
  | k + 1 => .call (k + 1) 0 (.put v) fun
      | .moved => forwardAll k (k + 1) vs.length (seen ++ [v])
      | _ => .done none

/-- The value has come to thread `i`. -/
def midway (i k : Nat) : Program Nat D (Option (List (Datum D))) :=
  if k < i then chainAt m (seen ++ [v]) vs k
  else if k = i then holding seen v vs i
  else chainAt m seen (v :: vs) k

theorem midway_zero : midway m seen v vs 0 = chainAt m seen (v :: vs) := by
  funext k
  rw [midway, if_neg (Nat.not_lt_zero k)]
  split
  · next hk =>
      rw [hk]
      rfl
  · rfl

variable {m}

theorem exists_put (hi : i ≤ m) : ∃ next, midway m seen v vs i i = .call i 0 (.put v) next ∧
    next .moved = chainAt m (seen ++ [v]) vs i := by
  rw [midway, if_neg (Nat.lt_irrefl i), if_pos rfl]
  cases i with
  | zero => exact ⟨_, rfl, rfl⟩
  | succ k =>
      refine ⟨_, rfl, ?_⟩
      rw [chainAt, if_pos (Nat.lt_of_succ_le hi)]

theorem midway_succ : midway m seen v vs i (i + 1) = chainAt m seen (v :: vs) (i + 1) := by
  rw [midway, if_neg (Nat.not_lt.2 (Nat.le_succ i)), if_neg (Nat.succ_ne_self i)]

theorem exists_get (hi : i < m) :
    ∃ next, midway m seen v vs i (i + 1) = .call i 1 .get next ∧
      next (.got (some v)) = holding seen v vs (i + 1) := by
  rw [midway_succ, chainAt, if_pos hi]
  exact ⟨_, rfl, rfl⟩

theorem exists_last : ∃ next, midway m seen v vs m (m + 1) = .call m 1 .get next ∧
    next (.got (some v)) = chainAt m (seen ++ [v]) vs (m + 1) := by
  rw [midway_succ, chainAt, chainAt, if_neg (Nat.lt_irrefl m), if_pos rfl,
    if_neg (Nat.lt_irrefl m), if_pos rfl]
  exact ⟨_, rfl, rfl⟩

theorem midway_next : Function.update (Function.update (midway m seen v vs i) i
    (chainAt m (seen ++ [v]) vs i)) (i + 1) (holding seen v vs (i + 1)) =
      midway m seen v vs (i + 1) := by
  funext k
  rcases Nat.lt_trichotomy k (i + 1) with hk | rfl | hk
  · rw [Function.update_of_ne (Nat.ne_of_lt hk), midway, if_pos hk]
    rcases Nat.lt_succ_iff_lt_or_eq.1 hk with hki | rfl
    · rw [Function.update_of_ne (Nat.ne_of_lt hki), midway, if_pos hki]
    · rw [Function.update_self]
  · rw [Function.update_self, midway, if_neg (Nat.lt_irrefl _), if_pos rfl]
  · have hki : i < k := Nat.lt_of_succ_lt hk
    rw [Function.update_of_ne (Nat.ne_of_gt hk), Function.update_of_ne (Nat.ne_of_gt hki), midway,
      midway, if_neg (Nat.lt_asymm hki), if_neg (Nat.ne_of_gt hki), if_neg (Nat.lt_asymm hk),
      if_neg (Nat.ne_of_gt hk)]

theorem midway_end : Function.update (Function.update (midway m seen v vs m) m
    (chainAt m (seen ++ [v]) vs m)) (m + 1) (chainAt m (seen ++ [v]) vs (m + 1)) =
      chainAt m (seen ++ [v]) vs := by
  funext k
  by_cases hlast : k = m + 1
  · rw [hlast, Function.update_self]
  rw [Function.update_of_ne hlast]
  by_cases hm : k = m
  · rw [hm, Function.update_self]
  rw [Function.update_of_ne hm, midway]
  split
  · rfl
  · next hk =>
      -- nobody is there
      obtain ⟨j, rfl⟩ : ∃ j, k = j + 1 := Nat.exists_eq_succ_of_ne_zero (by omega)
      rw [chainAt, chainAt, if_neg (by omega), if_neg (by omega), if_neg (by omega),
        if_neg (by omega)]

end Chain

namespace Automata

variable (info : TypeInfo D) {m : Nat}

/-- A value comes to the last thread but one. -/
theorem reach_midway (seen : List (Datum D)) (v : Datum D) (vs : List (Datum D)) :
    ∀ i, i ≤ m → ∃ g, Run.Reach (Step (fun _ => syncProto info) chainOwner)
      (start (chainAt m seen (v :: vs))) g (start (midway m seen v vs i)) ∧
        g.countP (fun x => x.2.isCall) = 2 * i
  | 0, _ => ⟨[], midway_zero m seen v vs ▸ .refl, rfl⟩
  | i + 1, hi => by
      obtain ⟨g, hg, hcalls⟩ := reach_midway seen v vs i (Nat.le_of_succ_le hi)
      obtain ⟨next, hput, hmoved⟩ := exists_put seen v vs (Nat.le_of_succ_le hi)
      obtain ⟨next', hget, hgot⟩ := exists_get seen v vs hi
      obtain ⟨k, hk, htwo⟩ := reach_handOver info hput hget
      rw [hmoved, hgot, midway_next] at hk
      refine ⟨k ++ g, hg.trans hk, ?_⟩
      rw [List.countP_append, htwo, hcalls, Nat.mul_succ, Nat.add_comm]

theorem reach_round (seen : List (Datum D)) (v : Datum D) (vs : List (Datum D)) :
    ∃ g, Run.Reach (Step (fun _ => syncProto info) chainOwner)
      (start (chainAt m seen (v :: vs))) g (start (chainAt m (seen ++ [v]) vs)) ∧
        g.countP (fun x => x.2.isCall) = 2 * (m + 1) := by
  obtain ⟨g, hg, hcalls⟩ := reach_midway info seen v vs m (Nat.le_refl m)
  obtain ⟨next, hput, hmoved⟩ := exists_put seen v vs (Nat.le_refl m)
  obtain ⟨next', hget, hgot⟩ := exists_last (m := m) seen v vs
  obtain ⟨k, hk, htwo⟩ := reach_handOver info hput hget
  rw [hmoved, hgot, midway_end] at hk
  refine ⟨k ++ g, hg.trans hk, ?_⟩
  rw [List.countP_append, htwo, hcalls, Nat.mul_succ, Nat.add_comm]

/-- All values, one after another. -/
theorem reach_all (vs seen : List (Datum D)) :
    ∃ g, Run.Reach (Step (fun _ => syncProto info) chainOwner) (start (chainAt m seen vs)) g
      (start (chainAt m (seen ++ vs) [])) ∧
        g.countP (fun x => x.2.isCall) = 2 * (m + 1) * vs.length := by
  induction vs generalizing seen with
  | nil =>
      rw [List.append_nil]
      exact ⟨[], .refl, rfl⟩
  | cons v vs ih =>
      obtain ⟨g, hg, hcalls⟩ := reach_round info (m := m) seen v vs
      obtain ⟨k, hk, hrest⟩ := ih (seen ++ [v])
      rw [List.append_assoc, List.singleton_append] at hk
      refine ⟨k ++ g, hg.trans hk, ?_⟩
      rw [List.countP_append, hcalls, hrest, List.length_cons]
      exact (Nat.mul_succ _ _).symm

theorem chainAt_nil (seen : List (Datum D)) (k : Nat) : ∃ r, chainAt m seen [] k = .done r := by
  cases k with
  | zero => exact ⟨_, rfl⟩
  | succ k =>
      rw [chainAt]
      split
      · exact ⟨_, rfl⟩
      · split
        · exact ⟨_, rfl⟩
        · exact ⟨_, rfl⟩

theorem chain_stuck (seen : List (Datum D)) :
    Run.Stuck (Step (fun _ => syncProto info) chainOwner) (start (chainAt m seen [])) := by
  rintro _ U ⟨hnext, hmove⟩
  cases hmove with
  | @call p c _ _ =>
      obtain ⟨next, hprogram⟩ := hnext
      obtain ⟨r, hdone⟩ := chainAt_nil (m := m) seen (chainOwner _ p)
      cases hdone.symm.trans hprogram
  | @fire r rule hr henabled =>
      obtain rfl := sync_rules (List.mem_of_getElem? hr)
      have hm₀ : isMemLoc syncDef.locKinds 0 = false := by decide
      obtain ⟨c, hc⟩ := Automaton.exists_pending henabled
        ⟨⟨0, [1]⟩, List.mem_singleton_self _, .inl rfl⟩ hm₀
      cases hc
  | ret hsettled => cases hsettled

end Automata

/-! ## The chain's test -/

theorem putAll_untimed {ι : Type} (i : ι) (vs : List (Datum D)) : (putAll i vs).Untimed := by
  induction vs with
  | nil => exact .done
  | cons v vs ih =>
      refine .call rfl fun a => ?_
      cases a with
      | moved => exact ih
      | observed _ | got _ | timeout _ => exact .done

theorem forwardAll_untimed {ι : Type} (i j : ι) (n : Nat) (seen : List (Datum D)) :
    (forwardAll i j n seen).Untimed := by
  induction n generalizing seen with
  | zero => exact .done
  | succ n ih =>
      refine .call rfl fun a => ?_
      cases a with
      | got v =>
          cases v with
          | none => exact .done
          | some v =>
              refine .call rfl fun a => ?_
              cases a with
              | moved => exact ih (seen ++ [v])
              | observed _ | got _ | timeout _ => exact .done
      | moved | observed _ | timeout _ => exact .done

theorem getAll_untimed {ι : Type} (i : ι) (n : Nat) (seen : List (Datum D)) :
    (getAll i n seen).Untimed := by
  induction n generalizing seen with
  | zero => exact .done
  | succ n ih =>
      refine .call rfl fun a => ?_
      cases a with
      | got v =>
          cases v with
          | none => exact .done
          | some v => exact ih (seen ++ [v])
      | moved | observed _ | timeout _ => exact .done

theorem chain_untimed (m : Nat) (vs : List (Datum D)) (k : Nat) : (chain m vs k).Untimed := by
  cases k with
  | zero => exact putAll_untimed 0 vs
  | succ k =>
      rw [chain, chainAt]
      split
      · exact forwardAll_untimed k (k + 1) vs.length []
      · split
        · exact getAll_untimed m vs.length []
        · exact .done

namespace Network

variable {s₀ : Nat → ProtoAll D}

theorem exists_built_sync (info : TypeInfo D) :
    ∃ s₀ : Nat → ProtoAll D, Built (fun _ => syncProto info) s₀ := by
  obtain ⟨s, b, hfin⟩ := finish_sync info .empty
  exact ⟨fun _ => s, fun _ => ⟨_, b, hfin⟩⟩

/-- However the threads of a chain are interleaved, they are done after at most
thirty-two steps for each value and channel, no assertion fails, and all who
get have got the values that were put, in order. -/
theorem chain_test (info : TypeInfo D) (m : Nat) (vs : List (Datum D))
    (hs₀ : Built (fun _ => syncProto info) s₀) {h : List (Nat × Ports.Act D)}
    {t : Network Nat Nat D (Option (List (Datum D)))}
    (hrun : Run.Reach (Step .actual chainOwner) (start s₀ (chain m vs)) h t) :
    h.length ≤ 32 * ((m + 1) * vs.length) ∧ (Run.Stuck (Step .actual chainOwner) t →
      t.programs 0 = .done (some []) ∧ ∀ k ≤ m, t.programs (k + 1) = .done (some vs)) := by
  obtain ⟨g, hone, hcalls⟩ := Automata.reach_all info (m := m) vs []
  have hend := Automata.chain_stuck info (m := m) ([] ++ vs)
  have hP := fun _ : Nat => sync_plain info
  have hfree := fun _ : Nat => sync_conflictFree info
  constructor
  · have hlen := length_le hs₀ hP hfree (chain_untimed m vs) hone hend hrun
      fun _ => sync_involvesPort info
    rw [hcalls] at hlen
    refine Nat.le_trans hlen (Nat.le_of_eq ?_)
    rw [Nat.mul_assoc, ← Nat.mul_assoc]
  · intro hstuck
    obtain ⟨hprograms, -⟩ := ends_alike hs₀ hP hfree (chain_untimed m vs) hone hend hrun hstuck
    rw [hprograms]
    refine ⟨rfl, fun k hk => ?_⟩
    show chainAt m vs [] (k + 1) = _
    rw [chainAt]
    rcases Nat.lt_or_eq_of_le hk with hlt | heq
    · rw [if_pos hlt]
      rfl
    · rw [if_neg (Nat.not_lt.2 (Nat.le_of_eq heq.symm)), if_pos heq]
      rfl

end Network

/-- The test's two channels and the values 7 and 8. -/
theorem chain_test_two : ∃ s₀ h t, Network.Built (fun _ => syncProto cellInfo) s₀ ∧
    Run.Reach (Network.Step .actual chainOwner) (.start s₀ (chain 1 [.data 7, .data 8])) h t ∧
    Run.Stuck (Network.Step .actual chainOwner) t ∧ h.length ≤ 128 ∧
    t.programs 2 = .done (some [.data 7, .data 8]) := by
  obtain ⟨s₀, hs₀⟩ := Network.exists_built_sync cellInfo
  obtain ⟨h, t, hrun, hstuck⟩ := Run.exists_stuck_of_length_le fun h t hrun =>
    (Network.chain_test cellInfo 1 [.data 7, .data 8] hs₀ (h := h) (t := t) hrun).1
  obtain ⟨hlen, hdone⟩ := Network.chain_test cellInfo 1 [.data 7, .data 8] hs₀ hrun
  exact ⟨s₀, h, t, hs₀, hrun, hstuck, hlen, (hdone hstuck).2 1 (Nat.le_refl 1)⟩

/-- A chain of one channel, and one value. -/
theorem one_run_channel : ∃ s₀ h t, Network.Built (fun _ => syncProto cellInfo) s₀ ∧
    Run.Reach (Network.Step .actual chainOwner) (.start s₀ (chain 0 [.data 7])) h t ∧
    Run.Stuck (Network.Step .actual chainOwner) t ∧ h.length ≤ 32 ∧
    t.programs = chainAt 0 [.data 7] [] := by
  obtain ⟨s₀, hs₀⟩ := Network.exists_built_sync cellInfo
  obtain ⟨g, hone, hcalls⟩ := Automata.reach_all cellInfo (m := 0) [.data 7] []
  have hend := Automata.chain_stuck cellInfo (m := 0) [.data 7]
  have hall := fun h t hrun => Network.one_run (fun _ => syncProto cellInfo) chainOwner hs₀
    (fun _ => sync_plain cellInfo) (fun _ => sync_conflictFree cellInfo)
    (fun _ => sync_involvesPort cellInfo) (chain_untimed 0 [.data 7]) hone hend (h := h) (t := t)
    hrun
  obtain ⟨h, t, hrun, hstuck⟩ := Run.exists_stuck_of_length_le fun h t hrun => (hall h t hrun).2.1
  obtain ⟨-, hlen, hends⟩ := hall h t hrun
  rw [hcalls] at hlen
  exact ⟨s₀, h, t, hs₀, hrun, hstuck, hlen, (hends hstuck).1⟩

end ReoRs
