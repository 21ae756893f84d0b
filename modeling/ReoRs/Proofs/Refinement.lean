import ReoRs.Proofs.Handshake
import ReoRs.Proofs.MatchingFire

/-!
# The ports refine the automaton

Every step of the ports is one the automaton takes too, or one it does not
see. So whatever the calls of a run have been answered, and in whatever order,
they could have been answered so by the rules alone, each firing all at once.
-/

namespace ReoRs

variable {D : Type}

open ProtoAll Coordination

namespace Ports

variable {P : Proto D} {infos : HashMap TypeId (TypeInfo D)} {s t : Ports D}
  {owed : LocId → Nat} {A : Automaton D}

/-- Every step is answered. -/
theorem Step.answered (hs : Standing P infos s.proto) (hone : OneGetter P)
    (hsound : Sound (s.coordination owed)) (htrue : s.holder.isSome = true → Truthful P s.proto)
    (hk : Kept s owed) (h : Matches s A) {a : Act D} (hstep : Step .actual s a t) :
    Answered P A t a.observed := by
  have hself := hone.noSelfPut
  have hclone := hone.fanOutClones
  cases hstep with
  | callPut hidle hspace hdatum => exact h.callPut hs hk hsound hidle hspace hdatum
  | callGet hidle hspace hdatum => exact h.callGet hs hsound hidle hspace hdatum
  | enter hcall hfree hrun =>
      rw [run_readySet hs.ungrouped] at hrun
      cases hrun
      exact h.enter hk hsound hcall
  | @fire p i proto hlock hrun =>
      have hpass := pass_of_run hs hself hclone hsound htrue hlock hrun
      cases hpass with
      | fired hr hrule henc _ hgen hf =>
          exact ⟨_, .fire hr (h.enabled hk hsound henc hgen hf hs),
            h.fired hk hsound henc hgen hf hs hone hr hrule⟩
  | @leave p c ph out fin proto hlock hcall hend hrun =>
      have hpass := pass_of_run hs hself hclone hsound htrue hlock hrun
      cases hpass with
      | @fired i _ _ _ _ _ _ _ _ _ => exact absurd rfl (hend i)
      | quiet =>
          refine h.rephase hk hsound hcall (Phase.callState_afterPass ph) ?_ ?_
            (fun which hret q => Phase.isAt_afterPass hret q ph) ?_
          · rintro q pc rfl
            rfl
          · rintro q rfl
            exact .inr rfl
          · intro hph
            cases ph with
            | expired => exact h.timed p c out hcall
            | entering | coordinating | awaiting | late | acquiring q pc | finalizing q =>
                cases hph
  | @panic p e proto hlock hrun =>
      have hpass := pass_of_run hs hself hclone hsound htrue hlock hrun
      cases hpass with
      | guardFault _ _ => exact h.unlocked
  | expire hcall htimed =>
      refine h.rephase hk hsound hcall rfl ?_ ?_ (fun _ _ _ => rfl) fun _ => htimed
      · rintro q pc ⟨⟩
      · rintro q ⟨⟩
  | withdraw hcall hfree hready => exact h.withdraw hk hsound hcall hready
  | tooLate hcall hfree hready =>
      rw [setReady_false_of_not_ready hready]
      refine h.rephase hk hsound hcall rfl ?_ ?_ (fun _ _ _ => rfl) ?_
      · rintro q pc ⟨⟩
      · rintro q ⟨⟩
      · rintro ⟨⟩
  | putReturn hcall hphase hdatum hmsg hmoved =>
      exact h.putReturn hk hsound hcall hphase hdatum hmsg hmoved
  | receive hcall hphase hdatum hmsg hspace hsource =>
      exact h.receive hk hsound hcall hphase hdatum hmsg ⟨_, hspace, hsource⟩
  | acquire hcall hspace hsource hstep hmoves =>
      exact h.acquire hk hsound hcall ⟨_, hspace, hsource⟩ hstep hmoves
  | finalizePort hcall hspace hrun =>
      obtain rfl := ok_of_send hrun
      exact h.finalizePort hk hsound hcall hspace
  | @finalizeCell p c q m go out sp proto hcall hfree hspace hrun =>
      obtain ⟨v, u, rfl, rfl, -, hemptied, -⟩ := emptied_of_finalize hs hsound hk hcall hspace hrun
      exact h.finalizeCell hk hsound hcall hspace hemptied
  | getReturn hcall => exact h.getReturn hk hsound hcall

/-! ## Runs -/

theorem Matches.start {b : Build D} {s₀ : ProtoAll D} {heap : Heap D} (hun : Uninitialized P)
    (hfin : (finish P).run (.new heap) = .ok s₀ b) : Matches (start s₀) Automaton.start := by
  have hheld := held_start hun hfin
  refine ⟨fun l => (atRest_of_held_none (hheld l)).symm, fun p => .idle rfl, ?_, ?_⟩
  · intro l l' q hl
    cases (hheld l).symm.trans hl
  · rintro p c out ⟨⟩

theorem Matches.idle_iff (h : Matches s A) (p : LocId) : A.ports p = .idle ↔ s.calls p = none := by
  have hp := h.ports p
  refine ⟨fun hidle => ?_, hp.of_idle⟩
  rw [hidle] at hp
  cases hp with
  | idle hcall => exact hcall

/-- Whatever a run of the ports of a protocol in one chunk shows, the automaton
of its rules can do: it makes the same calls, fires the same rules and gives
the same answers, and in the end has the same cells and the same ports in
calls. -/
theorem refines (P : Proto D) {heap : Heap D} {b : Build D} {s₀ : ProtoAll D}
    (hfin : (finish P).run (.new heap) = .ok s₀ b) (hpos : 1 ≤ maxLocId P.typelessProtoDef)
    (hle : maxLocId P.typelessProtoDef ≤ 63) (hun : Uninitialized P) (hone : OneGetter P)
    {h : List (Act D)} (hrun : Run.Reach (Step .actual) (start s₀) h t) :
    ∃ A, Run.Reach (Automaton.Step P) .start (h.filterMap Act.observed) A ∧
      (∀ l, A.cells l = t.proto.atRest l) ∧ ∀ p, A.ports p = .idle ↔ t.calls p = none := by
  have hsim : ∀ {u a v A}, (∃ k, Run.Reach (Step .actual) (start s₀) k u) ∧ Matches u A →
      Step .actual u a v → ∃ k B, Run.Reach (Automaton.Step P) A k B ∧
        k.filterMap some = [a].filterMap Act.observed ∧
          (∃ k, Run.Reach (Step .actual) (start s₀) k v) ∧ Matches v B := by
    rintro u a v A ⟨⟨k, hk⟩, hA⟩ hstep
    obtain ⟨infos, owed, hs, hsound, -, htrue, hkept⟩ :=
      reach_kept hun hone.noSelfPut hone.fanOutClones hpos hle hfin hk
    have hanswer := hstep.answered hs hone hsound htrue hkept hA
    have hv : ∃ k, Run.Reach (Step .actual) (start s₀) k v := ⟨_, hk.tail hstep⟩
    cases ha : a.observed with
    | none =>
        rw [ha] at hanswer
        exact ⟨[], A, .refl, by simp [ha], hv, hanswer⟩
    | some b =>
        rw [ha] at hanswer
        obtain ⟨B, hAB, hB⟩ := hanswer
        exact ⟨[b], B, .single hAB, by simp [ha], hv, hB⟩
  obtain ⟨k, A, hk, hobs, -, hA⟩ := Run.Reach.simulate Act.observed some
    (R := fun u A => (∃ k, Run.Reach (Step .actual) (start s₀) k u) ∧ Matches u A) hsim
    ⟨⟨[], .refl⟩, .start hun hfin⟩ hrun
  rw [List.filterMap_some] at hobs
  exact ⟨A, hobs ▸ hk, hA.cells, hA.idle_iff⟩

end Ports

theorem channel_oneGetter {g : LocId} (hg : g ≠ 0) : OneGetter (channel g) := by
  intro r hr a ha
  obtain rfl := List.mem_singleton.1 hr
  obtain rfl := List.mem_singleton.1 ha
  exact ⟨g, hg, rfl⟩

theorem link_oneGetter (kind : LocKind) (guard : Formula) {g : LocId} (hg : g ≠ 0) :
    OneGetter (link kind guard g) := by
  intro r hr a ha
  obtain rfl := List.mem_singleton.1 hr
  obtain rfl := List.mem_singleton.1 ha
  exact ⟨g, hg, rfl⟩

/-- The automaton has the put too, and fills its cell. -/
theorem refines_link : ∃ s b h t A,
    (finish (link .memUninitialized .true 1)).run (.new .empty) = .ok s b ∧
    Run.Reach (Ports.Step .actual) (.start s) h t ∧
    h.filterMap Ports.Act.observed = [.fire 0, .call 0 (.put (.data 7))] ∧
    Run.Reach (Automaton.Step (link .memUninitialized .true 1)) .start
      (h.filterMap Ports.Act.observed) A ∧
    (∀ l, A.cells l = t.proto.atRest l) ∧ ∀ p, A.ports p = .idle ↔ t.calls p = none := by
  obtain ⟨s, b, t, hinst, hrun, -⟩ := link_put_moved (c := .put (.data 7)) rfl
  obtain ⟨hun, hfin⟩ := finish_of_tryInstantiate hinst
  obtain ⟨A, hA, hcells, hports⟩ := Ports.refines (link .memUninitialized .true 1) hfin (by decide)
    (by decide) hun (link_oneGetter .memUninitialized .true (by decide)) hrun
  exact ⟨s, b, _, t, A, hfin, hrun, rfl, hA, hcells, hports⟩

end ReoRs
