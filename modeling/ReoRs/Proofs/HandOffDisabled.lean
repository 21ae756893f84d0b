import ReoRs.Proofs.HandOffModes

/-!
# Hand-offs with moving disabled

The flags of a memory cell that shares its pointer start at zero. The first
data caller to ask gets the permission and takes it for a loss: it clones.
Everyone after it finds the flag set and takes that for a win, and the last
winner out moves a datum that was not to be moved.

The bad schedule holds the loser back until everyone else has counted down.
Then the loser is the last out, and releases a permit that says a winner has
moved, when none has.
-/

namespace ReoRs

variable {D : Type}

namespace HandOff

open AcquirePc

variable {source : FiringSource} {p : PutterSpace D} {heap : Heap D} {wants : List Bool}

/-! ## Before the first clone is counted -/

/-- Nobody has asked for the datum yet. -/
structure Unasked (p : PutterSpace D) (s : HandOff D) : Prop where
  flags : s.space.moveFlags.moveFlags = 0#8
  ptr : s.space.ptr = p.ptr
  log : s.log = []
  data : ∀ g ∈ s.getters, g.wantsData = true → g.pc = .askMove ∧ g.out = []
  signals : ∀ g ∈ s.getters, g.wantsData = false → g.pc = .signalCountdown ∨ g.pc = .returned

/-- Getter `l` asked first, so it lost, and has not cloned the datum yet.
Meanwhile no other getter can be the last out. -/
structure Held (p : PutterSpace D) (l : Nat) (s : HandOff D) : Prop where
  loser : s.getters[l]? = some ⟨true, .loserClone, []⟩
  flags : s.space.moveFlags.moveFlags ≠ 0#8
  ptr : s.space.ptr = p.ptr
  log : s.log = []
  data : ∀ j g, j ≠ l → s.getters[j]? = some g → g.wantsData = true →
    (g.pc = .askMove ∨ g.pc = .winnerCountdown ∨ g.pc = .winnerWait) ∧ g.out = []
  signals : ∀ j g, j ≠ l → s.getters[j]? = some g → g.wantsData = false →
    g.pc = .signalCountdown ∨ g.pc = .returned

theorem unasked_start (hcopy : p.typeInfo.isCopy = false)
    (hdisabled : source.disableMove = true) : Unasked p (start source p heap wants) where
  flags := by
    show (p.moveFlags.reset !source.disableMove).moveFlags = 0#8
    rw [hdisabled]
    rfl
  ptr := rfl
  log := rfl
  data := by
    intro g hg hw
    obtain ⟨w, -, rfl⟩ := List.mem_map.1 hg
    obtain rfl : w = true := hw
    rw [hcopy]
    exact ⟨rfl, rfl⟩
  signals := by
    intro g hg hw
    obtain ⟨w, -, rfl⟩ := List.mem_map.1 hg
    obtain rfl : w = false := hw
    rw [hcopy]
    exact .inl rfl

/-- A property of all getters but one survives a step of one of them. -/
theorem forall_others_set {P : GetterState D → Prop} {gs : List (GetterState D)} {l i : Nat}
    {g' : GetterState D} (h : ∀ j g, j ≠ l → gs[j]? = some g → P g) (hP : P g') :
    ∀ j g, j ≠ l → (gs.set i g')[j]? = some g → P g := by
  intro j g hj hg
  by_cases hij : i = j
  · subst hij
    rw [List.getElem?_set_self'] at hg
    cases hgi : gs[i]? with
    | none => simp [hgi] at hg
    | some x =>
        obtain rfl : g' = g := by simpa [hgi] using hg
        exact hP
  · rw [List.getElem?_set_ne hij] at hg
    exact h j g hj hg

/-- The first data caller to ask loses. -/
theorem Unasked.ask {s : HandOff D} (hs : Unasked p s) {l : Nat} {g : GetterState D}
    (hg : s.getters[l]? = some g) (hw : g.wantsData = true) :
    ∃ t, Step s l t ∧ Held p l t := by
  obtain ⟨hpc, hout⟩ := hs.data g (List.mem_of_getElem? hg) hw
  have ha := acquireStep_askMove s.kind s.space
  rw [if_pos hs.flags] at ha
  refine ⟨_, step_advance_of_none hg (by rw [hpc, ha]) rfl, ?_⟩
  refine ⟨?_, MoveFlags.ask_ne_zero _, hs.ptr, hs.log, ?_, ?_⟩
  · rw [getElem?_advance hg]
    simp [hw, hout]
  · intro j k hj hk hwk
    have hk' : s.getters[j]? = some k := by
      rwa [advance, List.getElem?_set_ne (Ne.symm hj)] at hk
    obtain ⟨hask, hnil⟩ := hs.data k (List.mem_of_getElem? hk') hwk
    exact ⟨.inl hask, hnil⟩
  · intro j k hj hk hwk
    have hk' : s.getters[j]? = some k := by
      rwa [advance, List.getElem?_set_ne (Ne.symm hj)] at hk
    exact hs.signals k (List.mem_of_getElem? hk') hwk

/-- A signal caller's countdown while a data caller is pending. -/
theorem signalCountdown_returns {s : HandOff D} (hbooks : Books s) {i j : Nat}
    {g k : GetterState D} (hij : i ≠ j) (hg : s.getters[i]? = some g)
    (hk : s.getters[j]? = some k) (hpc : g.pc.pending = true) (hpend : k.pc.pending = true)
    (last other : AcquirePc) : (s.space.countDown last other).pc = other := by
  have hne : s.space.clonerCountdown ≠ 1 := by
    intro h1
    rw [hbooks.countdown] at h1
    have hle : s.getters.countP (·.pc.pending) ≤ 1 := le_of_eq h1
    exact hij (Count.eq_of_countP_le_one hle hg hk hpc hpend)
  simp [PutterSpace.countDown, hne]

/-- While the loser is held, the others only get to wait or to return. -/
theorem Held.step {s t : HandOff D} {l i : Nat} (hs : Held p l s) (hbooks : Books s)
    (hil : i ≠ l) (h : Step s i t) : Held p l t := by
  have hl : t.getters[l]? = some ⟨true, .loserClone, []⟩ := (h.other hil).trans hs.loser
  obtain ⟨g, hg, ⟨b, hpc, rfl⟩ | ⟨a, v, ha, hv, rfl⟩⟩ := h.cases
  · exfalso
    have h0 := (hbooks.of_lastOut hg (by rw [hpc]; rfl)).1
    have := pendings_pos hs.loser rfl
    omega
  · have hback : ∀ last other, g.pc.pending = true →
        (s.space.countDown last other).pc = other := fun last other hpend =>
      signalCountdown_returns hbooks hil hg hs.loser hpend rfl last other
    cases hw : g.wantsData with
    | true =>
        obtain ⟨hpc, hnil⟩ := hs.data i g hil hg hw
        rcases hpc with hpc | hpc | hpc
        · rw [hpc, acquireStep_askMove, if_neg hs.flags] at ha
          cases ha
          cases hv
          refine ⟨hl, MoveFlags.ask_ne_zero _, hs.ptr, hs.log, ?_, ?_⟩
          · exact forall_others_set hs.data fun _ => ⟨.inr (.inl rfl), hnil⟩
          · exact forall_others_set hs.signals fun h => absurd h (by simp [hw])
        · have hwait := hback .winnerMove .winnerWait (by rw [hpc]; rfl)
          rw [hpc] at ha
          cases ha
          cases hv
          refine ⟨hl, hs.flags, hs.ptr, hs.log, ?_, ?_⟩
          · exact forall_others_set hs.data fun _ => ⟨.inr (.inr hwait), hnil⟩
          · exact forall_others_set hs.signals fun h => absurd h (by simp [hw])
        · -- no permit is out while the loser is pending
          have := hbooks.duty_of_pending hs.loser rfl
          rw [hpc, acquireStep, if_neg (by omega)] at ha
          cases ha
    | false =>
        rcases hs.signals i g hil hg hw with hpc | hpc
        · have hret := hback .signalAsk .returned (by rw [hpc]; rfl)
          rw [hpc] at ha
          cases ha
          cases hv
          refine ⟨hl, hs.flags, hs.ptr, hs.log, ?_, ?_⟩
          · exact forall_others_set hs.data fun h => absurd h (by simp [hw])
          · exact forall_others_set hs.signals fun _ => .inr hret
        · rw [hpc] at ha
          cases ha

/-- Until a data caller asks, signal callers return and nothing else
happens. -/
theorem Unasked.step {s t : HandOff D} {i : Nat} (hs : Unasked p s)
    (hset : Setup source p.typeInfo heap wants s) (hbooks : Books s) (hwants : true ∈ wants)
    (h : Step s i t) : Unasked p t ∨ Held p i t := by
  obtain ⟨k, hk, hwk⟩ := hset.exists_wantsData_iff.2 hwants
  obtain ⟨l, hl⟩ := List.getElem?_of_mem hk
  have hkpend : k.pc.pending = true := by rw [(hs.data k hk hwk).1]; rfl
  obtain ⟨g, hg, ⟨b, hpc, rfl⟩ | ⟨a, v, ha, hv, rfl⟩⟩ := h.cases
  · exfalso
    have h0 := (hbooks.of_lastOut hg (by rw [hpc]; rfl)).1
    have := pendings_pos hl hkpend
    omega
  · have hmem := List.mem_of_getElem? hg
    cases hw : g.wantsData with
    | true =>
        obtain ⟨u, hu, hheld⟩ := hs.ask hg hw
        obtain rfl : u = s.advance i g a v := Option.some.inj (hu.symm.trans h)
        exact .inr hheld
    | false =>
        rcases hs.signals g hmem hw with hpc | hpc
        · have hne : i ≠ l := by
            rintro rfl
            obtain rfl : g = k := Option.some.inj (hg.symm.trans hl)
            cases hw.symm.trans hwk
          have hret := signalCountdown_returns hbooks hne hg hl (by rw [hpc]; rfl) hkpend
            .signalAsk .returned
          rw [hpc] at ha
          cases ha
          cases hv
          refine .inl ⟨hs.flags, hs.ptr, hs.log, ?_, ?_⟩
          · exact Count.forall_mem_set hs.data fun h => absurd h (by simp [hw])
          · exact Count.forall_mem_set hs.signals fun _ => .inr hret
        · rw [hpc] at ha
          cases ha

/-- The loser of a type without `Clone` never gets any further. -/
theorem Held.stays {s t : HandOff D} {l i : Nat} (hs : Held p l s) (hbooks : Books s)
    (hset : Setup source p.typeInfo heap wants s)
    (hclone : p.typeInfo.funcs.clone = .undefined) (h : Step s i t) : Held p l t := by
  by_cases hil : i = l
  · subst hil
    obtain ⟨g, hg, ⟨b, hpc, -⟩ | ⟨a, v, ha, hv, -⟩⟩ := h.cases
    · obtain rfl := Option.some.inj (hs.loser.symm.trans hg)
      cases hpc
    · obtain rfl := Option.some.inj (hs.loser.symm.trans hg)
      cases ha
      simp only [Acquired.written, Transfer.value, hset.typeInfo, hclone, CloneFn.cloned] at hv
      cases hv
  · exact hs.step hbooks hil h

/-! ## After it -/

/-- The loser was the last out. Nobody moves the datum any more, and whoever
gets to `finalize` says that somebody did. -/
structure Late (s : HandOff D) : Prop where
  getters : ∀ g ∈ s.getters,
    g.pc = .winnerWait ∨ g.pc = .release ∨ g.pc = .finalize true ∨ g.pc = .returned
  log : ∀ e ∈ s.log, (∃ i src, e = .transferred i (.cloned src)) ∨ ∃ i, e = .finalized i true

theorem Late.step {s t : HandOff D} {i : Nat} (hs : Late s) (h : Step s i t) : Late t := by
  obtain ⟨g, hg, ⟨b, hpc, rfl⟩ | ⟨a, v, ha, hv, rfl⟩⟩ := h.cases
  · obtain rfl : b = true := by
      rcases hs.getters g (List.mem_of_getElem? hg) with h | h | h | h
      · cases h.symm.trans hpc
      · cases h.symm.trans hpc
      · cases h.symm.trans hpc
        rfl
      · cases h.symm.trans hpc
    refine ⟨Count.forall_mem_set hs.getters (by simp), ?_⟩
    intro e he
    rcases List.mem_cons.1 he with rfl | he
    · exact .inr ⟨i, rfl⟩
    · exact hs.log e he
  · rcases hs.getters g (List.mem_of_getElem? hg) with hpc | hpc | hpc | hpc
    · rw [hpc] at ha
      simp only [acquireStep] at ha
      split at ha <;> cases ha
      exact ⟨Count.forall_mem_set hs.getters (by simp), hs.log⟩
    · rw [hpc] at ha
      cases ha
      exact ⟨Count.forall_mem_set hs.getters (by simp), hs.log⟩
    · rw [hpc] at ha
      cases ha
    · rw [hpc] at ha
      cases ha

/-- Steps of the getters other than `l`. -/
def StepOthers (l : Nat) (s : HandOff D) (i : Nat) (t : HandOff D) : Prop := i ≠ l ∧ Step s i t

/-- The bad schedule of a type with `Clone`: once a data caller holds the
loss, a run leads to a state in which it has released a permit nobody may
use, and every other data caller is waiting for it with nothing written. -/
theorem Held.released {s : HandOff D} {l : Nat} {d : Datum D} {f : Datum D → Datum D}
    (hs : Held p l s) (hset : Setup source p.typeInfo heap wants s) (hbooks : Books s)
    (hd : heap.read p.ptr = some d) (hclone : p.typeInfo.funcs.clone = .defined f) :
    ∃ h t, Run.Reach Step s h t ∧ Late t ∧ t.space.moverSema = 1 ∧
      ∀ j g, j ≠ l → t.getters[j]? = some g → g.wantsData = true →
        g.pc = .winnerWait ∧ g.out = [] := by
  -- everyone else goes as far as they can
  obtain ⟨h, u, hsu, hstuck, hu, husetup, hubooks⟩ :=
    @Run.exists_stuck _ _ (StepOthers l) rank
      (fun s => Held p l s ∧ Setup source p.typeInfo heap wants s ∧ Books s)
      (fun ⟨hs, hset, hb⟩ ⟨hil, hstep⟩ =>
        ⟨⟨hs.step hb hil hstep, hset.step hstep, hb.step hstep⟩, hstep.rank_lt hset⟩)
      s ⟨hs, hset, hbooks⟩
  have hothers : ∀ j g, j ≠ l → u.getters[j]? = some g →
      g.pc = .winnerWait ∧ g.wantsData = true ∧ g.out = [] ∨
        g.pc = .returned ∧ g.wantsData = false := by
    intro j g hj hg
    have hpc := pc_of_stuck hg fun t ht => hstuck j t ⟨hj, ht⟩
    cases hw : g.wantsData with
    | true =>
        obtain ⟨hdata, hnil⟩ := hu.data j g hj hg hw
        rcases hdata with h | h | h
        · simp [h, reads] at hpc
        · simp [h, reads] at hpc
        · exact .inl ⟨h, rfl, hnil⟩
    | false =>
        rcases hu.signals j g hj hg hw with h | h
        · simp [h, reads] at hpc
        · exact .inr ⟨h, rfl⟩
  -- then the loser clones, and counts down last
  have hone : u.space.clonerCountdown = 1 := by
    have hpos := pendings_pos hu.loser rfl
    rw [hubooks.countdown]
    by_contra hne
    obtain ⟨i, j, x, y, hij, hx, hy, hpx, hpy⟩ :=
      Count.exists_two_of_two_le_countP (show 2 ≤ u.getters.countP (·.pc.pending) by
        unfold pendings at hpos hne
        omega)
    have hidle : ∀ k z, k ≠ l → u.getters[k]? = some z → z.pc.pending = false := by
      intro k z hk hz
      rcases hothers k z hk hz with ⟨h, -⟩ | ⟨h, -⟩
      · rw [h]; rfl
      · rw [h]; rfl
    by_cases hil : i = l
    · cases (hidle j y (by omega) hy).symm.trans hpy
    · cases (hidle i x hil hx).symm.trans hpx
  have hsema : u.space.moverSema = 0 := by
    have := hubooks.duty_of_pending hu.loser rfl
    omega
  have hread : u.heap.read u.space.ptr = some d := by rw [husetup.heap, hu.ptr, hd]
  set a₁ : Acquired D := ⟨u.space, .loserCountdown, some (.cloned u.space.ptr)⟩ with ha₁
  have hw₁ : a₁.written u.heap = some (some (f d)) := by
    simp only [Acquired.written, a₁, Transfer.value, husetup.typeInfo, hclone, CloneFn.cloned,
      hread]
    rfl
  have h₁ : Step u l (u.advance l ⟨true, .loserClone, []⟩ a₁ (some (f d))) :=
    step_advance hu.loser rfl hw₁
  set u₁ := u.advance l ⟨true, .loserClone, []⟩ a₁ (some (f d)) with hu₁
  have hl₁ : u₁.getters[l]? = some ⟨true, .loserCountdown, [f d]⟩ :=
    getElem?_advance hu.loser _ _
  set a₂ : Acquired D := u.space.countDown .release .returned with ha₂
  have hpc₂ : a₂.pc = .release := by simp [ha₂, PutterSpace.countDown, hone]
  have h₂ : Step u₁ l (u₁.advance l ⟨true, .loserCountdown, [f d]⟩ a₂ none) :=
    step_advance_of_none hl₁ rfl rfl
  set u₂ := u₁.advance l ⟨true, .loserCountdown, [f d]⟩ a₂ none with hu₂
  have hl₂ : u₂.getters[l]? = some ⟨true, .release, [f d]⟩ := by
    rw [hu₂, getElem?_advance hl₁, hpc₂]
    rfl
  set a₃ : Acquired D := ⟨{ a₂.space with moverSema := a₂.space.moverSema + 1 }, .returned, none⟩
    with ha₃
  have h₃ : Step u₂ l (u₂.advance l ⟨true, .release, [f d]⟩ a₃ none) :=
    step_advance_of_none hl₂ rfl rfl
  set u₃ := u₂.advance l ⟨true, .release, [f d]⟩ a₃ none with hu₃
  have hl₃ : u₃.getters[l]? = some ⟨true, .returned, [f d]⟩ := getElem?_advance hl₂ _ _
  have hj₃ : ∀ j, j ≠ l → u₃.getters[j]? = u.getters[j]? := fun j hj =>
    ((h₃.other hj.symm).trans (h₂.other hj.symm)).trans (h₁.other hj.symm)
  refine ⟨_, u₃, ((Run.Reach.mono (fun h => h.2) hsu).tail h₁ |>.tail h₂).tail h₃, ⟨?_, ?_⟩,
    ?_, ?_⟩
  · intro g hg
    obtain ⟨j, hj⟩ := List.getElem?_of_mem hg
    by_cases hjl : j = l
    · subst hjl
      obtain rfl := Option.some.inj (hl₃.symm.trans hj)
      exact .inr (.inr (.inr rfl))
    · rw [hj₃ j hjl] at hj
      rcases hothers j g hjl hj with ⟨h, -⟩ | ⟨h, -⟩
      · exact .inl h
      · exact .inr (.inr (.inr h))
  · intro e he
    have hlog : u₃.log = [.transferred l (.cloned u.space.ptr)] := by
      simp [hu₃, hu₂, hu₁, advance, ha₁, ha₂, ha₃, PutterSpace.countDown, hu.log]
    rw [hlog, List.mem_singleton] at he
    exact .inl ⟨l, _, he⟩
  · show a₂.space.moverSema + 1 = 1
    rw [ha₂]
    show u.space.moverSema + 1 = 1
    rw [hsema]
  · intro j g hj hg hw
    rw [hj₃ j hj] at hg
    rcases hothers j g hj hg with ⟨h, -, hnil⟩ | ⟨-, hsig⟩
    · exact ⟨h, hnil⟩
    · cases hw.symm.trans hsig

/-! ## No data caller -/

/-- With signal callers alone the last out finds the flags at zero, takes it
that somebody else won, and releases a permit instead of calling
`finalize`. -/
structure Silent (s : HandOff D) : Prop where
  getters : ∀ g ∈ s.getters,
    g.pc = .signalCountdown ∨ g.pc = .signalAsk ∨ g.pc = .release ∨ g.pc = .returned
  flags : s.space.moveFlags.moveFlags = 0#8 ∨
    ∀ g ∈ s.getters, g.pc = .release ∨ g.pc = .returned
  log : s.log = []

theorem silent_start (hcopy : p.typeInfo.isCopy = false) (hdisabled : source.disableMove = true)
    (hwants : true ∉ wants) : Silent (start source p heap wants) where
  getters := by
    intro g hg
    obtain ⟨w, hw, rfl⟩ := List.mem_map.1 hg
    rw [hcopy]
    cases w with
    | true => exact absurd hw hwants
    | false => exact .inl rfl
  flags :=
    .inl (show Unasked p (start source p heap wants) from unasked_start hcopy hdisabled).flags
  log := rfl

theorem Silent.step {s t : HandOff D} {i : Nat} (hs : Silent s) (hbooks : Books s)
    (h : Step s i t) : Silent t := by
  obtain ⟨g, hg, ⟨b, hpc, rfl⟩ | ⟨a, v, ha, hv, rfl⟩⟩ := h.cases
  · rcases hs.getters g (List.mem_of_getElem? hg) with h | h | h | h <;> cases h.symm.trans hpc
  · rcases hs.getters g (List.mem_of_getElem? hg) with hpc | hpc | hpc | hpc
    · have hzero : s.space.moveFlags.moveFlags = 0#8 := by
        refine hs.flags.resolve_right fun hall => ?_
        rcases hall g (List.mem_of_getElem? hg) with h | h <;> cases h.symm.trans hpc
      rw [hpc] at ha
      cases ha
      refine ⟨Count.forall_mem_set hs.getters ?_, .inl hzero, hs.log⟩
      rcases countDown_pc s.space .signalAsk .returned with h | h
      · exact .inr (.inl h)
      · exact .inr (.inr (.inr h))
    · have hzero : s.space.moveFlags.moveFlags = 0#8 := by
        refine hs.flags.resolve_right fun hall => ?_
        rcases hall g (List.mem_of_getElem? hg) with h | h <;> cases h.symm.trans hpc
      have hlast := hbooks.of_lastOut hg (by rw [hpc]; rfl)
      rw [hpc, acquireStep_signalAsk, if_pos hzero] at ha
      cases ha
      refine ⟨Count.forall_mem_set hs.getters (by simp), .inr ?_, hs.log⟩
      -- the others have all returned: this getter was the last out
      intro k hk
      obtain ⟨j, hj⟩ := List.getElem?_of_mem hk
      by_cases hij : i = j
      · subst hij
        rw [getElem?_advance hg] at hj
        cases hj
        exact .inl rfl
      · have hj' : s.getters[j]? = some k := by rwa [h.other hij] at hj
        rcases hs.getters k (List.mem_of_getElem? hj') with h | h | h | h
        · have := pendings_pos hj' (by rw [h]; rfl)
          omega
        · exact absurd (hbooks.lastOut_unique hg hj' (by rw [hpc]; rfl) (by rw [h]; rfl)).1 hij
        · exact .inl h
        · exact .inr h
    · rw [hpc] at ha
      cases ha
      refine ⟨Count.forall_mem_set hs.getters (by simp), ?_, hs.log⟩
      exact hs.flags.imp id fun hall => Count.forall_mem_set hall (by simp)
    · rw [hpc] at ha
      cases ha

/-! ## One data caller -/

/-- What a getter can have come to if there is no second data caller. -/
structure SoleGetter (p : PutterSpace D) (d : Datum D) (g : GetterState D) : Prop where
  noWinner : g.pc ≠ .winnerCountdown ∧ g.pc ≠ .winnerMove ∧ g.pc ≠ .winnerWait ∧
    g.pc ≠ .finalize true
  out : g.wantsData = true →
    ((g.pc = .askMove ∨ g.pc = .loserClone) ∧ g.out = []) ∨
      (g.pc ≠ .askMove ∧ g.pc ≠ .loserClone ∧
        ∃ f, p.typeInfo.funcs.clone = .defined f ∧ g.out = [f d])

/-- With one data caller at most, it is the only one to ask, and clones; only
a signal caller can call `finalize`. -/
structure Sole (p : PutterSpace D) (d : Datum D) (s : HandOff D) : Prop where
  flags : s.space.moveFlags.moveFlags = 0#8 ∨ ∀ g ∈ s.getters, g.pc ≠ .askMove
  ptr : finalizes s.log = 0 → s.space.ptr = p.ptr
  getters : ∀ g ∈ s.getters, SoleGetter p d g
  log : ∀ e ∈ s.log, (∃ i, e = .transferred i (.cloned p.ptr)) ∨ ∃ i, e = .finalized i false

theorem sole_start (hcopy : p.typeInfo.isCopy = false) (hdisabled : source.disableMove = true)
    (d : Datum D) : Sole p d (start source p heap wants) where
  flags :=
    .inl (show Unasked p (start source p heap wants) from unasked_start hcopy hdisabled).flags
  ptr := fun _ => rfl
  getters := by
    intro g hg
    obtain ⟨w, -, rfl⟩ := List.mem_map.1 hg
    rw [hcopy]
    cases w with
    | true => exact ⟨by simp [entry], fun _ => .inl ⟨.inl rfl, rfl⟩⟩
    | false => exact ⟨by simp [entry], by simp⟩
  log := by
    intro e he
    cases he

theorem Sole.step {s t : HandOff D} {i : Nat} {d : Datum D} (hs : Sole p d s)
    (hd : heap.read p.ptr = some d) (hcopy : p.typeInfo.isCopy = false)
    (hone : wants.count true ≤ 1) (hset : Setup source p.typeInfo heap wants s)
    (hbooks : Books s) (h : Step s i t) : Sole p d t := by
  have h0 := hbooks.not_finalized_of_step h
  have hptr := hs.ptr h0
  obtain ⟨g, hg, ⟨b, hpc, rfl⟩ | ⟨a, v, ha, hv, rfl⟩⟩ := h.cases
  · have hmem := List.mem_of_getElem? hg
    obtain ⟨hwin, hout⟩ := hs.getters g hmem
    obtain ⟨-, -, hf⟩ := finish_counters s i g b
    obtain rfl : b = false := by
      cases b with
      | true => exact absurd hpc hwin.2.2.2
      | false => rfl
    refine ⟨?_, ?_, Count.forall_mem_set hs.getters ⟨by simp, ?_⟩, ?_⟩
    · rw [hf]
      exact hs.flags.imp id fun hask => Count.forall_mem_set hask (by simp)
    · intro h1
      simp [finish] at h1
    · intro hw
      have hdone := hout hw
      simp [hpc] at hdone
      exact .inr ⟨by simp, by simp, hdone⟩
    · intro e he
      rcases List.mem_cons.1 he with rfl | he
      · exact .inr ⟨i, rfl⟩
      · exact hs.log e he
  · have hmem := List.mem_of_getElem? hg
    have hrole := hset.inRole g hmem
    obtain ⟨hwin, hout⟩ := hs.getters g hmem
    rw [hcopy] at hrole
    cases hpc : g.pc with
    | askMove =>
        have hw : g.wantsData = true := by simpa [hpc, inRole] using hrole
        have hzero : s.space.moveFlags.moveFlags = 0#8 :=
          hs.flags.resolve_right fun hask => hask g hmem hpc
        have hnil : g.out = [] := by simpa [hpc] using hout hw
        rw [hpc, acquireStep_askMove, if_pos hzero] at ha
        cases ha
        cases hv
        refine ⟨.inr ?_, fun _ => hptr, Count.forall_mem_set hs.getters ⟨by simp, ?_⟩, hs.log⟩
        · -- nobody else asks for data
          intro k hk hask
          obtain ⟨j, hj⟩ := List.getElem?_of_mem hk
          by_cases hij : i = j
          · subst hij
            rw [getElem?_advance hg] at hj
            cases hj
            cases hask
          · have hj' : s.getters[j]? = some k := by rwa [h.other hij] at hj
            have hkrole := hset.inRole k (List.mem_of_getElem? hj')
            have hwk : k.wantsData = true := by
              rw [hcopy, hask] at hkrole
              simpa [inRole] using hkrole
            have hcount : s.getters.countP (·.wantsData) ≤ 1 := by
              rw [hset.countP_wantsData]
              exact hone
            exact hij (Count.eq_of_countP_le_one hcount hg hj' hw hwk)
        · exact fun _ => .inl ⟨.inr rfl, hnil⟩
    | loserClone =>
        have hw : g.wantsData = true := by simpa [hpc, inRole] using hrole
        have hnil : g.out = [] := by simpa [hpc] using hout hw
        have hread : s.heap.read s.space.ptr = some d := by rw [hset.heap, hptr, hd]
        rw [hpc] at ha
        cases ha
        have hwritten : ∃ f, p.typeInfo.funcs.clone = .defined f ∧ v = some (f d) := by
          simp only [Acquired.written, Transfer.value, hset.typeInfo] at hv
          cases hclone : p.typeInfo.funcs.clone with
          | undefined =>
              rw [hclone] at hv
              cases hv
          | defined f =>
              rw [hclone, CloneFn.cloned, hread] at hv
              cases hv
              exact ⟨f, rfl, rfl⟩
        obtain ⟨f, hf, rfl⟩ := hwritten
        refine ⟨hs.flags.imp id fun hask => Count.forall_mem_set hask (by simp), fun _ => hptr,
          Count.forall_mem_set hs.getters ⟨by simp, ?_⟩, ?_⟩
        · exact fun _ => .inr ⟨by simp, by simp, f, hf, by simp [hnil]⟩
        · intro e he
          rcases List.mem_cons.1 he with rfl | he
          · exact .inl ⟨i, by rw [hptr]⟩
          · exact hs.log e he
    | loserCountdown =>
        have hdone := hout (by simpa [hpc, inRole] using hrole)
        simp [hpc] at hdone
        rw [hpc] at ha
        cases ha
        cases hv
        have hcd := countDown_pc s.space .release .returned
        refine ⟨hs.flags.imp id fun hask => Count.forall_mem_set hask ?_, fun _ => hptr,
          Count.forall_mem_set hs.getters ⟨?_, fun _ => .inr ⟨?_, ?_, hdone⟩⟩, hs.log⟩
        · rcases hcd with h | h <;> simp [h]
        · rcases hcd with h | h <;> simp [h]
        · rcases hcd with h | h <;> simp [h]
        · rcases hcd with h | h <;> simp [h]
    | release =>
        rw [hpc] at ha
        cases ha
        cases hv
        refine ⟨hs.flags.imp id fun hask => Count.forall_mem_set hask (by simp), fun _ => hptr,
          Count.forall_mem_set hs.getters ⟨by simp, ?_⟩, hs.log⟩
        intro hw
        have hdone := hout hw
        simp [hpc] at hdone
        exact .inr ⟨by simp, by simp, hdone⟩
    | signalCountdown =>
        have hw : g.wantsData = false := by simpa [hpc, inRole] using hrole
        rw [hpc] at ha
        cases ha
        cases hv
        have hcd := countDown_pc s.space .signalAsk .returned
        refine ⟨hs.flags.imp id fun hask => Count.forall_mem_set hask ?_, fun _ => hptr,
          Count.forall_mem_set hs.getters ⟨?_, fun h => absurd h (by simp [hw])⟩, hs.log⟩
        · rcases hcd with h | h <;> simp [h]
        · rcases hcd with h | h <;> simp [h]
    | signalAsk =>
        have hw : g.wantsData = false := by simpa [hpc, inRole] using hrole
        have hlast := hbooks.of_lastOut hg (by rw [hpc]; rfl)
        -- the data caller has asked already
        have hask : ∀ k ∈ s.getters, k.pc ≠ .askMove := by
          intro k hk hpck
          obtain ⟨j, hj⟩ := List.getElem?_of_mem hk
          have := pendings_pos hj (by rw [hpck]; rfl)
          omega
        rw [hpc, acquireStep_signalAsk] at ha
        cases ha
        cases hv
        by_cases hz : s.space.moveFlags.moveFlags = 0#8
        · refine ⟨.inr (Count.forall_mem_set hask (by simp [hz])), fun _ => hptr,
            Count.forall_mem_set hs.getters ⟨by simp [hz], ?_⟩, hs.log⟩
          exact fun h => absurd h (by simp [hw])
        · refine ⟨.inr (Count.forall_mem_set hask (by simp [hz])), fun _ => hptr,
            Count.forall_mem_set hs.getters ⟨by simp [hz], ?_⟩, hs.log⟩
          exact fun h => absurd h (by simp [hw])
    | winnerCountdown => exact absurd hpc hwin.1
    | winnerMove => exact absurd hpc hwin.2.1
    | winnerWait => exact absurd hpc hwin.2.2.1
    | storeMoved | copyData | copyCountdown | loadMoved => simp [hpc, inRole] at hrole
    | finalize _ | returned =>
        rw [hpc] at ha
        cases ha

end HandOff

end ReoRs
