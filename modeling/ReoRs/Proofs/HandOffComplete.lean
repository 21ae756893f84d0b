import ReoRs.Proofs.HandOffDisabled

/-!
# Completion of a hand-off

A hand-off has completed when nobody can go on, everybody has returned, and
`finalize` was called once, last, and with the truth. This file says for which
hand-offs every schedule ends so.

They are few. A `Copy` datum must not be asked of a port twice, because the
first copy takes the port's pointer away. A datum of another type is handed
over properly only with moving enabled, and then only if nobody wants it or
nobody else is there: a winner that is not the last out waits for a permit
that no loser will release.
-/

namespace ReoRs

variable {D : Type}

namespace HandOff

open AcquirePc

/-- Some getter took the datum: by asking for it if the type is `Copy`, by
moving it otherwise. -/
def Taken (isCopy : Bool) (s : HandOff D) : Prop :=
  if isCopy then ∃ g ∈ s.getters, g.wantsData = true
  else ∃ i src, HandOffEvent.transferred i (.copied src) ∈ s.log

/-- All getters have returned, `finalize` was called exactly once and after
every transfer, and it was told whether the datum was taken. -/
structure Completed (isCopy : Bool) (s : HandOff D) : Prop where
  returned : ∀ g ∈ s.getters, g.pc = .returned
  finalized : ∃ i b rest, s.log = .finalized i b :: rest ∧ finalizes rest = 0 ∧
    (b = true ↔ Taken isCopy s)

/-- The hand-offs that complete on every schedule. -/
def Completable (source : FiringSource) (info : TypeInfo D) (wants : List Bool) : Prop :=
  (info.isCopy = true ∧
      (source.kind = .memory ∨ wants.count true ≤ 1 ∨ info.layout.size = 0)) ∨
    (info.isCopy = false ∧ source.disableMove = false ∧
      (wants.count true = 0 ∨ wants.length = 1))

variable {source : FiringSource} {p : PutterSpace D} {heap : Heap D} {wants : List Bool}

/-- Once everybody has returned and no permit is left, `finalize` was the last
event. -/
theorem Books.finalized_of_returned {s : HandOff D} (hs : Books s)
    (hret : ∀ g ∈ s.getters, g.pc = .returned) (hsema : s.space.moverSema = 0) :
    ∃ i b rest, s.log = .finalized i b :: rest ∧ finalizes rest = 0 := by
  have hpend : pendings s.getters = 0 :=
    List.countP_eq_zero.2 fun g hg => by simp [hret g hg, pending]
  have hlast : lastOuts s.getters = 0 :=
    List.countP_eq_zero.2 fun g hg => by simp [hret g hg, lastOut]
  have hduty := hs.duty
  rw [if_pos (hs.countdown.trans hpend)] at hduty
  obtain ⟨i, b, rest, hlog⟩ := hs.closing (by omega)
  rw [hlog, finalizes_finalized] at hduty
  exact ⟨i, b, rest, hlog, by omega⟩

/-! ## Copy types -/

theorem copy_completes (hcopy : p.typeInfo.isCopy = true) (hwants : wants ≠ [])
    (hsema : p.moverSema = 0) {d : Datum D} (hd : heap.read p.ptr = some d)
    (hcond : source.kind = .memory ∨ wants.count true ≤ 1 ∨ p.typeInfo.layout.size = 0)
    {s : HandOff D} (hs : Reachable (start source p heap wants) s) (hstuck : Run.Stuck Step s) :
    Completed p.typeInfo.isCopy s := by
  have hset := Setup.of_reachable hs
  have hbooks := Books.of_reachable hsema hwants hs
  have hverdict : CopyVerdict wants s := hs.invariant hsema hwants
    (copyVerdict_start hcopy hsema) fun hset hbooks h hst => h.step hcopy hset hbooks hst
  have hpointer : CopyPointer source p s := hs.invariant hsema hwants
    (copyPointer_start hcopy) fun hset _ h hst => h.step hcopy hset hst
  have hnull : p.ptr ≠ .null := by
    intro h0
    rw [h0] at hd
    cases hd
  have hret : ∀ g ∈ s.getters, g.pc = .returned := by
    intro g hg
    obtain ⟨i, hi⟩ := List.getElem?_of_mem hg
    have hrole := hset.inRole g hg
    rw [hcopy] at hrole
    rcases pc_of_stuck hi (hstuck i) with h | ⟨h, -⟩ | ⟨h, hfault⟩
    · exact h
    · simp [h, inRole] at hrole
    · have hpc : g.pc = .copyData := by
        cases hpc : g.pc <;> simp [hpc, reads, inRole] at h hrole
        rfl
      have hnone := hfault _ (by rw [hpc]; rfl)
      simp only [Acquired.written, Transfer.value, TypeInfo.copied, afterCopy_typeInfo,
        hset.typeInfo] at hnone
      by_cases hbad : s.space.ptr = .null ∧ p.typeInfo.layout.size ≠ 0
      · rcases hcond with hc | hc | hc
        · have hptr := hpointer.ptr_of_copyData hset hcopy hbooks (.inl hc) hi hpc
          exact absurd (hptr.symm.trans hbad.1) hnull
        · have hptr := hpointer.ptr_of_copyData hset hcopy hbooks (.inr hc) hi hpc
          exact absurd (hptr.symm.trans hbad.1) hnull
        · exact absurd hc hbad.2
      · rw [if_neg hbad] at hnone
        cases hnone
  obtain ⟨i, b, rest, hlog, hrest⟩ := hbooks.finalized_of_returned hret hverdict.sema
  refine ⟨hret, i, b, rest, hlog, hrest, ?_⟩
  have hb := hverdict.told i b (by rw [hlog]; exact List.mem_cons_self)
  rw [Taken, if_pos hcopy, hset.exists_wantsData_iff, hb, decide_eq_true_iff]

/-- The second data caller of a port reads through null. -/
theorem copy_not_completes (hcopy : p.typeInfo.isCopy = true) (hwants : wants ≠ [])
    (hsema : p.moverSema = 0) (hport : source.kind = .port) (htwo : 2 ≤ wants.count true)
    (hsize : p.typeInfo.layout.size ≠ 0) :
    ∃ s, Reachable (start source p heap wants) s ∧ Run.Stuck Step s ∧
      ¬ Completed p.typeInfo.isCopy s := by
  have hr₀ : Reachable (start source p heap wants) (start source p heap wants) := ⟨[], .refl⟩
  obtain ⟨s, hs, hstuck, -⟩ := hr₀.exists_stuck (I := fun _ => True) hsema hwants trivial
    fun _ _ _ _ => trivial
  refine ⟨s, hs, hstuck, ?_⟩
  intro hdone
  have hset := Setup.of_reachable hs
  have hpointer : CopyPointer source p s := hs.invariant hsema hwants
    (copyPointer_start hcopy) fun hset _ h hst => h.step hcopy hset hst
  have htakers : takers s.getters = wants.count true := by
    rw [← hset.countP_wantsData, takers]
    refine List.countP_congr ?_
    intro g hg
    simp [GetterState.tookCopy, hdone.returned g hg]
  rcases hpointer.port hport with ⟨-, h0⟩ | ⟨-, -, h1⟩
  · omega
  · have := h1 hsize
    omega

/-! ## Other types, moving enabled -/

theorem enabled_completes (hcopy : p.typeInfo.isCopy = false) (hwants : wants ≠ [])
    (hsema : p.moverSema = 0) {d : Datum D} (hd : heap.read p.ptr = some d)
    (henabled : source.disableMove = false)
    (hcond : wants.count true = 0 ∨ wants.length = 1)
    {s : HandOff D} (hs : Reachable (start source p heap wants) s) (hstuck : Run.Stuck Step s) :
    Completed p.typeInfo.isCopy s := by
  have hset := Setup.of_reachable hs
  have hbooks := Books.of_reachable hsema hwants hs
  have hmode : Enabled p wants d s := hs.invariant hsema hwants
    (enabled_start hcopy hsema henabled d)
    fun hset hbooks h hst => h.step hd hcopy hset hbooks hst
  have hret : ∀ g ∈ s.getters, g.pc = .returned := by
    intro g hg
    obtain ⟨i, hi⟩ := List.getElem?_of_mem hg
    have hrole := hset.inRole g hg
    rw [hcopy] at hrole
    rcases pc_of_stuck hi (hstuck i) with h | ⟨h, -⟩ | ⟨h, hfault⟩
    · exact h
    · -- a winner waits only if there is another getter, and only a data caller wins
      have hwait := (hmode.getters g hg).waits h
      have hw : g.wantsData = true := by simpa [h, inRole] using hrole
      have hmem := hset.exists_wantsData_iff.1 ⟨g, hg, hw⟩
      have := List.count_pos_iff.2 hmem
      omega
    · have hpc : g.pc = .winnerMove := by
        have hlose := (hmode.getters g hg).noLoser
        cases hpc : g.pc <;> simp [hpc, reads, inRole] at h hrole hlose
        rfl
      have ha : acquireStep s.kind s.space g.pc =
          some ⟨s.space.afterCopy s.kind, .finalize true, some (.copied s.space.ptr)⟩ := by
        rw [hpc]; rfl
      have hnone := hfault _ ha
      have h0 := hbooks.not_finalized_of_reads hi h
      obtain ⟨-, hptr, -⟩ := hmode.untouched_of_acquireStep hbooks hi ha h0
      have hnull : s.space.ptr ≠ .null := by
        intro h0
        rw [hptr] at h0
        rw [h0] at hd
        cases hd
      simp [Acquired.written, Transfer.value, TypeInfo.copied, hnull] at hnone
  obtain ⟨i, b, rest, hlog, hrest⟩ := hbooks.finalized_of_returned hret hmode.sema
  refine ⟨hret, i, b, rest, hlog, hrest, ?_⟩
  rw [Taken, if_neg (by simp [hcopy])]
  cases hmode.stage with
  | untouched hnil => simp [hnil] at hlog
  | moved j k g hone => simp [hone] at hlog
  | told j k htold =>
      rw [htold] at hlog
      cases hlog
      exact ⟨fun _ => ⟨j, p.ptr, by simp [htold]⟩, fun _ => rfl⟩
  | observed j hobs =>
      rw [hobs] at hlog
      cases hlog
      simp [hobs]

/-- A getter that waits for a permit, and none will ever come. -/
theorem enabled_not_completes (hcopy : p.typeInfo.isCopy = false) (hwants : wants ≠ [])
    (hsema : p.moverSema = 0) {d : Datum D} (hd : heap.read p.ptr = some d)
    (henabled : source.disableMove = false) (hdata : true ∈ wants) (htwo : 2 ≤ wants.length) :
    ∃ s, Reachable (start source p heap wants) s ∧ Run.Stuck Step s ∧
      ¬ Completed p.typeInfo.isCopy s := by
  obtain ⟨i, hi⟩ := List.getElem?_of_mem hdata
  have hmode₀ : Enabled p wants d (start source p heap wants) :=
    enabled_start hcopy hsema henabled d
  have hg₀ : (start source p heap wants).getters[i]? = some ⟨true, .askMove, []⟩ := by
    rw [start_getElem? hi, hcopy]
    rfl
  -- the first data caller asks, wins, and is not the last to count down
  have ha₀ := acquireStep_askMove (start source p heap wants).kind
    (start source p heap wants).space
  rw [if_neg hmode₀.flags] at ha₀
  have h₀ := step_advance_of_none hg₀ ha₀ rfl
  have hg₁ := getElem?_advance hg₀ ⟨{ (start source p heap wants).space with
    moveFlags := (start source p heap wants).space.moveFlags.askForMovePermission.2 },
    .winnerCountdown, none⟩ none
  set s₁ := (start source p heap wants).advance i ⟨true, .askMove, []⟩
    ⟨{ (start source p heap wants).space with
      moveFlags := (start source p heap wants).space.moveFlags.askForMovePermission.2 },
      .winnerCountdown, none⟩ none with hs₁
  have hwait : (s₁.space.countDown .winnerMove .winnerWait).pc = .winnerWait := by
    have hne : wants.length ≠ 1 := by omega
    exact if_neg hne
  have h₁ : Step s₁ i _ := step_advance_of_none hg₁ rfl rfl
  have hg₂ := getElem?_advance hg₁ (s₁.space.countDown .winnerMove .winnerWait) none
  rw [hwait] at hg₂
  have hr₂ : Reachable (start source p heap wants) _ := ⟨_, (Run.Reach.single h₀).tail h₁⟩
  have hmode₂ := hr₂.invariant hsema hwants hmode₀
    fun hset hbooks h hst => h.step hd hcopy hset hbooks hst
  obtain ⟨s, hs, hstuck, hstay, -⟩ := Reachable.exists_stuck hsema hwants hr₂
    (I := fun s => s.getters[i]? = some ⟨true, .winnerWait, []⟩ ∧ Enabled p wants d s)
    ⟨hg₂, hmode₂⟩ (by
      intro s j t hset hbooks ⟨hstay, hmode⟩ hst
      refine ⟨?_, hmode.step hd hcopy hset hbooks hst⟩
      by_cases hji : j = i
      · subst hji
        obtain ⟨g, hg, ⟨b, hpc, -⟩ | ⟨a, v, ha, -, -⟩⟩ := hst.cases
        · obtain rfl := Option.some.inj (hstay.symm.trans hg)
          cases hpc
        · obtain rfl := Option.some.inj (hstay.symm.trans hg)
          rw [acquireStep, if_neg (by rw [hmode.sema]; omega)] at ha
          cases ha
      · rw [hst.other hji, hstay])
  refine ⟨s, hs, hstuck, ?_⟩
  intro hdone
  cases hdone.returned _ (List.mem_of_getElem? hstay)

/-! ## Other types, moving disabled -/

/-- What follows the loser's late release is never a completion. -/
theorem Late.not_completed {s : HandOff D} (hs : Late s) : ¬ Completed false s := by
  rintro ⟨-, i, b, rest, hlog, -, hb⟩
  rw [Taken, if_neg (by simp)] at hb
  have hmoved : ¬ ∃ i src, HandOffEvent.transferred i (.copied src) ∈ s.log := by
    rintro ⟨j, src, hmem⟩
    rcases hs.log _ hmem with ⟨k, src', h⟩ | ⟨k, h⟩ <;> cases h
  rcases hs.log (.finalized i b) (by rw [hlog]; exact List.mem_cons_self) with ⟨j, src, h⟩ | ⟨j, h⟩
  · cases h
  · cases h
    exact hmoved (hb.1 rfl)

theorem disabled_not_completes (hcopy : p.typeInfo.isCopy = false) (hwants : wants ≠ [])
    (hsema : p.moverSema = 0) {d : Datum D} (hd : heap.read p.ptr = some d)
    (hdisabled : source.disableMove = true) :
    ∃ s, Reachable (start source p heap wants) s ∧ Run.Stuck Step s ∧
      ¬ Completed p.typeInfo.isCopy s := by
  have hr₀ : Reachable (start source p heap wants) (start source p heap wants) := ⟨[], .refl⟩
  have hun : Unasked p (start source p heap wants) := unasked_start hcopy hdisabled
  rw [hcopy]
  by_cases hdata : true ∈ wants
  · obtain ⟨l, hl⟩ := List.getElem?_of_mem hdata
    obtain ⟨s₁, h₁, hheld⟩ := hun.ask (start_getElem? hl) rfl
    have hr₁ : Reachable (start source p heap wants) s₁ := ⟨_, Run.Reach.single h₁⟩
    cases hclone : p.typeInfo.funcs.clone with
    | undefined =>
        obtain ⟨s, hs, hstuck, hstay⟩ := Reachable.exists_stuck hsema hwants hr₁ (I := Held p l)
          hheld fun hset hbooks h hst => h.stays hbooks hset hclone hst
        refine ⟨s, hs, hstuck, ?_⟩
        intro hdone
        cases hdone.returned _ (List.mem_of_getElem? hstay.loser)
    | defined f =>
        obtain ⟨h, t, ht, hlate, -⟩ := hheld.released (Setup.of_reachable hr₁)
          (Books.of_reachable hsema hwants hr₁) hd hclone
        obtain ⟨s, hs, hstuck, hlate'⟩ := Reachable.exists_stuck hsema hwants (hr₁.trans ht)
          (I := Late) hlate fun _ _ h hst => h.step hst
        exact ⟨s, hs, hstuck, hlate'.not_completed⟩
  · obtain ⟨s, hs, hstuck, hsilent⟩ := Reachable.exists_stuck hsema hwants hr₀ (I := Silent)
      (silent_start hcopy hdisabled hdata) fun _ hbooks h hst => h.step hbooks hst
    refine ⟨s, hs, hstuck, ?_⟩
    rintro ⟨-, i, b, rest, hlog, -⟩
    rw [hsilent.log] at hlog
    cases hlog

/-! ## The condition -/

/-- A hand-off of `n ≥ 1` getters completes on every schedule iff it is one of
the completable ones. -/
theorem completes_iff_completable (source : FiringSource) (p : PutterSpace D) (heap : Heap D)
    (wants : List Bool) {d : Datum D} (hwants : wants ≠ []) (hsema : p.moverSema = 0)
    (hd : heap.read p.ptr = some d) :
    (∀ s, Reachable (start source p heap wants) s → Run.Stuck Step s →
        Completed p.typeInfo.isCopy s) ↔ Completable source p.typeInfo wants := by
  constructor
  · intro h
    have hnot : ¬ ∃ s, Reachable (start source p heap wants) s ∧ Run.Stuck Step s ∧
        ¬ Completed p.typeInfo.isCopy s := by
      rintro ⟨s, hs, hstuck, hbad⟩
      exact hbad (h s hs hstuck)
    cases hcopy : p.typeInfo.isCopy with
    | true =>
        refine .inl ⟨hcopy, ?_⟩
        by_contra hcond
        simp only [not_or, not_le] at hcond
        obtain ⟨hk, htwo, hsize⟩ := hcond
        have hport : source.kind = .port := by
          cases hk' : source.kind with
          | port => rfl
          | memory => exact absurd hk' hk
        exact hnot (copy_not_completes hcopy hwants hsema hport htwo hsize)
    | false =>
        refine .inr ⟨hcopy, ?_⟩
        cases hdis : source.disableMove with
        | true => exact absurd (disabled_not_completes hcopy hwants hsema hd hdis) hnot
        | false =>
            refine ⟨rfl, ?_⟩
            by_contra hcond
            simp only [not_or] at hcond
            have hdata : true ∈ wants := List.count_pos_iff.1 (by omega)
            have hpos : 0 < wants.length := List.length_pos_iff.2 hwants
            exact hnot (enabled_not_completes hcopy hwants hsema hd hdis hdata (by omega))
  · rintro (⟨hcopy, hcond⟩ | ⟨hcopy, henabled, hcond⟩) s hs hstuck
    · exact copy_completes hcopy hwants hsema hd hcond hs hstuck
    · exact enabled_completes hcopy hwants hsema hd henabled hcond hs hstuck

/-! ## Two callers of `get` at one port -/

/-- A boxed datum at a port, offered to the callers of a firing. -/
def boxInfo : TypeInfo Nat where
  typeId := 1
  isCopy := false
  layout := ⟨8, 8⟩
  funcs := ⟨.dropInPlace, .defined id, .undefined⟩

def boxAtPort : PutterSpace Nat := .new (.stack 0) boxInfo

def boxHeap : Heap Nat := Heap.empty.write (.stack 0) (some (.data 7))

/-- One getter that wants the datum is served properly, the only way there
is. -/
theorem completes_of_single : boxAtPort.moverSema = 0 ∧
    boxHeap.read boxAtPort.ptr = some (.data 7) ∧ Completable .port boxInfo [true] ∧
    ((∀ s, Reachable (start .port boxAtPort boxHeap [true]) s → Run.Stuck Step s →
      Completed false s) ↔ Completable .port boxInfo [true]) :=
  ⟨rfl, rfl, .inr ⟨rfl, rfl, .inr rfl⟩,
    completes_iff_completable .port boxAtPort boxHeap [true] (by simp) rfl rfl⟩

/-- Of two the first waits for ever. -/
theorem not_completes_of_two : boxAtPort.moverSema = 0 ∧
    boxHeap.read boxAtPort.ptr = some (.data 7) ∧
    ¬ ∀ s, Reachable (start .port boxAtPort boxHeap [true, true]) s → Run.Stuck Step s →
      Completed false s := by
  refine ⟨rfl, rfl, ?_⟩
  intro h
  obtain ⟨s, hs, hstuck, hbad⟩ :
      ∃ s, Reachable (start .port boxAtPort boxHeap [true, true]) s ∧ Run.Stuck Step s ∧
        ¬ Completed boxAtPort.typeInfo.isCopy s :=
    enabled_not_completes rfl (by simp) rfl (d := .data 7) rfl rfl (by simp) (by simp)
  exact hbad (h s hs hstuck)

end HandOff

end ReoRs
