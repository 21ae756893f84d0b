import ReoRs.Proofs.HandOff

/-!
# The ways a hand-off can go

What `acquire_data` does with the flags depends on two bits that are fixed
before it starts: whether the type is `Copy`, and, if it is not, whether
`perform_action` disabled moving. Each of the sections below is one of the
cases, with the invariant that describes every state the case can reach; the
last case has a file of its own.

`MoveFlags::reset` and the reading of `ask_for_move_permission` are both the
wrong way round, and they do not cancel out. With moving enabled the flags
start at `MOVE_FLAG_DISABLED`, everyone who asks has won, and nobody is left
to wake the winners.
-/

namespace ReoRs

variable {D : Type}

/-- Both values of `reset` leave the moved bit clear. -/
theorem MoveFlags.reset_and_moved (m : MoveFlags) (moveEnabled : Bool) :
    (m.reset moveEnabled).moveFlags &&& moveFlagMoved = 0#8 := by
  cases moveEnabled <;> simp [reset, moveFlagDisabled, moveFlagMoved]

/-- `fetch_or` leaves the flags nonzero. -/
theorem MoveFlags.ask_ne_zero (m : MoveFlags) :
    m.askForMovePermission.2.moveFlags ≠ 0#8 := by
  intro h
  have hbit : (m.moveFlags ||| moveFlagMoved).getLsbD 0 = false := by
    rw [show m.moveFlags ||| moveFlagMoved = 0#8 from h]
    rfl
  simp [moveFlagMoved] at hbit

/-- The getter has left the data behind and only has to return. -/
def AcquirePc.done : AcquirePc → Bool
  | .finalize _ | .returned => true
  | _ => false

/-- A data caller past its `execute_copy`. -/
def GetterState.tookCopy (g : GetterState D) : Bool :=
  match g.pc with
  | .storeMoved | .copyData => false
  | _ => g.wantsData

namespace HandOff

open AcquirePc

variable {source : FiringSource} {p : PutterSpace D} {heap : Heap D} {wants : List Bool}

/-! ## Copy types: the verdict -/

/-- What the last one out tells `finalize` when the type is `Copy`. The flags
hold `MOVE_FLAG_MOVED` from the first data caller's first step on. -/
structure CopyVerdict (wants : List Bool) (s : HandOff D) : Prop where
  sema : s.space.moverSema = 0
  flags : (s.space.moveFlags.moveFlags = MoveFlags.moveFlagMoved ∧ true ∈ wants) ∨
    (s.space.moveFlags.moveFlags &&& MoveFlags.moveFlagMoved = 0#8 ∧
      ∀ g ∈ s.getters, g.wantsData = true → g.pc = .storeMoved)
  verdict : ∀ g ∈ s.getters, ∀ b, g.pc = .finalize b → b = decide (true ∈ wants)
  told : ∀ i b, HandOffEvent.finalized i b ∈ s.log → b = decide (true ∈ wants)

theorem copyVerdict_start (hcopy : p.typeInfo.isCopy = true) (hsema : p.moverSema = 0) :
    CopyVerdict wants (start source p heap wants) where
  sema := hsema
  flags := by
    refine .inr ⟨MoveFlags.reset_and_moved p.moveFlags _, ?_⟩
    intro g hg hw
    obtain ⟨w, -, rfl⟩ := List.mem_map.1 hg
    obtain rfl : w = true := hw
    rw [hcopy, entry]
  verdict := by
    intro g hg b hb
    obtain ⟨w, -, rfl⟩ := List.mem_map.1 hg
    rw [hcopy] at hb
    cases w <;> cases hb
  told := by
    intro i b h
    cases h

/-- At the last one out every data caller has stored the flag. -/
theorem CopyVerdict.didSomeoneMove {s : HandOff D} (hs : CopyVerdict wants s)
    (hset : Setup source p.typeInfo heap wants s) (hpend : pendings s.getters = 0) :
    s.space.moveFlags.didSomeoneMove = decide (true ∈ wants) := by
  rcases hs.flags with ⟨hf, hmem⟩ | ⟨hf, hstore⟩
  · rw [MoveFlags.didSomeoneMove, hf, decide_eq_true hmem]
    rfl
  · have hnone : ¬ true ∈ wants := by
      intro hmem
      obtain ⟨g, hg, hw⟩ := hset.exists_wantsData_iff.2 hmem
      obtain ⟨i, hi⟩ := List.getElem?_of_mem hg
      have := pendings_pos hi (by rw [hstore g hg hw]; rfl)
      omega
    rw [MoveFlags.didSomeoneMove, hf, decide_eq_false hnone]
    rfl

theorem CopyVerdict.step {s t : HandOff D} {i : Nat} (hs : CopyVerdict wants s)
    (hcopy : p.typeInfo.isCopy = true) (hset : Setup source p.typeInfo heap wants s)
    (hbooks : Books s) (h : Step s i t) : CopyVerdict wants t := by
  obtain ⟨g, hg, ⟨b, hpc, rfl⟩ | ⟨a, v, ha, hv, rfl⟩⟩ := h.cases
  · have hmem := List.mem_of_getElem? hg
    obtain ⟨-, hm, hf⟩ := finish_counters s i g b
    refine ⟨hm.trans hs.sema, ?_, ?_, ?_⟩
    · rw [hf]
      rcases hs.flags with hflags | ⟨hflags, hstore⟩
      · exact .inl hflags
      · refine .inr ⟨hflags, Count.forall_mem_set hstore ?_⟩
        intro hw
        cases (hstore g hmem hw).symm.trans hpc
    · refine Count.forall_mem_set hs.verdict ?_
      intro b hb
      cases hb
    · intro j c hc
      rcases List.mem_cons.1 hc with hc | hc
      · cases hc
        exact hs.verdict g hmem b hpc
      · exact hs.told j c hc
  · have hmem := List.mem_of_getElem? hg
    have hrole := hset.inRole g hmem
    have htold : ∀ j c, HandOffEvent.finalized j c ∈ (s.advance i g a v).log →
        c = decide (true ∈ wants) := by
      intro j c hc
      rcases List.mem_append.1 hc with hc | hc
      · cases htr : a.transfer <;> simp [htr] at hc
      · exact hs.told j c hc
    rw [hcopy] at hrole
    cases hpc : g.pc with
    | storeMoved =>
        rw [hpc] at ha
        cases ha
        refine ⟨hs.sema, .inl ⟨rfl, ?_⟩, ?_, htold⟩
        · have hw : g.wantsData = true := by simpa [hpc, inRole] using hrole
          exact hset.exists_wantsData_iff.1 ⟨g, hmem, hw⟩
        · refine Count.forall_mem_set hs.verdict ?_
          intro b hb
          cases hb
    | copyData =>
        rw [hpc] at ha
        cases ha
        refine ⟨(afterCopy_sema _ _).trans hs.sema, ?_, ?_, htold⟩
        · show (s.space.afterCopy s.kind).moveFlags.moveFlags = _ ∧ _ ∨ _
          have hw : g.wantsData = true := by simpa [hpc, inRole] using hrole
          rcases hs.flags with hflags | ⟨-, hstore⟩
          · rw [afterCopy_moveFlags]
            exact .inl hflags
          · cases (hstore g hmem hw).symm.trans hpc
        · refine Count.forall_mem_set hs.verdict ?_
          intro b hb
          cases hb
    | copyCountdown =>
        rw [hpc] at ha
        cases ha
        refine ⟨hs.sema, ?_, ?_, htold⟩
        · rcases hs.flags with hflags | ⟨hflags, hstore⟩
          · exact .inl hflags
          · refine .inr ⟨hflags, Count.forall_mem_set hstore ?_⟩
            intro hw
            cases (hstore g hmem hw).symm.trans hpc
        · refine Count.forall_mem_set hs.verdict ?_
          intro b hb
          rcases countDown_pc s.space .loadMoved .returned with h | h
          · cases h.symm.trans hb
          · cases h.symm.trans hb
    | loadMoved =>
        rw [hpc] at ha
        cases ha
        refine ⟨hs.sema, ?_, ?_, htold⟩
        · rcases hs.flags with hflags | ⟨hflags, hstore⟩
          · exact .inl hflags
          · refine .inr ⟨hflags, Count.forall_mem_set hstore ?_⟩
            intro hw
            cases (hstore g hmem hw).symm.trans hpc
        · refine Count.forall_mem_set hs.verdict ?_
          intro b hb
          cases hb
          exact hs.didSomeoneMove hset (hbooks.of_lastOut hg (by rw [hpc]; rfl)).1
    | askMove | winnerCountdown | winnerMove | winnerWait | loserClone | loserCountdown
    | release | signalCountdown | signalAsk =>
        simp [hpc, inRole] at hrole
    | finalize _ | returned =>
        rw [hpc] at ha
        cases ha

/-! ## Copy types: the pointer -/

/-- How many callers have been past `execute_copy`. -/
def takers (gs : List (GetterState D)) : Nat := gs.countP (·.tookCopy)

theorem takers_set {gs : List (GetterState D)} {i : Nat} {g : GetterState D}
    (hg : gs[i]? = some g) (g' : GetterState D) :
    takers (gs.set i g') + g.tookCopy.toNat = takers gs + g'.tookCopy.toNat :=
  Count.countP_set_add hg g'

/-- A step of a Copy type's getter is its copy, or nothing that concerns the
pointer. -/
theorem acquireStep_copy_cases {kind : SourceKind} {q : PutterSpace D} {g : GetterState D}
    {a : Acquired D} (ha : acquireStep kind q g.pc = some a)
    (hrole : g.pc.inRole true g.wantsData = true) :
    (g.pc = .copyData ∧ g.wantsData = true ∧
        a = ⟨q.afterCopy kind, .copyCountdown, some (.copied q.ptr)⟩) ∨
      ((∀ out : List (Datum D), GetterState.tookCopy ⟨g.wantsData, a.pc, out⟩ = g.tookCopy) ∧
        a.space.ptr = q.ptr ∧ a.transfer = none) := by
  cases hpc : g.pc with
  | copyData =>
      have hw : g.wantsData = true := by simpa [hpc, inRole] using hrole
      rw [hpc] at ha
      cases ha
      exact .inl ⟨rfl, hw, rfl⟩
  | storeMoved | loadMoved =>
      rw [hpc] at ha
      cases ha
      exact .inr ⟨fun _ => by simp [GetterState.tookCopy, hpc], rfl, rfl⟩
  | copyCountdown =>
      rw [hpc] at ha
      cases ha
      refine .inr ⟨fun _ => ?_, rfl, rfl⟩
      rcases countDown_pc q .loadMoved .returned with h | h
      · simp [GetterState.tookCopy, hpc, h]
      · simp [GetterState.tookCopy, hpc, h]
  | askMove | winnerCountdown | winnerMove | winnerWait | loserClone | loserCountdown
  | release | signalCountdown | signalAsk =>
      simp [hpc, inRole] at hrole
  | finalize _ | returned =>
      rw [hpc] at ha
      cases ha

/-- A memory cell keeps its pointer until `finalize`. A port's pointer is gone
after the first copy, and a type that has a size is not copied from null. -/
structure CopyPointer (source : FiringSource) (p : PutterSpace D) (s : HandOff D) : Prop where
  memory : source.kind = .memory → finalizes s.log = 0 → s.space.ptr = p.ptr
  port : source.kind = .port →
    (s.space.ptr = p.ptr ∧ takers s.getters = 0) ∨
      (s.space.ptr = .null ∧ 0 < takers s.getters ∧
        (p.typeInfo.layout.size ≠ 0 → takers s.getters = 1))

theorem copyPointer_start (hcopy : p.typeInfo.isCopy = true) :
    CopyPointer source p (start source p heap wants) where
  memory := fun _ _ => rfl
  port := by
    intro _
    refine .inl ⟨rfl, List.countP_eq_zero.2 ?_⟩
    intro g hg
    obtain ⟨w, -, rfl⟩ := List.mem_map.1 hg
    rw [hcopy]
    cases w <;> simp [GetterState.tookCopy, entry]

theorem CopyPointer.step {s t : HandOff D} {i : Nat} (hs : CopyPointer source p s)
    (hcopy : p.typeInfo.isCopy = true) (hset : Setup source p.typeInfo heap wants s)
    (h : Step s i t) : CopyPointer source p t := by
  obtain ⟨g, hg, ⟨b, hpc, rfl⟩ | ⟨a, v, ha, hv, rfl⟩⟩ := h.cases
  · refine ⟨?_, ?_⟩
    · intro _ h0
      simp [finish] at h0
    · intro hk
      have htake := takers_set hg { g with pc := .returned }
      have hsp : (s.finish i g b).space = s.space := by rw [finish, hset.kind, hk]
      have hsame : (GetterState.tookCopy { g with pc := .returned }) = g.tookCopy := by
        simp [GetterState.tookCopy, hpc]
      rw [hsame] at htake
      have heq : takers (s.finish i g b).getters = takers s.getters :=
        Nat.add_right_cancel htake
      rw [hsp, heq]
      exact hs.port hk
  · have hrole := hset.inRole g (List.mem_of_getElem? hg)
    have htake := takers_set hg { g with pc := a.pc, out := v.toList ++ g.out }
    have hlog := finalizes_advance s i g a v
    rw [hcopy] at hrole
    rcases acquireStep_copy_cases ha hrole with ⟨hpc, hw, rfl⟩ | ⟨hsame, hptr, -⟩
    · have hold : g.tookCopy = false := by simp [GetterState.tookCopy, hpc]
      have hnew : GetterState.tookCopy
          { g with pc := AcquirePc.copyCountdown, out := v.toList ++ g.out } = true := hw
      rw [hold, hnew] at htake
      refine ⟨?_, ?_⟩
      · intro hk h0
        show (s.space.afterCopy s.kind).ptr = _
        rw [hset.kind, hk]
        exact hs.memory hk (hlog ▸ h0)
      · intro hk
        have hptr : (s.space.afterCopy s.kind).ptr = .null := by rw [hset.kind, hk]; rfl
        have hgrow : takers (s.advance i g ⟨s.space.afterCopy s.kind, .copyCountdown,
            some (.copied s.space.ptr)⟩ v).getters = takers s.getters + 1 := htake
        refine .inr ⟨hptr, by omega, ?_⟩
        intro hsize
        rcases hs.port hk with ⟨-, h0⟩ | ⟨hgone, -, -⟩
        · omega
        · -- a second copy would have read through null
          rw [Acquired.written] at hv
          simp [Transfer.value, TypeInfo.copied, afterCopy_typeInfo, hset.typeInfo, hgone,
            hsize] at hv
    · have heq : takers (s.advance i g a v).getters = takers s.getters := by
        rw [hsame] at htake
        exact Nat.add_right_cancel htake
      refine ⟨?_, ?_⟩
      · intro hk h0
        exact hptr.trans (hs.memory hk (hlog ▸ h0))
      · intro hk
        rw [heq]
        show (a.space.ptr = _ ∧ _) ∨ (a.space.ptr = _ ∧ _)
        rw [hptr]
        exact hs.port hk

/-- With a memory cell or a single data caller, whoever is about to copy finds
the pointer in place. -/
theorem CopyPointer.ptr_of_copyData {s : HandOff D} (hs : CopyPointer source p s)
    (hset : Setup source p.typeInfo heap wants s) (hcopy : p.typeInfo.isCopy = true)
    (hbooks : Books s) (hsole : source.kind = .memory ∨ wants.count true ≤ 1) {i : Nat}
    {g : GetterState D} (hg : s.getters[i]? = some g) (hpc : g.pc = .copyData) :
    s.space.ptr = p.ptr := by
  by_cases hk : source.kind = .memory
  · exact hs.memory hk (hbooks.not_finalized_of_reads hg (by rw [hpc]; rfl))
  · have hport : source.kind = .port := by
      cases hk' : source.kind with
      | port => rfl
      | memory => exact absurd hk' hk
    rcases hs.port hport with ⟨hptr, -⟩ | ⟨-, hpos, -⟩
    · exact hptr
    · -- whoever took the datum is the one data caller, who is only about to
      obtain ⟨j, g', hg', htook⟩ := Count.exists_getElem?_of_countP_pos hpos
      have hrole := hset.inRole g (List.mem_of_getElem? hg)
      have hw : g.wantsData = true := by
        rw [hpc, hcopy] at hrole
        simpa [inRole] using hrole
      have hw' : g'.wantsData = true := by
        rw [GetterState.tookCopy] at htook
        split at htook
        · cases htook
        · cases htook
        · exact htook
      have hone : s.getters.countP (·.wantsData) ≤ 1 := by
        rw [hset.countP_wantsData]
        exact hsole.resolve_left hk
      obtain rfl := Count.eq_of_countP_le_one hone hg hg' hw hw'
      obtain rfl : g = g' := by
        rw [hg] at hg'
        exact Option.some.inj hg'
      simp [GetterState.tookCopy, hpc] at htook

/-- Every data caller past its copy has the datum, once. -/
structure CopyDelivery (p : PutterSpace D) (d : Datum D) (s : HandOff D) : Prop where
  outs : ∀ g ∈ s.getters, g.wantsData = true → g.out = if g.tookCopy then [d] else []
  log : ∀ i tr, HandOffEvent.transferred i tr ∈ s.log → tr = .copied p.ptr

theorem copyDelivery_start (hcopy : p.typeInfo.isCopy = true) (d : Datum D) :
    CopyDelivery p d (start source p heap wants) where
  outs := by
    intro g hg hw
    obtain ⟨w, -, rfl⟩ := List.mem_map.1 hg
    obtain rfl : w = true := hw
    simp [GetterState.tookCopy, hcopy, entry]
  log := by
    intro i tr h
    cases h

theorem CopyDelivery.step {s t : HandOff D} {i : Nat} {d : Datum D} (hs : CopyDelivery p d s)
    (hd : heap.read p.ptr = some d) (hcopy : p.typeInfo.isCopy = true)
    (hset : Setup source p.typeInfo heap wants s)
    (hptr : ∀ g, s.getters[i]? = some g → g.pc = .copyData → s.space.ptr = p.ptr)
    (h : Step s i t) : CopyDelivery p d t := by
  obtain ⟨g, hg, ⟨b, hpc, rfl⟩ | ⟨a, v, ha, hv, rfl⟩⟩ := h.cases
  · refine ⟨Count.forall_mem_set hs.outs ?_, ?_⟩
    · intro hw
      have hsame : (GetterState.tookCopy { g with pc := .returned }) = g.tookCopy := by
        simp [GetterState.tookCopy, hpc]
      rw [hsame]
      exact hs.outs g (List.mem_of_getElem? hg) hw
    · intro j tr hj
      rcases List.mem_cons.1 hj with hj | hj
      · cases hj
      · exact hs.log j tr hj
  · have hmem := List.mem_of_getElem? hg
    have hrole := hset.inRole g hmem
    rw [hcopy] at hrole
    rcases acquireStep_copy_cases ha hrole with ⟨hpc, hw, rfl⟩ | ⟨hsame, -, htr⟩
    · have hp := hptr g hg hpc
      have hread : s.heap.read s.space.ptr = some d := by rw [hset.heap, hp, hd]
      have hnull : s.space.ptr ≠ .null := by
        intro h0
        rw [h0] at hread
        cases hread
      have hval : v = some d := by
        simp [Acquired.written, Transfer.value, TypeInfo.copied, hnull, hread] at hv
        exact hv.symm
      have hout : g.out = [] := by
        rw [hs.outs g hmem hw]
        simp [GetterState.tookCopy, hpc]
      refine ⟨Count.forall_mem_set hs.outs ?_, ?_⟩
      · intro hw'
        simp [GetterState.tookCopy, hval, hout, hw]
      · intro j tr hj
        rcases List.mem_append.1 hj with hj | hj
        · simp only [Option.map_some, Option.toList_some, List.mem_singleton] at hj
          cases hj
          rw [hp]
        · exact hs.log j tr hj
    · have hval : v = none := by
        rw [written_of_transfer_none htr] at hv
        exact (Option.some.inj hv).symm
      refine ⟨Count.forall_mem_set hs.outs ?_, ?_⟩
      · intro hw'
        rw [hsame, hval]
        exact hs.outs g hmem hw'
      · intro j tr hj
        rw [advance, htr] at hj
        exact hs.log j tr hj

/-! ## Other types, moving enabled -/

/-- How far the datum has come when moving is enabled: it is where it was, or
the last winner has moved it and is about to tell, or that was told, or a
signal caller was the last out and told that nobody moved. -/
inductive EnabledStage (p : PutterSpace D) (s : HandOff D) : Prop where
  | untouched (hlog : s.log = []) (hptr : s.space.ptr = p.ptr)
      (hfin : ∀ g ∈ s.getters, g.pc ≠ .finalize true)
  | moved (i j : Nat) (g : GetterState D) (hlog : s.log = [.transferred i (.copied p.ptr)])
      (hg : s.getters[j]? = some g) (hpc : g.pc = .finalize true)
  | told (i j : Nat) (hlog : s.log = [.finalized j true, .transferred i (.copied p.ptr)])
  | observed (i : Nat) (hlog : s.log = [.finalized i false])

/-- What a getter of such a hand-off can have come to, `n` being the number of
getters. -/
structure EnabledGetter (n : Nat) (d : Datum D) (g : GetterState D) : Prop where
  noLoser : g.pc ≠ .loserClone ∧ g.pc ≠ .loserCountdown ∧ g.pc ≠ .release
  waits : g.pc = .winnerWait → 2 ≤ n
  out : g.wantsData = true → g.out = if g.pc.done then [d] else []

/-- With moving enabled the flags are never zero, so everyone who asks wins
and nobody ever releases the semaphore. -/
structure Enabled (p : PutterSpace D) (wants : List Bool) (d : Datum D) (s : HandOff D) :
    Prop where
  flags : s.space.moveFlags.moveFlags ≠ 0#8
  sema : s.space.moverSema = 0
  getters : ∀ g ∈ s.getters, EnabledGetter wants.length d g
  stage : EnabledStage p s

theorem enabled_start (hcopy : p.typeInfo.isCopy = false) (hsema : p.moverSema = 0)
    (henabled : source.disableMove = false) (d : Datum D) :
    Enabled p wants d (start source p heap wants) where
  flags := by
    show (p.moveFlags.reset !source.disableMove).moveFlags ≠ 0#8
    rw [henabled]
    simp [MoveFlags.reset, MoveFlags.moveFlagDisabled]
  sema := hsema
  getters := by
    intro g hg
    obtain ⟨w, -, rfl⟩ := List.mem_map.1 hg
    rw [hcopy]
    cases w with
    | true => exact ⟨by simp [entry], by simp [entry], fun _ => rfl⟩
    | false => exact ⟨by simp [entry], by simp [entry], by simp⟩
  stage := by
    refine .untouched rfl rfl ?_
    intro g hg
    obtain ⟨w, -, rfl⟩ := List.mem_map.1 hg
    rw [hcopy]
    cases w <;> simp [entry]

/-- The last step of a hand-off with moving enabled. -/
theorem Enabled.finish {s : HandOff D} {i : Nat} {g : GetterState D} {b : Bool}
    {d : Datum D} (hs : Enabled p wants d s) (hbooks : Books s) (hg : s.getters[i]? = some g)
    (hpc : g.pc = .finalize b) : Enabled p wants d (s.finish i g b) := by
  have hmem := List.mem_of_getElem? hg
  obtain ⟨-, hm, hf⟩ := finish_counters s i g b
  have h0 := (hbooks.of_lastOut hg (by rw [hpc]; rfl)).2.2.2
  refine ⟨hf ▸ hs.flags, hm.trans hs.sema, Count.forall_mem_set hs.getters ?_, ?_⟩
  · refine ⟨by simp, by simp, ?_⟩
    intro hw
    rw [(hs.getters g hmem).out hw, hpc]
    rfl
  · cases hs.stage with
    | untouched hlog hptr hfin =>
        cases b with
        | true => exact absurd hpc (hfin g hmem)
        | false => exact .observed i (by rw [HandOff.finish, hlog])
    | moved j k g' hlog hg' hpc' =>
        obtain ⟨-, rfl⟩ := hbooks.lastOut_unique hg hg' (by rw [hpc]; rfl) (by rw [hpc']; rfl)
        obtain rfl : b = true := by
          rw [hpc] at hpc'
          cases hpc'
          rfl
        exact .told j i (by rw [HandOff.finish, hlog])
    | told j k hlog => simp [hlog] at h0
    | observed j hlog => simp [hlog] at h0

/-- An acquire step is possible only while the datum is untouched. -/
theorem Enabled.untouched_of_acquireStep {s : HandOff D} {i : Nat} {g : GetterState D}
    {a : Acquired D} {d : Datum D} (hs : Enabled p wants d s) (hbooks : Books s)
    (hg : s.getters[i]? = some g) (ha : acquireStep s.kind s.space g.pc = some a)
    (h0 : finalizes s.log = 0) :
    s.log = [] ∧ s.space.ptr = p.ptr ∧ ∀ g ∈ s.getters, g.pc ≠ .finalize true := by
  cases hs.stage with
  | untouched hlog hptr hfin => exact ⟨hlog, hptr, hfin⟩
  | moved j k g' hlog hg' hpc' =>
      obtain ⟨hpend, -, hsema, -⟩ := hbooks.of_lastOut hg' (by rw [hpc']; rfl)
      by_cases hlast : g.pc.lastOut = true
      · obtain ⟨-, rfl⟩ := hbooks.lastOut_unique hg hg' hlast (by rw [hpc']; rfl)
        rw [hpc'] at ha
        cases ha
      · by_cases hp : g.pc.pending = true
        · have := pendings_pos hg hp
          omega
        · cases hpc : g.pc <;> simp [hpc, pending, lastOut] at hp hlast
          · rw [hpc, acquireStep, if_neg (by omega)] at ha
            cases ha
          · rw [hpc] at ha
            cases ha
  | told j k hlog => simp [hlog] at h0
  | observed j hlog => simp [hlog] at h0

theorem Enabled.advance {s : HandOff D} {i : Nat} {g : GetterState D} {a : Acquired D}
    {v : Option (Datum D)} {d : Datum D} (hs : Enabled p wants d s)
    (hd : heap.read p.ptr = some d) (hcopy : p.typeInfo.isCopy = false)
    (hset : Setup source p.typeInfo heap wants s) (hbooks : Books s)
    (hg : s.getters[i]? = some g) (ha : acquireStep s.kind s.space g.pc = some a)
    (hv : a.written s.heap = some v) (h0 : finalizes s.log = 0) :
    Enabled p wants d (s.advance i g a v) := by
  have hmem := List.mem_of_getElem? hg
  have hrole := hset.inRole g hmem
  obtain ⟨hlose, -, hout⟩ := hs.getters g hmem
  obtain ⟨hlog, hptr, hfin⟩ := hs.untouched_of_acquireStep hbooks hg ha h0
  rw [hcopy] at hrole
  cases hpc : g.pc with
  | askMove =>
      rw [hpc, acquireStep_askMove, if_neg hs.flags] at ha
      cases ha
      cases hv
      refine ⟨MoveFlags.ask_ne_zero _, hs.sema, Count.forall_mem_set hs.getters ?_,
        .untouched hlog hptr (Count.forall_mem_set hfin (by simp))⟩
      exact ⟨by simp, by simp, by simpa [hpc, done] using hout⟩
  | winnerCountdown =>
      have hpos := pendings_pos hg (by rw [hpc]; rfl)
      rw [hpc] at ha
      cases ha
      cases hv
      have hcd := countDown_pc s.space .winnerMove .winnerWait
      refine ⟨hs.flags, hs.sema, Count.forall_mem_set hs.getters ⟨?_, ?_, ?_⟩,
        .untouched hlog hptr (Count.forall_mem_set hfin ?_)⟩
      · rcases hcd with h | h <;> simp [h]
      · intro hwait
        have hne : s.space.clonerCountdown ≠ 1 := by
          intro h1
          simp [PutterSpace.countDown, h1] at hwait
        have hle : pendings s.getters ≤ s.getters.length := List.countP_le_length
        have := hbooks.countdown
        have := hset.length
        omega
      · intro hw
        have h0 : g.out = [] := by simpa [hpc, done] using hout hw
        rcases hcd with h | h
        · rw [h, show (none : Option (Datum D)).toList ++ g.out = [] from h0]
          rfl
        · rw [h, show (none : Option (Datum D)).toList ++ g.out = [] from h0]
          rfl
      · rcases hcd with h | h <;> simp [h]
  | winnerMove =>
      have hw : g.wantsData = true := by simpa [hpc, inRole] using hrole
      have hnil : g.out = [] := by simpa [hpc, done] using hout hw
      rw [hpc] at ha
      cases ha
      have hread : s.heap.read s.space.ptr = some d := by rw [hset.heap, hptr, hd]
      have hnull : s.space.ptr ≠ .null := by
        intro h0
        rw [h0] at hread
        cases hread
      obtain rfl : some d = v := by
        simpa [Acquired.written, Transfer.value, TypeInfo.copied, hnull, hread] using hv
      refine ⟨(afterCopy_moveFlags _ _).symm ▸ hs.flags, (afterCopy_sema _ _).trans hs.sema,
        Count.forall_mem_set hs.getters ?_, ?_⟩
      · exact ⟨by simp, by simp, fun _ => by simp [hnil, done]⟩
      · refine .moved i i _ ?_ (getElem?_advance hg _ _) rfl
        simp [HandOff.advance, hlog, hptr]
  | signalCountdown =>
      have hw : g.wantsData = false := by simpa [hpc, inRole] using hrole
      rw [hpc] at ha
      cases ha
      cases hv
      have hcd := countDown_pc s.space .signalAsk .returned
      refine ⟨hs.flags, hs.sema, Count.forall_mem_set hs.getters ⟨?_, ?_, ?_⟩,
        .untouched hlog hptr (Count.forall_mem_set hfin ?_)⟩
      · rcases hcd with h | h <;> simp [h]
      · rcases hcd with h | h <;> simp [h]
      · intro hw'
        cases hw.symm.trans hw'
      · rcases hcd with h | h <;> simp [h]
  | signalAsk =>
      have hw : g.wantsData = false := by simpa [hpc, inRole] using hrole
      rw [hpc, acquireStep_signalAsk, if_neg hs.flags] at ha
      cases ha
      cases hv
      refine ⟨MoveFlags.ask_ne_zero _, hs.sema, Count.forall_mem_set hs.getters ?_,
        .untouched hlog hptr (Count.forall_mem_set hfin (by simp))⟩
      exact ⟨by simp, by simp, fun hw' => absurd hw' (by simp [hw])⟩
  | winnerWait =>
      rw [hpc, acquireStep, if_neg (by rw [hs.sema]; omega)] at ha
      cases ha
  | loserClone => exact absurd hpc hlose.1
  | loserCountdown => exact absurd hpc hlose.2.1
  | release => exact absurd hpc hlose.2.2
  | storeMoved | copyData | copyCountdown | loadMoved => simp [hpc, inRole] at hrole
  | finalize _ | returned =>
      rw [hpc] at ha
      cases ha

theorem Enabled.step {s t : HandOff D} {i : Nat} {d : Datum D} (hs : Enabled p wants d s)
    (hd : heap.read p.ptr = some d) (hcopy : p.typeInfo.isCopy = false)
    (hset : Setup source p.typeInfo heap wants s) (hbooks : Books s) (h : Step s i t) :
    Enabled p wants d t := by
  have h0 := hbooks.not_finalized_of_step h
  obtain ⟨g, hg, ⟨b, hpc, rfl⟩ | ⟨a, v, ha, hv, rfl⟩⟩ := h.cases
  · exact hs.finish hbooks hg hpc
  · exact hs.advance hd hcopy hset hbooks hg ha hv h0

end HandOff

end ReoRs
