import ReoRs.Proofs.HandOffComplete

/-!
# Soundness of delivery

What a `get` caller finds behind its out pointer, and what was done to the
datum to put it there. Unlike completion this is a safety property, so the
hand-offs that merely get stuck have it. It fails in two ways. The second
reader of a `Copy` datum at a port reads through the null pointer the first
one left; and with moving disabled, the second data caller takes itself for
the winner and comes back with nothing, or moves a datum that other cells
still point to.
-/

namespace ReoRs

variable {D : Type}

/-- `w` is what a caller who is handed `d` may find: `d` itself, or a clone of
it if the type is not `Copy`. -/
def TypeInfo.Delivers (info : TypeInfo D) (d w : Datum D) : Prop :=
  w = d ∨ (info.isCopy = false ∧ ∃ f, info.funcs.clone = .defined f ∧ w = f d)

def Transfer.isCopied : Transfer → Bool
  | .copied _ => true
  | .cloned _ => false

def HandOffEvent.isCopied : HandOffEvent → Bool
  | .transferred _ t => t.isCopied
  | .finalized _ _ => false

namespace HandOff

open AcquirePc

/-- A state in which no delivery has gone wrong: whoever returned with data
has the datum, once; whoever is about to read finds the putter's pointer in
place; and a datum whose type is not `Copy` is moved at most once, after all
clones, and not at all if moving was disabled. -/
structure Sound (source : FiringSource) (p : PutterSpace D) (d : Datum D) (s : HandOff D) :
    Prop where
  delivered : ∀ g ∈ s.getters, g.wantsData = true → g.pc = .returned →
    ∃ w, g.out = [w] ∧ p.typeInfo.Delivers d w
  reads : ∀ g ∈ s.getters, g.pc.reads = true → s.space.ptr = p.ptr ∧ p.ptr ≠ .null ∧
    (p.typeInfo.isCopy = false → ∀ e ∈ s.log, e.isCopied = false)
  moves : p.typeInfo.isCopy = false → s.log.countP (·.isCopied) ≤ 1
  clonesFirst : p.typeInfo.isCopy = false → ∀ newer i t older,
    s.log = newer ++ .transferred i t :: older → ∀ e ∈ older, e.isCopied = false
  shared : p.typeInfo.isCopy = false → source.disableMove = true →
    ∀ e ∈ s.log, e.isCopied = false

/-- The hand-offs that are sound on every schedule. -/
def Deliverable (source : FiringSource) (info : TypeInfo D) (wants : List Bool) : Prop :=
  wants.count true ≤ 1 ∨
    (info.isCopy = true ∧ source.kind = .memory) ∨
    (info.isCopy = false ∧ (source.disableMove = false ∨ info.funcs.clone = .undefined))

variable {source : FiringSource} {p : PutterSpace D} {heap : Heap D} {wants : List Bool}
  {d : Datum D}

theorem ptr_ne_null (hd : heap.read p.ptr = some d) : p.ptr ≠ .null := by
  intro h0
  rw [h0] at hd
  cases hd

/-- Without a move in the log there is nothing to say about moves. -/
theorem Sound.of_no_copied {s : HandOff D} (hlog : ∀ e ∈ s.log, e.isCopied = false)
    (hdel : ∀ g ∈ s.getters, g.wantsData = true → g.pc = .returned →
      ∃ w, g.out = [w] ∧ p.typeInfo.Delivers d w)
    (hreads : ∀ g ∈ s.getters, g.pc.reads = true → s.space.ptr = p.ptr)
    (hnull : p.ptr ≠ .null) : Sound source p d s where
  delivered := hdel
  reads := fun g hg hr => ⟨hreads g hg hr, hnull, fun _ => hlog⟩
  moves := by
    intro _
    have h0 : s.log.countP (·.isCopied) = 0 :=
      List.countP_eq_zero.2 fun e he => by simp [hlog e he]
    omega
  clonesFirst := by
    intro _ newer i t older hsplit e he
    exact hlog e (by rw [hsplit]; simp [he])
  shared := fun _ _ => hlog

/-! ## Sound hand-offs -/

theorem copy_sound (hcopy : p.typeInfo.isCopy = true) (hwants : wants ≠ [])
    (hsema : p.moverSema = 0) (hd : heap.read p.ptr = some d)
    (hsole : source.kind = .memory ∨ wants.count true ≤ 1) {s : HandOff D}
    (hs : Reachable (start source p heap wants) s) : Sound source p d s := by
  have hset := Setup.of_reachable hs
  have hbooks := Books.of_reachable hsema hwants hs
  obtain ⟨hpointer, hdel⟩ : CopyPointer source p s ∧ CopyDelivery p d s :=
    hs.invariant (P := fun s => CopyPointer source p s ∧ CopyDelivery p d s) hsema hwants
      ⟨copyPointer_start hcopy, copyDelivery_start hcopy d⟩
      fun hset hbooks ⟨hp, hdl⟩ hst => ⟨hp.step hcopy hset hst, hdl.step hd hcopy hset
        (fun _ hg hpc => hp.ptr_of_copyData hset hcopy hbooks hsole hg hpc) hst⟩
  have hno : ¬ p.typeInfo.isCopy = false := by simp [hcopy]
  refine ⟨?_, ?_, fun h => absurd h hno, fun h => absurd h hno, fun h => absurd h hno⟩
  · intro g hg hw hpc
    refine ⟨d, ?_, .inl rfl⟩
    rw [hdel.outs g hg hw, if_pos (by simp [GetterState.tookCopy, hpc, hw])]
  · intro g hg hr
    obtain ⟨i, hi⟩ := List.getElem?_of_mem hg
    have hrole := hset.inRole g hg
    rw [hcopy] at hrole
    have hpc : g.pc = .copyData := by
      cases hpc : g.pc <;> simp [hpc, AcquirePc.reads, inRole] at hr hrole
      rfl
    exact ⟨hpointer.ptr_of_copyData hset hcopy hbooks hsole hi hpc, ptr_ne_null hd,
      fun h => absurd h hno⟩

theorem enabled_sound (hcopy : p.typeInfo.isCopy = false) (hwants : wants ≠ [])
    (hsema : p.moverSema = 0) (hd : heap.read p.ptr = some d)
    (henabled : source.disableMove = false) {s : HandOff D}
    (hs : Reachable (start source p heap wants) s) : Sound source p d s := by
  have hset := Setup.of_reachable hs
  have hbooks := Books.of_reachable hsema hwants hs
  have hmode : Enabled p wants d s := hs.invariant hsema hwants
    (enabled_start hcopy hsema henabled d)
    fun hset hbooks h hst => h.step hd hcopy hset hbooks hst
  have hdel : ∀ g ∈ s.getters, g.wantsData = true → g.pc = .returned →
      ∃ w, g.out = [w] ∧ p.typeInfo.Delivers d w := by
    intro g hg hw hpc
    refine ⟨d, ?_, .inl rfl⟩
    rw [(hmode.getters g hg).out hw, hpc]
    rfl
  have hreads : ∀ g ∈ s.getters, g.pc.reads = true → s.log = [] ∧ s.space.ptr = p.ptr := by
    intro g hg hr
    obtain ⟨i, hi⟩ := List.getElem?_of_mem hg
    obtain ⟨a, ha⟩ : ∃ a, acquireStep s.kind s.space g.pc = some a := by
      cases hpc : g.pc <;> simp [hpc, AcquirePc.reads] at hr <;> exact ⟨_, rfl⟩
    have h0 := hbooks.not_finalized_of_reads hi hr
    obtain ⟨hlog, hptr, -⟩ := hmode.untouched_of_acquireStep hbooks hi ha h0
    exact ⟨hlog, hptr⟩
  have hdis : ¬ source.disableMove = true := by simp [henabled]
  -- the log holds one transfer at most
  have hlog : s.log.countP (·.isCopied) ≤ 1 ∧ ∀ newer i t older,
      s.log = newer ++ .transferred i t :: older → older = [] := by
    cases hmode.stage with
    | untouched hlog hptr hfin =>
        rw [hlog]
        exact ⟨by simp, by simp⟩
    | moved i j g hlog hg hpc =>
        rw [hlog]
        refine ⟨List.countP_le_length, ?_⟩
        intro newer k t older h
        cases newer with
        | nil =>
            cases h
            rfl
        | cons x xs => simp at h
    | told i j hlog =>
        rw [hlog]
        refine ⟨by simp [HandOffEvent.isCopied, Transfer.isCopied], ?_⟩
        intro newer k t older h
        cases newer with
        | nil => cases h
        | cons x xs =>
            cases xs with
            | nil =>
                cases h
                rfl
            | cons y ys => simp at h
    | observed i hlog =>
        rw [hlog]
        refine ⟨List.countP_le_length, ?_⟩
        intro newer k t older h
        cases newer with
        | nil => cases h
        | cons x xs => simp at h
  refine ⟨hdel, ?_, fun _ => hlog.1, ?_, fun _ h => absurd h hdis⟩
  · intro g hg hr
    obtain ⟨hnil, hptr⟩ := hreads g hg hr
    exact ⟨hptr, ptr_ne_null hd, fun _ => by simp [hnil]⟩
  · intro _ newer i t older hsplit
    rw [hlog.2 newer i t older hsplit]
    simp

theorem sole_sound (hcopy : p.typeInfo.isCopy = false) (hwants : wants ≠ [])
    (hsema : p.moverSema = 0) (hd : heap.read p.ptr = some d)
    (hdisabled : source.disableMove = true) (hone : wants.count true ≤ 1) {s : HandOff D}
    (hs : Reachable (start source p heap wants) s) : Sound source p d s := by
  have hbooks := Books.of_reachable hsema hwants hs
  have hmode : Sole p d s := hs.invariant hsema hwants (sole_start hcopy hdisabled d)
    fun hset hbooks h hst => h.step hd hcopy hone hset hbooks hst
  refine .of_no_copied ?_ ?_ ?_ (ptr_ne_null hd)
  · intro e he
    rcases hmode.log e he with ⟨i, rfl⟩ | ⟨i, rfl⟩ <;> rfl
  · intro g hg hw hpc
    rcases (hmode.getters g hg).out hw with ⟨h | h, -⟩ | ⟨-, -, f, hf, hout⟩
    · cases h.symm.trans hpc
    · cases h.symm.trans hpc
    · exact ⟨f d, hout, .inr ⟨hcopy, f, hf, rfl⟩⟩
  · intro g hg hr
    obtain ⟨i, hi⟩ := List.getElem?_of_mem hg
    exact hmode.ptr (hbooks.not_finalized_of_reads hi hr)

/-- Nobody gets past the loser of a type without `Clone`. -/
theorem unclonable_sound (hcopy : p.typeInfo.isCopy = false) (hwants : wants ≠ [])
    (hsema : p.moverSema = 0) (hd : heap.read p.ptr = some d)
    (hdisabled : source.disableMove = true) (hclone : p.typeInfo.funcs.clone = .undefined)
    (hdata : true ∈ wants) {s : HandOff D}
    (hs : Reachable (start source p heap wants) s) : Sound source p d s := by
  have hmode : Unasked p s ∨ ∃ l, Held p l s := hs.invariant
    (P := fun s => Unasked p s ∨ ∃ l, Held p l s) hsema hwants
    (.inl (unasked_start hcopy hdisabled)) (by
      rintro s i t hset hbooks (hun | ⟨l, hheld⟩) hst
      · exact (hun.step hset hbooks hdata hst).imp id fun h => ⟨i, h⟩
      · exact .inr ⟨l, hheld.stays hbooks hset hclone hst⟩)
  rcases hmode with hun | ⟨l, hheld⟩
  · refine .of_no_copied (by simp [hun.log]) ?_ (fun _ _ _ => hun.ptr) (ptr_ne_null hd)
    intro g hg hw hpc
    cases (hun.data g hg hw).1.symm.trans hpc
  · refine .of_no_copied (by simp [hheld.log]) ?_ (fun _ _ _ => hheld.ptr) (ptr_ne_null hd)
    intro g hg hw hpc
    obtain ⟨j, hj⟩ := List.getElem?_of_mem hg
    by_cases hjl : j = l
    · subst hjl
      obtain rfl := Option.some.inj (hheld.loser.symm.trans hj)
      cases hpc
    · rcases (hheld.data j g hjl hj hw).1 with h | h | h <;> cases h.symm.trans hpc

/-! ## Unsound hand-offs -/

/-- Two data callers of a `Copy` port: the second is about to read through the
pointer that the first has removed. -/
theorem copy_not_sound (hcopy : p.typeInfo.isCopy = true) (hd : heap.read p.ptr = some d)
    (hport : source.kind = .port) (htwo : 2 ≤ wants.count true) :
    ∃ s, Reachable (start source p heap wants) s ∧ ¬ Sound source p d s := by
  obtain ⟨i, j, w, w', hij, hi, hj, hw, hw'⟩ :=
    Count.exists_two_of_two_le_countP (p := (· == true)) htwo
  obtain rfl : w = true := by simpa using hw
  obtain rfl : w' = true := by simpa using hw'
  have hnull := ptr_ne_null hd
  set s₀ := start source p heap wants with hs₀
  have hgi₀ : s₀.getters[i]? = some ⟨true, .storeMoved, []⟩ := by
    rw [hs₀, start_getElem? hi, hcopy]
    rfl
  have hgj₀ : s₀.getters[j]? = some ⟨true, .storeMoved, []⟩ := by
    rw [hs₀, start_getElem? hj, hcopy]
    rfl
  -- the first stores its flag and copies
  have h₀ : Step s₀ i _ := step_advance_of_none hgi₀ rfl rfl
  set s₁ := s₀.advance i ⟨true, .storeMoved, []⟩ ⟨_, .copyData, none⟩ none with hs₁
  have hgi₁ : s₁.getters[i]? = some ⟨true, .copyData, []⟩ := getElem?_advance hgi₀ _ _
  have hgj₁ : s₁.getters[j]? = some ⟨true, .storeMoved, []⟩ := (h₀.other hij).trans hgj₀
  have hwritten : Acquired.written (D := D) ⟨s₁.space.afterCopy s₁.kind, .copyCountdown,
      some (.copied s₁.space.ptr)⟩ s₁.heap = some (some d) := by
    have hptr : s₁.space.ptr = p.ptr := rfl
    have hheap : s₁.heap = heap := rfl
    simp [Acquired.written, Transfer.value, TypeInfo.copied, hptr, hheap, hnull, hd]
  have h₁ : Step s₁ i _ := step_advance hgi₁ rfl hwritten
  set s₂ := s₁.advance i ⟨true, .copyData, []⟩ ⟨s₁.space.afterCopy s₁.kind, .copyCountdown,
      some (.copied s₁.space.ptr)⟩ (some d) with hs₂
  have hgj₂ : s₂.getters[j]? = some ⟨true, .storeMoved, []⟩ := (h₁.other hij).trans hgj₁
  -- the second stores its flag
  have h₂ : Step s₂ j _ := step_advance_of_none hgj₂ rfl rfl
  refine ⟨_, ⟨_, ((Run.Reach.single h₀).tail h₁).tail h₂⟩, ?_⟩
  intro hsound
  have hgj₃ := getElem?_advance hgj₂ ⟨{ s₂.space with
    moveFlags := s₂.space.moveFlags.typeIsCopyIMoved }, .copyData, none⟩ none
  obtain ⟨hptr, -⟩ := hsound.reads _ (List.mem_of_getElem? hgj₃) rfl
  have hgone : (s₁.space.afterCopy s₁.kind).ptr = .null := by
    have hk : s₁.kind = .port := hport
    rw [hk]
    rfl
  exact hnull (hptr.symm.trans hgone)

/-- Two data callers with moving disabled: the second returns with nothing. -/
theorem disabled_not_sound (hcopy : p.typeInfo.isCopy = false) (hwants : wants ≠ [])
    (hsema : p.moverSema = 0) (hd : heap.read p.ptr = some d)
    (hdisabled : source.disableMove = true) {f : Datum D → Datum D}
    (hclone : p.typeInfo.funcs.clone = .defined f) (htwo : 2 ≤ wants.count true) :
    ∃ s, Reachable (start source p heap wants) s ∧ ¬ Sound source p d s := by
  obtain ⟨l, j, w, w', hlj, hl, hj, hw, hw'⟩ :=
    Count.exists_two_of_two_le_countP (p := (· == true)) htwo
  obtain rfl : w = true := by simpa using hw
  obtain rfl : w' = true := by simpa using hw'
  have hun : Unasked p (start source p heap wants) := unasked_start hcopy hdisabled
  obtain ⟨s₁, h₁, hheld⟩ := hun.ask (start_getElem? hl) rfl
  have hr₁ : Reachable (start source p heap wants) s₁ := ⟨_, Run.Reach.single h₁⟩
  obtain ⟨h, t, ht, -, hperm, hothers⟩ := hheld.released (Setup.of_reachable hr₁)
    (Books.of_reachable hsema hwants hr₁) hd hclone
  have hrt : Reachable (start source p heap wants) t := hr₁.trans ht
  -- the second data caller waits there with nothing written
  obtain ⟨g, hg, hwant⟩ : ∃ g, t.getters[j]? = some g ∧ g.wantsData = true := by
    have hroles := (Setup.of_reachable hrt).roles
    have hmap : (t.getters.map (·.wantsData))[j]? = some true := by rw [hroles, hj]
    rw [List.getElem?_map] at hmap
    obtain ⟨g, hg, hgw⟩ := Option.map_eq_some_iff.1 hmap
    exact ⟨g, hg, hgw⟩
  obtain ⟨hpc, hnil⟩ := hothers j g (Ne.symm hlj) hg hwant
  have ha : acquireStep t.kind t.space g.pc =
      some ⟨{ t.space with moverSema := t.space.moverSema - 1 }, .finalize true, none⟩ := by
    rw [hpc, acquireStep, if_pos (by omega)]
  have h₂ := step_advance_of_none hg ha rfl
  have hg₂ := getElem?_advance hg
    ⟨{ t.space with moverSema := t.space.moverSema - 1 }, .finalize true, none⟩ none
  have h₃ := step_finish hg₂ rfl
  have hg₃ := getElem?_finish hg₂ true
  refine ⟨_, hrt.trans ((Run.Reach.single h₂).tail h₃), ?_⟩
  intro hsound
  obtain ⟨w, hout, -⟩ := hsound.delivered _ (List.mem_of_getElem? hg₃) hwant rfl
  have hout' : g.out = [w] := hout
  rw [hnil] at hout'
  cases hout'

/-! ## The condition -/

/-- A hand-off of `n ≥ 1` getters is sound in every reachable state iff it is
one of the deliverable ones. -/
theorem sound_iff_deliverable (source : FiringSource) (p : PutterSpace D) (heap : Heap D)
    (wants : List Bool) (d : Datum D) (hwants : wants ≠ []) (hsema : p.moverSema = 0)
    (hd : heap.read p.ptr = some d) :
    (∀ s, Reachable (start source p heap wants) s → Sound source p d s) ↔
      Deliverable source p.typeInfo wants := by
  constructor
  · intro h
    have hnot : ¬ ∃ s, Reachable (start source p heap wants) s ∧ ¬ Sound source p d s := by
      rintro ⟨s, hs, hbad⟩
      exact hbad (h s hs)
    by_cases hone : wants.count true ≤ 1
    · exact .inl hone
    · refine .inr ?_
      cases hcopy : p.typeInfo.isCopy with
      | true =>
          refine .inl ⟨rfl, ?_⟩
          by_contra hk
          have hport : source.kind = .port := by
            cases hk' : source.kind with
            | port => rfl
            | memory => exact absurd hk' hk
          exact hnot (copy_not_sound hcopy hd hport (by omega))
      | false =>
          refine .inr ⟨rfl, ?_⟩
          cases hdis : source.disableMove with
          | false => exact .inl rfl
          | true =>
              refine .inr ?_
              cases hclone : p.typeInfo.funcs.clone with
              | undefined => rfl
              | defined f =>
                  exact absurd (disabled_not_sound hcopy hwants hsema hd hdis hclone (by omega))
                    hnot
  · intro hcond s hs
    cases hcopy : p.typeInfo.isCopy with
    | true =>
        refine copy_sound hcopy hwants hsema hd ?_ hs
        rcases hcond with hone | ⟨-, hk⟩ | ⟨hno, -⟩
        · exact .inr hone
        · exact .inl hk
        · cases hcopy.symm.trans hno
    | false =>
        cases hdis : source.disableMove with
        | false => exact enabled_sound hcopy hwants hsema hd hdis hs
        | true =>
            rcases hcond with hone | ⟨hyes, -⟩ | ⟨-, hen | hclone⟩
            · exact sole_sound hcopy hwants hsema hd hdis hone hs
            · cases hcopy.symm.trans hyes
            · cases hdis.symm.trans hen
            · by_cases hdata : true ∈ wants
              · exact unclonable_sound hcopy hwants hsema hd hdis hclone hdata hs
              · have hnone : wants.count true = 0 := List.count_eq_zero.2 hdata
                exact sole_sound hcopy hwants hsema hd hdis (by omega) hs

/-! ## Two callers of `get` at a shared cell -/

/-- The boxed datum in a memory cell. -/
def boxInCell : PutterSpace Nat := .new (.store 3) boxInfo

def cellHeap : Heap Nat :=
  { (Heap.empty.write (.store 3) (some (.data 7)) : Heap Nat) with allocs := 1, live := [3] }

/-- A cell whose pointer no other cell holds is safe with any callers. -/
theorem sound_of_unshared : boxInCell.moverSema = 0 ∧
    cellHeap.read boxInCell.ptr = some (.data 7) ∧
    Deliverable (.memory 1) boxInfo [true, true, false] ∧
    ((∀ s, Reachable (start (.memory 1) boxInCell cellHeap [true, true, false]) s →
      Sound (.memory 1) boxInCell (.data 7) s) ↔
        Deliverable (.memory 1) boxInfo [true, true, false]) :=
  ⟨rfl, rfl, .inr (.inr ⟨rfl, .inl rfl⟩),
    sound_iff_deliverable (.memory 1) boxInCell cellHeap [true, true, false] (.data 7) (by simp)
      rfl rfl⟩

/-- A cell that shares its pointer with another is not. -/
theorem not_sound_of_shared : boxInCell.moverSema = 0 ∧
    cellHeap.read boxInCell.ptr = some (.data 7) ∧
    ¬ ∀ s, Reachable (start (.memory 2) boxInCell cellHeap [true, true]) s →
      Sound (.memory 2) boxInCell (.data 7) s := by
  refine ⟨rfl, rfl, ?_⟩
  intro h
  obtain ⟨s, hs, hbad⟩ :
      ∃ s, Reachable (start (.memory 2) boxInCell cellHeap [true, true]) s ∧
        ¬ Sound (.memory 2) boxInCell (.data 7) s :=
    disabled_not_sound rfl (by simp) rfl rfl rfl (f := id) rfl (by simp)
  exact hbad (h s hs)

end HandOff

end ReoRs
