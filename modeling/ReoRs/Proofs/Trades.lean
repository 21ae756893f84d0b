import ReoRs.Proofs.Firing
import ReoRs.Proofs.Slots

/-!
# What an action does to the storage

`Performed` says what becomes of the locations of an action. This is the other
half: an action either has nothing to do with the storage, or it stores what a
port gives, or it frees the slot of the last cell that had it. The run is taken
apart to see which, since most of what an action does leaves the memory alone.
-/

namespace ReoRs

variable {D : Type}

open ProtoAll
open Effect (Keeps keeps_pure keeps_throw keeps_set keeps_modify keeps_get_bind keeps_forEach)

/-- The storage and the heap, before and after. -/
inductive Trade (a : RunAction) (kind : SourceKind) (sp : PutterSpace D) (v : Datum D)
    (m m' : Mem D) : Prop where
  | nothing (hkind : kind = .port → a.mg = []) (hsame : m' = m)
  | stored {dest : Ptr} {w : Datum D} (hkind : kind = .port) (hcells : a.mg ≠ [])
      (hvalue : StoredValue sp.typeInfo v a.pg.length w) (hfresh : dest ∉ m.storage.owned)
      (howned : m'.storage.owned = m.storage.owned.insert dest sp.typeInfo.typeId)
      (hread : m'.heap.read dest = some w) (hrest : ∀ q, q ≠ dest → m'.heap.read q = m.heap.read q)
      (hdropped : m'.heap.dropped = m.heap.dropped)
  | freed (hkind : kind = .memory) (howned : m'.storage.owned = m.storage.owned.erase sp.ptr)
      (hread : ∀ q, m'.heap.read q = m.heap.read q)
      (hdropped : m'.heap.dropped = Storage.drops sp.typeInfo.funcs.drop v ++ m.heap.dropped)

/-! ## What leaves the memory alone -/

section Keeps

variable {m : Mem D}

theorem keepsMem_overwriteNullPtr (l : LocId) (q : Ptr) :
    Keeps (fun s : ProtoAll D => s.mem = m) (overwriteNullPtr l q) := by
  refine keeps_get_bind fun s hs => ?_
  split
  · exact keeps_throw _
  · refine Keeps.bind (keeps_set hs) fun _ => ?_
    split
    · exact keeps_throw _
    · exact keeps_pure _

theorem keepsMem_fillCell (l : LocId) (q : Ptr) :
    Keeps (fun s : ProtoAll D => s.mem = m) (fillCell l q) :=
  (keepsMem_overwriteNullPtr l q).bind fun _ => keeps_modify fun _ hs => hs

theorem keepsMem_send (l : LocId) (msg : Nat) :
    Keeps (fun s : ProtoAll D => s.mem = m) (send l msg) :=
  keeps_send_of_setDropbox (fun hs _ _ => hs) l msg

theorem keepsMem_sharePointer (p : LocId) (src : Ptr) (tid : TypeId) (mg : List LocId) :
    Keeps (fun s : ProtoAll D => s.mem = m) (sharePointer p src tid mg) := by
  refine Keeps.bind (keeps_forEach (fun g => ?_) mg) fun _ => keeps_get_bind fun s hs => ?_
  · rw [duplicateRef]
    split
    · exact keeps_pure _
    · refine keeps_get_bind fun s _ => ?_
      split
      · exact keeps_throw _
      · split
        · exact keeps_throw _
        · exact keepsMem_fillCell _ _
  · split
    · exact keeps_throw _
    · split
      · exact keeps_throw _
      · exact Keeps.bind (keeps_set hs) fun _ => keeps_pure _

theorem keepsMem_shareSlots (tid : TypeId) (dest : Ptr) (gs : List LocId) :
    Keeps (fun s : ProtoAll D => s.mem = m) (Effect.forEach (shareSlot tid dest) gs) := by
  refine keeps_forEach (fun g => keeps_get_bind fun s _ => ?_) gs
  split
  · exact keeps_throw _
  · split
    · exact keeps_throw _
    · exact keepsMem_fillCell _ _

theorem keepsMem_countRefs (dest : Ptr) (n : Nat) :
    Keeps (fun s : ProtoAll D => s.mem = m) (countRefs dest n) := by
  refine keeps_get_bind fun s hs => Keeps.bind (keeps_set hs) fun _ => ?_
  split
  · exact keeps_throw _
  · exact keeps_pure _

theorem keepsMem_becomeReady (l : LocId) :
    Keeps (fun s : ProtoAll D => s.mem = m) (becomeReady l) := by
  refine keeps_get_bind fun s hs => Keeps.bind (keeps_set hs) fun _ => ?_
  split
  · exact keeps_throw _
  · exact keeps_pure _

theorem keepsMem_callGetters (p : LocId) (disableMove : Bool) (pg : List LocId) :
    Keeps (fun s : ProtoAll D => s.mem = m) (callGetters p disableMove pg) := by
  refine Keeps.bind (keeps_modify fun _ hs => hs) fun _ => keeps_forEach (fun g => ?_) pg
  refine keeps_get_bind fun s _ => ?_
  split
  · exact keepsMem_send _ _
  · exact keeps_throw _

end Keeps

/-! ## Storing -/

theorem owned_of_store {src : Ptr} {info : TypeInfo D} {m m' : Mem D} {dest : Ptr} {n : Nat}
    (h : (match n with
      | 0 => Storage.moveIn src info
      | _ => Storage.cloneIn src info).run m = .ok dest m') :
    m'.storage.owned = m.storage.owned.insert dest info.typeId := by
  cases n with
  | zero => exact (handsOut_moveIn src info).owned h
  | succ n => exact (handsOut_cloneIn src info).owned h

section Trade

variable {s t : ProtoAll D} {a : RunAction} {kind : SourceKind} {sp : PutterSpace D}
  {v : Datum D}

theorem ActionReady.exists_storedValue (ha : ActionReady s a .port sp v) (hne : a.mg ≠ []) :
    ∃ w, StoredValue sp.typeInfo v a.pg.length w := by
  cases hlen : a.pg.length with
  | zero => exact ⟨v, rfl⟩
  | succ n =>
      obtain ⟨f, hf⟩ := ha.clone rfl hne fun hnil => by
        rw [hnil] at hlen
        cases hlen
      exact ⟨f v, f, hf, rfl⟩

/-- The first of the getter cells is given a slot of its own. -/
theorem trade_of_populate (hs : Coherent s) (ha : ActionReady s a .port sp v)
    (h : (populateMemory sp.ptr a.mg a.pg).run s = .ok () t) : Trade a .port sp v s.mem t.mem := by
  cases hmg : a.mg with
  | nil =>
      rw [hmg] at h
      cases h
      exact .nothing (fun _ => hmg) rfl
  | cons first others =>
      have hne : a.mg ≠ [] := by rw [hmg]; exact List.cons_ne_nil _ _
      obtain ⟨w, hw⟩ := ha.exists_storedValue hne
      obtain ⟨gp, hgp, hinfo⟩ := getMePu_of_fillable (ha.cells first (by rw [hmg]; simp))
      have hptr : sp.ptr = .stack a.putter := ha.putter.2
      obtain ⟨dest, m, hstore, hspec⟩ :=
        run_store (m := s.mem) hs.valid (hptr ▸ ha.value) hw
      rw [hmg, hptr, populateMemory, EStateM.run_bind, EStateM.run_get] at h
      simp only [hgp, hinfo] at h
      replace h := (Effect.run_bind_of_ok (run_onStorage hstore)).symm.trans h
      have hkeeps : Keeps (fun u : ProtoAll D => u.mem = m) (do
          fillCell first dest
          Effect.forEach (shareSlot sp.typeInfo.typeId dest) others
          countRefs dest (1 + others.length)) :=
        (keepsMem_fillCell first dest).bind fun _ =>
          (keepsMem_shareSlots _ _ _).bind fun _ => keepsMem_countRefs _ _
      obtain rfl : t.mem = m := hkeeps.of_ok rfl h
      exact .stored rfl hne hw hspec.allocated.fresh (owned_of_store hstore) hspec.value
        hspec.allocated.read hspec.allocated.dropped

theorem trade_of_feedMemory (hs : Coherent s) (ha : ActionReady s a kind sp v) {d : Bool}
    (h : (feedMemory a.putter a.mg a.pg).run s = .ok d t) :
    (kind = .port → Trade a kind sp v s.mem t.mem) ∧ (kind = .memory → t.mem = s.mem) := by
  rw [feedMemory, EStateM.run_bind, EStateM.run_get] at h
  have hput := ha.putter
  cases kind with
  | port =>
      simp only [hput.1] at h
      obtain ⟨_, u, hpop, hpure⟩ := Effect.ok_of_bind_ok h
      cases hpure
      exact ⟨fun _ => trade_of_populate hs ha hpop, fun hk => by cases hk⟩
  | memory =>
      simp only [hput.1] at h
      exact ⟨fun hk => (by cases hk), fun _ => (keepsMem_sharePointer _ _ _ _).of_ok rfl h⟩

/-! ## Freeing -/

/-- The slot's datum is dropped and the slot given back. -/
theorem mem_of_dropInside {src : Ptr} {info : TypeInfo D} {m m' : Mem D}
    (hv : m.heap.read src = some v) (h : (Storage.dropInside src info).run m = .ok () m') :
    m'.storage.owned = m.storage.owned.erase src ∧ (∀ q, m'.heap.read q = m.heap.read q) ∧
      m'.heap.dropped = Storage.drops info.funcs.drop v ++ m.heap.dropped := by
  obtain ⟨_, m₁, hdrop, hfree⟩ := Effect.ok_of_bind_ok h
  obtain ⟨heap, hexec, rfl⟩ := liftHeap_cases hdrop
  rw [Storage.run_dropFn hv] at hexec
  cases hexec
  rw [Storage.innerFree, EStateM.run_bind, EStateM.run_get] at hfree
  dsimp only at hfree
  split at hfree
  · cases hfree
  · simp only [EStateM.run_bind, EStateM.run_set] at hfree
    split at hfree
    · cases hfree
    · cases hfree
      refine ⟨rfl, fun q => ?_, rfl⟩
      cases q <;> rfl

theorem trade_of_makeEmpty {l : LocId} (hsp : s.getSpace l = some (.memo sp))
    (hv : s.heap.read sp.ptr = some v) (h : (makeEmpty true l).run s = .ok () t) :
    Trade a .memory sp v s.mem t.mem := by
  have hput : s.getSpacePutter l = some sp := getSpacePutter_eq hsp
  rw [makeEmpty, EStateM.run_bind, EStateM.run_get] at h
  simp only [hput] at h
  obtain ⟨_, s₁, hset, h⟩ := Effect.ok_of_bind_ok h
  cases hset
  obtain ⟨_, s₂, hrelease, hready⟩ := Effect.ok_of_bind_ok h
  have hmem : t.mem = s₂.mem := (keepsMem_becomeReady l).of_ok rfl hready
  rw [hmem]
  rw [releaseRef, EStateM.run_bind, EStateM.run_get] at hrelease
  dsimp only at hrelease
  split at hrelease
  · cases hrelease
  · split at hrelease
    · cases hrelease
    · obtain ⟨_, s₃, hmodify, hrelease⟩ := Effect.ok_of_bind_ok hrelease
      cases hmodify
      split at hrelease
      · -- that was the last reference
        obtain ⟨_, s₄, hmodify, hfree⟩ := Effect.ok_of_bind_ok hrelease
        cases hmodify
        obtain ⟨m, hdrop, rfl⟩ := Effect.ok_of_zoom_ok hfree
        obtain ⟨howned, hread, hdropped⟩ := mem_of_dropInside hv hdrop
        exact .freed rfl howned hread hdropped
      · cases hrelease
        exact .nothing (fun hk => by cases hk) rfl

/-! ## The whole action -/

/-- An action of a port stores or does nothing, one of a cell frees or does
nothing. -/
theorem trade_of_performAction (hs : Coherent s) (ha : ActionReady s a kind sp v)
    (h : (performAction a.putter a.mg a.pg).run s = .ok () t) :
    Trade a kind sp v s.mem t.mem := by
  obtain ⟨d, u, hfeed, hend⟩ := Effect.ok_of_bind_ok h
  obtain ⟨hport, hmemory⟩ := trade_of_feedMemory hs ha hfeed
  have hspace : u.getSpace a.putter = s.getSpace a.putter := by
    obtain ⟨d', u', hfeed', hfed⟩ := feedMemory_ok hs ha
    rw [hfeed] at hfeed'
    cases hfeed'
    exact hfed.others _ ha.putterNotCell
  have hput := ha.putter
  split at hend
  · rw [releasePutter, EStateM.run_bind, EStateM.run_get] at hend
    simp only [hspace] at hend
    cases kind with
    | port =>
        simp only [hput.1] at hend
        have hmem : t.mem = u.mem := (keepsMem_send _ _).of_ok rfl hend
        rw [hmem]
        exact hport rfl
    | memory =>
        simp only [hput.1, if_neg ha.putterNotCell] at hend
        have hmem := hmemory rfl
        have hv : u.heap.read sp.ptr = some v := by
          rw [show u.heap = s.heap from congrArg Mem.heap hmem, ha.value]
        have htrade := trade_of_makeEmpty (a := a) (hspace.trans hput.1) hv hend
        rwa [hmem] at htrade
  · have hmem : t.mem = u.mem := (keepsMem_callGetters _ _ _).of_ok rfl hend
    rw [hmem]
    cases kind with
    | port => exact hport rfl
    | memory => exact .nothing (fun hk => by cases hk) (hmemory rfl)

end Trade

end ReoRs
