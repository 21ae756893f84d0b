import ReoRs.Proto.Coordinate

/-!
# What an update of the state leaves alone

The procedures change the instance by a handful of updates: a pointer, a
dropbox slot, a ready bit, the reference counts, the storage. Here is what a
reader of each part sees after each of them, so that no later proof unfolds
one.
-/

namespace ReoRs

variable {D : Type}

namespace Space

/-- What never changes about a space: its kind, and the descriptor of what it
holds. -/
inductive Shape (D : Type) where
  | poPu (info : TypeInfo D)
  | poGe
  | memo (info : TypeInfo D)
  | temp (info : TypeInfo D)
  | unused

def shape : Space D → Shape D
  | poPu p _ => .poPu p.typeInfo
  | poGe _ => .poGe
  | memo p => .memo p.typeInfo
  | temp p => .temp p.typeInfo
  | unused => .unused

@[simp] theorem shape_mapDropbox (f : MsgDropbox → MsgDropbox) (sp : Space D) :
    (sp.mapDropbox f).shape = sp.shape := by
  cases sp <;> rfl

theorem shape_mapPutter {f : PutterSpace D → PutterSpace D}
    (hf : ∀ p, (f p).typeInfo = p.typeInfo) (sp : Space D) :
    (sp.mapPutter f).shape = sp.shape := by
  cases sp <;> simp [mapPutter, shape, hf]

end Space

namespace ProtoAll

/-! ## Spaces -/

theorem getSpace_mapSpace (s : ProtoAll D) (id : LocId) (f : Space D → Space D) (l : LocId) :
    (s.mapSpace id f).getSpace l = if l = id then (s.getSpace l).map f else s.getSpace l := by
  simp only [getSpace, mapSpace, List.getElem?_modify]
  by_cases h : l = id
  · subst h
    simp
  · simp [h, Ne.symm h]

@[simp] theorem getSpace_mapSpace_self (s : ProtoAll D) (id : LocId) (f : Space D → Space D) :
    (s.mapSpace id f).getSpace id = (s.getSpace id).map f := by
  rw [getSpace_mapSpace, if_pos rfl]

theorem getSpace_mapSpace_ne (s : ProtoAll D) {id l : LocId} (f : Space D → Space D)
    (h : l ≠ id) : (s.mapSpace id f).getSpace l = s.getSpace l := by
  rw [getSpace_mapSpace, if_neg h]

theorem getSpace_setPtr (s : ProtoAll D) (id : LocId) (q : Ptr) (l : LocId) :
    (s.setPtr id q).getSpace l =
      if l = id then (s.getSpace l).map (Space.mapPutter fun p => { p with ptr := q })
      else s.getSpace l :=
  getSpace_mapSpace s id _ l

theorem getSpace_setPtr_ne (s : ProtoAll D) {id l : LocId} (q : Ptr) (h : l ≠ id) :
    (s.setPtr id q).getSpace l = s.getSpace l :=
  getSpace_mapSpace_ne s _ h

theorem getSpace_setDropbox (s : ProtoAll D) (id : LocId) (m : Option Nat) (l : LocId) :
    (s.setDropbox id m).getSpace l =
      if l = id then (s.getSpace l).map (Space.mapDropbox fun _ => ⟨m⟩) else s.getSpace l :=
  getSpace_mapSpace s id _ l

theorem getSpace_setDropbox_ne (s : ProtoAll D) {id l : LocId} (m : Option Nat) (h : l ≠ id) :
    (s.setDropbox id m).getSpace l = s.getSpace l :=
  getSpace_mapSpace_ne s _ h

@[simp] theorem getSpace_setReady (s : ProtoAll D) (id : LocId) (v : Bool) (l : LocId) :
    (s.setReady id v).getSpace l = s.getSpace l := rfl

@[simp] theorem getSpace_mapMemRefs (s : ProtoAll D) (f : HashMap Ptr Nat → HashMap Ptr Nat)
    (l : LocId) : (s.mapMemRefs f).getSpace l = s.getSpace l := rfl

@[simp] theorem getSpace_putMem (s : ProtoAll D) (m : Mem D) (l : LocId) :
    (putMem m s).getSpace l = s.getSpace l := rfl

/-- The spaces' kinds and descriptors. -/
def shapes (s : ProtoAll D) : List (Space.Shape D) := s.r.spaces.map Space.shape

theorem shapes_mapSpace_of {s : ProtoAll D} {id : LocId} {f : Space D → Space D}
    (hf : ∀ sp, s.getSpace id = some sp → (f sp).shape = sp.shape) :
    (s.mapSpace id f).shapes = s.shapes := by
  rw [shapes, shapes]
  refine List.ext_getElem? fun i => ?_
  rw [List.getElem?_map, List.getElem?_map]
  show Option.map _ ((s.mapSpace id f).getSpace i) = Option.map _ (s.getSpace i)
  rw [getSpace_mapSpace]
  split
  · next h =>
      subst h
      cases hsp : s.getSpace i with
      | none => rfl
      | some sp => simp [hf sp hsp]
  · rfl

theorem shapes_mapSpace {f : Space D → Space D} (hf : ∀ sp, (f sp).shape = sp.shape)
    (s : ProtoAll D) (id : LocId) : (s.mapSpace id f).shapes = s.shapes :=
  shapes_mapSpace_of fun sp _ => hf sp

@[simp] theorem shapes_setPtr (s : ProtoAll D) (id : LocId) (q : Ptr) :
    (s.setPtr id q).shapes = s.shapes :=
  shapes_mapSpace (f := Space.mapPutter fun p => { p with ptr := q })
    (Space.shape_mapPutter fun _ => rfl) s id

@[simp] theorem shapes_setDropbox (s : ProtoAll D) (id : LocId) (m : Option Nat) :
    (s.setDropbox id m).shapes = s.shapes :=
  shapes_mapSpace (Space.shape_mapDropbox _) s id

@[simp] theorem shapes_setReady (s : ProtoAll D) (id : LocId) (v : Bool) :
    (s.setReady id v).shapes = s.shapes := rfl

@[simp] theorem shapes_mapMemRefs (s : ProtoAll D) (f : HashMap Ptr Nat → HashMap Ptr Nat) :
    (s.mapMemRefs f).shapes = s.shapes := rfl

@[simp] theorem shapes_putMem (s : ProtoAll D) (m : Mem D) : (putMem m s).shapes = s.shapes := rfl

theorem length_spaces_of_shapes {s t : ProtoAll D} (h : s.shapes = t.shapes) :
    s.r.spaces.length = t.r.spaces.length := by
  simpa [shapes] using congrArg List.length h

theorem getSpace_shape {s t : ProtoAll D} (h : s.shapes = t.shapes) (l : LocId) :
    (s.getSpace l).map Space.shape = (t.getSpace l).map Space.shape := by
  have := congrArg (fun xs => xs[l]?) h
  simpa [shapes, getSpace] using this

/-! ## Cells -/

/-- A memory cell's pointer and descriptor. -/
def cell (s : ProtoAll D) (l : LocId) : Option (Ptr × TypeInfo D) :=
  (s.getMePu l).map fun p => (p.ptr, p.typeInfo)

theorem getDropbox_eq {s : ProtoAll D} {l : LocId} {sp : Space D} (h : s.getSpace l = some sp) :
    s.getDropbox l = sp.dropbox := by
  rw [getDropbox, h, Option.bind_some]

theorem getSpacePutter_eq {s : ProtoAll D} {l : LocId} {sp : Space D}
    (h : s.getSpace l = some sp) : s.getSpacePutter l = sp.putter := by
  rw [getSpacePutter, h, Option.bind_some]

theorem getMePu_eq_some {s : ProtoAll D} {l : LocId} {p : PutterSpace D} :
    s.getMePu l = some p ↔ s.getSpace l = some (.memo p) := by
  rw [getMePu]
  constructor
  · intro h
    split at h
    · next q hq =>
        cases h
        exact hq
    · cases h
  · intro h
    rw [h]

theorem cell_congr {s t : ProtoAll D} {l : LocId} (h : s.getSpace l = t.getSpace l) :
    s.cell l = t.cell l := by
  rw [cell, cell, getMePu, getMePu, h]

theorem cell_eq_some {s : ProtoAll D} {l : LocId} {q : Ptr} {info : TypeInfo D} :
    s.cell l = some (q, info) ↔
      ∃ p, s.getSpace l = some (.memo p) ∧ p.ptr = q ∧ p.typeInfo = info := by
  simp only [cell, Option.map_eq_some_iff, getMePu_eq_some, Prod.mk.injEq]

theorem cell_setPtr (s : ProtoAll D) (id : LocId) (q : Ptr) (l : LocId) :
    (s.setPtr id q).cell l = if l = id then (s.cell l).map (fun c => (q, c.2)) else s.cell l := by
  by_cases h : l = id
  · subst h
    rw [if_pos rfl, cell, cell, getMePu, getMePu, getSpace_setPtr, if_pos rfl]
    cases s.getSpace l with
    | none => rfl
    | some sp => cases sp <;> rfl
  · rw [if_neg h]
    exact cell_congr (getSpace_setPtr_ne s q h)

/-- Dropboxes and counters are not part of a cell. -/
theorem cell_mapSpace {f : Space D → Space D}
    (hf : ∀ sp, (match f sp with | .memo p => some (p.ptr, p.typeInfo) | _ => none) =
      (match sp with | .memo p => some (p.ptr, p.typeInfo) | _ => none))
    (s : ProtoAll D) (id l : LocId) : (s.mapSpace id f).cell l = s.cell l := by
  have hcell : ∀ (t : ProtoAll D), t.cell l = (t.getSpace l).bind fun sp =>
      match sp with | .memo p => some (p.ptr, p.typeInfo) | _ => none := by
    intro t
    rw [cell, getMePu]
    cases t.getSpace l with
    | none => rfl
    | some sp => cases sp <;> rfl
  rw [hcell, hcell, getSpace_mapSpace]
  split
  · cases s.getSpace l with
    | none => rfl
    | some sp => exact hf sp
  · rfl

@[simp] theorem cell_setDropbox (s : ProtoAll D) (id : LocId) (m : Option Nat) (l : LocId) :
    (s.setDropbox id m).cell l = s.cell l :=
  cell_mapSpace (fun sp => by cases sp <;> rfl) s id l

theorem cell_mapPutter {f : PutterSpace D → PutterSpace D}
    (hf : ∀ p, (f p).ptr = p.ptr ∧ (f p).typeInfo = p.typeInfo) (s : ProtoAll D) (id l : LocId) :
    (s.mapPutter id f).cell l = s.cell l :=
  cell_mapSpace (fun sp => by cases sp <;> simp [Space.mapPutter, hf]) s id l

@[simp] theorem cell_setReady (s : ProtoAll D) (id : LocId) (v : Bool) (l : LocId) :
    (s.setReady id v).cell l = s.cell l := rfl

@[simp] theorem cell_mapMemRefs (s : ProtoAll D) (f : HashMap Ptr Nat → HashMap Ptr Nat)
    (l : LocId) : (s.mapMemRefs f).cell l = s.cell l := rfl

@[simp] theorem cell_putMem (s : ProtoAll D) (m : Mem D) (l : LocId) :
    (putMem m s).cell l = s.cell l := rfl

/-! ## The parts under the lock -/

@[simp] theorem ready_setReady (s : ProtoAll D) (id : LocId) (v : Bool) (l : LocId) :
    (s.setReady id v).w.active.ready.test l = if l = id then v else s.w.active.ready.test l :=
  BitSet.test_setTo _ id v l

@[simp] theorem mem_putMem (s : ProtoAll D) (m : Mem D) : (putMem m s).mem = m := rfl

/-- Nothing of a group, and no commitment: the state of a protocol without
port groups. -/
structure Ungrouped (s : ProtoAll D) : Prop where
  commitment : s.w.commitment = none
  readyTentative : s.w.readyTentative = ∅
  awaitingStates : s.w.awaitingStates = []

end ProtoAll

end ReoRs
