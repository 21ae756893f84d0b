import Mathlib.Tactic.Common

/-!
# Computations that update a state and may fail part way

`EStateM ε σ α` is the shape of an imperative function whose failure leaves
behind whatever it had already done: the error carries the state it happened
in. Core provides the monad and the equations of its operations; this file
has the rules that are missing for proofs about programs in it. A step known
to succeed is executed, a successful run is taken apart, the two loop rules
carry an invariant over a list, and `zoom` runs a computation on a part of a
larger state.
-/

namespace Effect

variable {ε σ τ α β : Type}

@[simp] theorem run_throw (e : ε) (s : σ) :
    EStateM.run (throw e : EStateM ε σ α) s = .error e s := rfl

/-- A first step that succeeds hands its value and its state on. -/
theorem run_bind_of_ok {x : EStateM ε σ α} {f : α → EStateM ε σ β} {s t : σ} {a : α}
    (h : x.run s = .ok a t) : (x >>= f).run s = (f a).run t := by
  rw [EStateM.run_bind, h]

theorem run_bind_of_error {x : EStateM ε σ α} {f : α → EStateM ε σ β} {s t : σ} {e : ε}
    (h : x.run s = .error e t) : (x >>= f).run s = .error e t := by
  rw [EStateM.run_bind, h]

/-- A successful sequence had a successful first step. -/
theorem ok_of_bind_ok {x : EStateM ε σ α} {f : α → EStateM ε σ β} {s u : σ} {b : β}
    (h : (x >>= f).run s = .ok b u) :
    ∃ a t, x.run s = .ok a t ∧ (f a).run t = .ok b u := by
  rw [EStateM.run_bind] at h
  split at h
  · next a t hx => exact ⟨a, t, hx, h⟩
  · cases h

/-! ## Loops -/

/-- A loop over a list, in the list's order. -/
def forEach (f : α → EStateM ε σ Unit) : List α → EStateM ε σ Unit
  | [] => pure ()
  | x :: xs => do
      f x
      forEach f xs

@[simp] theorem run_forEach_nil (f : α → EStateM ε σ Unit) (s : σ) :
    (forEach f []).run s = .ok () s := rfl

theorem run_forEach_cons (f : α → EStateM ε σ Unit) (x : α) (xs : List α) (s : σ) :
    (forEach f (x :: xs)).run s = (f x >>= fun _ => forEach f xs).run s := rfl

/-- The loop rule for runs known to succeed: if every round succeeds from the
invariant of the rounds before it and reestablishes its own, the loop
succeeds and ends in the invariant of the whole list. -/
theorem forEach_ok {f : α → EStateM ε σ Unit} {I : List α → σ → Prop} {xs : List α}
    (hround : ∀ done x rest s, xs = done ++ x :: rest → I done s →
      ∃ t, (f x).run s = .ok () t ∧ I (done ++ [x]) t) {s : σ} (h0 : I [] s) :
    ∃ t, (forEach f xs).run s = .ok () t ∧ I xs t := by
  suffices h : ∀ rest done s, xs = done ++ rest → I done s →
      ∃ t, (forEach f rest).run s = .ok () t ∧ I xs t from h xs [] s rfl h0
  intro rest
  induction rest with
  | nil =>
      intro done s hxs hI
      exact ⟨s, rfl, by simpa [hxs] using hI⟩
  | cons x rest ih =>
      intro done s hxs hI
      obtain ⟨t, hx, hI'⟩ := hround done x rest s hxs hI
      obtain ⟨u, hrest, hu⟩ := ih (done ++ [x]) t (by simp [hxs]) hI'
      exact ⟨u, by rw [run_forEach_cons, run_bind_of_ok hx, hrest], hu⟩

/-- The loop rule for runs that happened to succeed. -/
theorem forEach_inv {f : α → EStateM ε σ Unit} {I : σ → Prop} :
    ∀ {xs : List α} (_ : ∀ x ∈ xs, ∀ s t, I s → (f x).run s = .ok () t → I t) {s t : σ},
      I s → (forEach f xs).run s = .ok () t → I t
  | [], _, s, t, hI, h => by
      cases h
      exact hI
  | x :: xs, hround, s, t, hI, h => by
      rw [run_forEach_cons] at h
      obtain ⟨_, u, hx, hrest⟩ := ok_of_bind_ok h
      exact forEach_inv (fun y hy => hround y (List.mem_cons_of_mem x hy))
        (hround x List.mem_cons_self s u hI hx) hrest

/-! ## Where a failure comes from -/

theorem error_of_bind_error {x : EStateM ε σ α} {f : α → EStateM ε σ β} {s u : σ} {e : ε}
    (h : (x >>= f).run s = .error e u) :
    x.run s = .error e u ∨ ∃ a t, x.run s = .ok a t ∧ (f a).run t = .error e u := by
  rw [EStateM.run_bind] at h
  split at h
  · next a t hx => exact .inr ⟨a, t, hx, h⟩
  · next e' t hx =>
      cases h
      exact .inl hx

/-- A loop that fails has gone well so far. -/
theorem error_of_forEach_error {f : α → EStateM ε σ Unit} : ∀ {xs : List α} {s t : σ} {e : ε},
    (forEach f xs).run s = .error e t →
      ∃ done x rest u, xs = done ++ x :: rest ∧ (forEach f done).run s = .ok () u ∧
        (f x).run u = .error e t
  | [], _, _, _, h => nomatch h
  | x :: xs, s, t, e, h => by
      rw [run_forEach_cons] at h
      rcases error_of_bind_error h with hx | ⟨_, v, hx, hrest⟩
      · exact ⟨[], x, xs, s, rfl, rfl, hx⟩
      · obtain ⟨done, y, rest, u, rfl, hdone, hy⟩ := error_of_forEach_error hrest
        exact ⟨x :: done, y, rest, u, rfl, by rw [run_forEach_cons, run_bind_of_ok hx, hdone], hy⟩

/-- The computation never fails in this way. -/
def Avoids (e : ε) (x : EStateM ε σ α) : Prop := ∀ s t, x.run s ≠ .error e t

section Avoids

variable {e : ε}

theorem avoids_pure (a : α) : Avoids e (pure a : EStateM ε σ α) := fun _ _ => nofun

theorem avoids_throw {e' : ε} (h : e' ≠ e) : Avoids e (throw e' : EStateM ε σ α) := by
  intro s t hrun
  cases hrun
  exact h rfl

theorem avoids_set (s' : σ) : Avoids e (set s' : EStateM ε σ PUnit) := fun _ _ => nofun

theorem avoids_modify (f : σ → σ) : Avoids e (modify f : EStateM ε σ PUnit) := fun _ _ => nofun

theorem Avoids.bind {x : EStateM ε σ α} {f : α → EStateM ε σ β} (hx : Avoids e x)
    (hf : ∀ a, Avoids e (f a)) : Avoids e (x >>= f) := by
  intro s t h
  rcases error_of_bind_error h with hx' | ⟨a, u, -, hrest⟩
  · exact hx s t hx'
  · exact hf a u t hrest

theorem avoids_get_bind {f : σ → EStateM ε σ β} (hf : ∀ s, Avoids e (f s)) :
    Avoids e (get >>= f) := fun s t h => hf s s t h

theorem avoids_forEach {f : α → EStateM ε σ Unit} (hf : ∀ x, Avoids e (f x)) (xs : List α) :
    Avoids e (forEach f xs) := by
  intro s t h
  obtain ⟨-, x, -, u, -, -, hx⟩ := error_of_forEach_error h
  exact hf x u t hx

end Avoids

/-! ## What survives failure

A property that every step of a computation keeps holds of the state it ends
in, whether it ends well or not. -/

def Keeps (I : σ → Prop) (x : EStateM ε σ α) : Prop :=
  ∀ s, I s → match x.run s with
    | .ok _ t => I t
    | .error _ t => I t

section Keeps

variable {I : σ → Prop}

theorem Keeps.of_ok {x : EStateM ε σ α} (hx : Keeps I x) {s t : σ} {a : α} (hs : I s)
    (h : x.run s = .ok a t) : I t := by
  have := hx s hs
  rw [h] at this
  exact this

theorem Keeps.of_error {x : EStateM ε σ α} (hx : Keeps I x) {s t : σ} {e : ε} (hs : I s)
    (h : x.run s = .error e t) : I t := by
  have := hx s hs
  rw [h] at this
  exact this

theorem keeps_pure (a : α) : Keeps I (pure a : EStateM ε σ α) := fun _ hs => hs

theorem keeps_throw (e : ε) : Keeps I (throw e : EStateM ε σ α) := fun _ hs => hs

theorem keeps_set {s' : σ} (h : I s') : Keeps I (set s' : EStateM ε σ PUnit) := fun _ _ => h

theorem keeps_modify {f : σ → σ} (h : ∀ s, I s → I (f s)) :
    Keeps I (modify f : EStateM ε σ PUnit) := fun s hs => h s hs

theorem Keeps.bind {x : EStateM ε σ α} {f : α → EStateM ε σ β} (hx : Keeps I x)
    (hf : ∀ a, Keeps I (f a)) : Keeps I (x >>= f) := by
  intro s hs
  rw [EStateM.run_bind]
  cases h : x.run s with
  | ok a t => exact hf a t (hx.of_ok hs h)
  | error e t => exact hx.of_error hs h

/-- What a computation never changes it keeps every property of. -/
theorem Keeps.of_unchanged {β : Type} {f : σ → β} {x : EStateM ε σ α}
    (hx : ∀ b, Keeps (fun s => f s = b) x) (p : β → Prop) : Keeps (fun s => p (f s)) x := by
  intro s hs
  cases hrun : x.run s with
  | ok a t =>
      have h : f t = f s := (hx (f s)).of_ok rfl hrun
      show p (f t)
      rwa [h]
  | error e t =>
      have h : f t = f s := (hx (f s)).of_error rfl hrun
      show p (f t)
      rwa [h]

/-- The state a computation reads first has the property. -/
theorem keeps_get_bind {f : σ → EStateM ε σ β} (hf : ∀ s, I s → Keeps I (f s)) :
    Keeps I (get >>= f) := fun s hs => hf s hs s hs

theorem keeps_forEach_of_mem {f : α → EStateM ε σ Unit} :
    ∀ {xs : List α}, (∀ x ∈ xs, Keeps I (f x)) → Keeps I (forEach f xs)
  | [], _ => keeps_pure ()
  | x :: _, hf => (hf x List.mem_cons_self).bind fun _ =>
      keeps_forEach_of_mem fun y hy => hf y (List.mem_cons_of_mem x hy)

theorem keeps_forEach {f : α → EStateM ε σ Unit} (hf : ∀ x, Keeps I (f x)) (xs : List α) :
    Keeps I (forEach f xs) := keeps_forEach_of_mem fun x _ => hf x

end Keeps

/-! ## The state at the end -/

/-- The state a computation ends in, whether it ends well or not. -/
def final (x : EStateM ε σ α) (s : σ) : σ :=
  match x.run s with
  | .ok _ t => t
  | .error _ t => t

theorem final_of_ok {x : EStateM ε σ α} {s t : σ} {a : α} (h : x.run s = .ok a t) :
    final x s = t := by
  rw [final, h]

theorem final_of_error {x : EStateM ε σ α} {s t : σ} {e : ε} (h : x.run s = .error e t) :
    final x s = t := by
  rw [final, h]

theorem Keeps.final {I : σ → Prop} {x : EStateM ε σ α} (hx : Keeps I x) {s : σ} (hs : I s) :
    I (final x s) := by
  have h := hx s hs
  rw [Effect.final]
  cases hrun : x.run s with
  | ok a t =>
      rw [hrun] at h
      exact h
  | error e t =>
      rw [hrun] at h
      exact h

/-- What the first step leaves and the rest keeps. -/
theorem final_bind {x : EStateM ε σ α} {f : α → EStateM ε σ β} {I : σ → Prop} {s : σ}
    (hx : I (final x s)) (hf : ∀ a, Keeps I (f a)) : I (final (x >>= f) s) := by
  rw [final] at hx ⊢
  cases hrun : x.run s with
  | ok a t =>
      rw [hrun] at hx
      rw [run_bind_of_ok hrun]
      exact (hf a).final hx
  | error e t =>
      rw [hrun] at hx
      rw [run_bind_of_error hrun]
      exact hx

/-! ## A part of the state -/

/-- Runs a computation on the part of the state `part` reads and `put`
writes, keeping the part's final value also when it fails. -/
def zoom (part : τ → σ) (put : σ → τ → τ) (x : EStateM ε σ α) : EStateM ε τ α := fun t =>
  match x.run (part t) with
  | .ok a s => .ok a (put s t)
  | .error e s => .error e (put s t)

/-- The same computation with its errors renamed. -/
def mapError {δ : Type} (f : ε → δ) (x : EStateM ε σ α) : EStateM δ σ α := fun s =>
  match x.run s with
  | .ok a t => .ok a t
  | .error e t => .error (f e) t

theorem ok_of_zoom_ok {part : τ → σ} {put : σ → τ → τ} {x : EStateM ε σ α} {t u : τ} {a : α}
    (h : (zoom part put x).run t = .ok a u) :
    ∃ s, x.run (part t) = .ok a s ∧ u = put s t := by
  rw [EStateM.run, zoom] at h
  cases hx : x.run (part t) with
  | ok b s =>
      rw [hx] at h
      cases h
      exact ⟨s, rfl, rfl⟩
  | error e s =>
      rw [hx] at h
      cases h

theorem error_of_zoom_error {part : τ → σ} {put : σ → τ → τ} {x : EStateM ε σ α} {t u : τ} {e : ε}
    (h : (zoom part put x).run t = .error e u) :
    ∃ s, x.run (part t) = .error e s ∧ u = put s t := by
  rw [EStateM.run, zoom] at h
  cases hx : x.run (part t) with
  | ok b s =>
      rw [hx] at h
      cases h
  | error e' s =>
      rw [hx] at h
      cases h
      exact ⟨s, rfl, rfl⟩

theorem Avoids.zoom {part : τ → σ} {put : σ → τ → τ} {x : EStateM ε σ α} {e : ε}
    (hx : Avoids e x) : Avoids e (zoom part put x) := by
  intro t u h
  obtain ⟨s, hrun, -⟩ := error_of_zoom_error h
  exact hx _ _ hrun

theorem run_zoom_of_ok {part : τ → σ} {put : σ → τ → τ} {x : EStateM ε σ α} {t : τ} {a : α}
    {s : σ} (h : x.run (part t) = .ok a s) :
    (zoom part put x).run t = .ok a (put s t) := by
  rw [EStateM.run, zoom, h]

theorem final_zoom {part : τ → σ} {put : σ → τ → τ} (x : EStateM ε σ α) (t : τ) :
    final (zoom part put x) t = put (final x (part t)) t := by
  rw [final, EStateM.run, zoom, final]
  cases x.run (part t) <;> rfl

/-- A sequence on a part is a sequence of computations on the part. -/
theorem zoom_bind {part : τ → σ} {put : σ → τ → τ} (hpart : ∀ s t, part (put s t) = s)
    (hput : ∀ s s' t, put s' (put s t) = put s' t) (x : EStateM ε σ α) (f : α → EStateM ε σ β) :
    zoom part put (x >>= f) = zoom part put x >>= fun a => zoom part put (f a) := by
  funext t
  show zoom part put (x >>= f) t = EStateM.run (zoom part put x >>= _) t
  rw [zoom, EStateM.run_bind, EStateM.run_bind]
  cases hx : x.run (part t) with
  | error e s =>
      have hzoom : (zoom part put x).run t = .error e (put s t) := by
        rw [EStateM.run, zoom, hx]
      rw [hzoom]
  | ok a s =>
      rw [run_zoom_of_ok hx]
      dsimp only
      rw [EStateM.run, EStateM.run, zoom, hpart, EStateM.run]
      cases f a s with
      | ok b u => exact congrArg _ (hput s u t).symm
      | error e u => exact congrArg _ (hput s u t).symm

/-- What a computation keeps of the part. -/
theorem Keeps.zoom {I : σ → Prop} {J : τ → Prop} {part : τ → σ} {put : σ → τ → τ}
    {x : EStateM ε σ α} (hx : Keeps I x) (hpart : ∀ t, J t → I (part t))
    (hput : ∀ s t, I s → J t → J (put s t)) : Keeps J (Effect.zoom part put x) := by
  intro t ht
  have hfinal := hx (part t) (hpart t ht)
  rw [EStateM.run, Effect.zoom]
  cases hrun : x.run (part t) with
  | ok a s =>
      rw [hrun] at hfinal
      exact hput s t hfinal ht
  | error e s =>
      rw [hrun] at hfinal
      exact hput s t hfinal ht

/-- A computation on a part can only replace the part. -/
theorem keeps_zoom {I : τ → Prop} {part : τ → σ} {put : σ → τ → τ}
    (hput : ∀ s t, I t → I (put s t)) (x : EStateM ε σ α) : Keeps I (zoom part put x) := by
  intro t ht
  rw [EStateM.run, zoom]
  cases x.run (part t) with
  | ok a s => exact hput s t ht
  | error e s => exact hput s t ht

end Effect
