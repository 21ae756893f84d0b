import ReoRs.Lib.Holdings
import ReoRs.Proofs.Refinement

/-!
# Who owns a datum

Data change hands here by being copied bit for bit, and whether what is left
behind is still a datum is a matter of who will drop it. `Ports.owned` says so
for every location. A putting call owns what it was called with, until a getter
has taken it or the call has been told that it was moved; a cell owns what is
behind its pointer, until a getter has taken it; a getter owns what it has
been given, until it returns.

`Balanced` is one step of the accounts. What there was before the step, and
what the step was given, is what there is after it, what the step handed back,
and what went out of scope or was dropped meanwhile.
-/

namespace ReoRs

variable {D : Type}

open ProtoAll Coordination

/-- Past the transfer, while the source has not heard of it. -/
def AcquirePc.took : AcquirePc → Bool
  | copyCountdown | loadMoved | finalize _ => true
  | storeMoved | copyData | askMove | winnerCountdown | winnerMove | winnerWait | loserClone
  | loserCountdown | release | signalCountdown | signalAsk | returned => false

/-- The datum an answer carries. -/
def Answer.datum : Answer D → Option (Datum D)
  | observed v | timeout v | got v => v
  | moved => none

/-- What becomes of the datum of a putting call that is told whether the datum
was moved, or that nobody came: it is returned, dropped, or neither. -/
def PortCall.disposes (c : PortCall D) : Option Bool → List (Datum D)
  | some moved => c.putDrops moved ++ (c.putAnswer moved).datum.toList
  | none => c.timeoutDrops ++ c.timeoutAnswer.datum.toList

namespace Ports

/-- The datum a step brings into the system. -/
def Act.given : Act D → Option (Datum D)
  | call _ c => c.datum
  | _ => none

/-- The datum a step returns to a caller. -/
def Act.handedBack : Act D → Option (Datum D)
  | ret _ a => a.datum
  | _ => none

/-- The getter has taken the datum of the source. -/
def hasTaken (s : Ports D) (q g : LocId) : Bool :=
  match s.calls g with
  | some x => x.call.wantsData && x.phase.isAt AcquirePc.took q
  | none => false

def taken (s : Ports D) (q : LocId) : Bool :=
  (List.range s.proto.r.spaces.length).any (s.hasTaken q)

/-- The datum a location owns. -/
def owned (s : Ports D) (l : LocId) : Option (Datum D) :=
  match s.calls l with
  | some x =>
      match x.call.datum with
      | some v => if s.taken l ∨ s.proto.getDropbox l = some ⟨some 1⟩ then none else some v
      | none => x.out
  | none => if s.taken l then none else (s.proto.held l).bind s.proto.heap.read

/-- All that is owned. -/
def owners (s : Ports D) : Multiset (Datum D) :=
  Holdings.total s.proto.r.spaces.length s.owned

/-- The accounts of one step. -/
def Balanced (s : Ports D) (a : Act D) (t : Ports D) : Prop :=
  s.owners + Holdings.one a.given + s.dropped + s.proto.heap.dropped =
    t.owners + Holdings.one a.handedBack + t.dropped + t.proto.heap.dropped

/-- The frame of a putting call has its datum, even when that is another's by
now. -/
def Framed (s : Ports D) : Prop :=
  ∀ p x v, s.calls p = some x → x.call.datum = some v → s.proto.heap.read (.stack p) = some v

section

variable {P : Proto D} {infos : HashMap TypeId (TypeInfo D)} {s t : Ports D}
  {owed : LocId → Nat} {A : Automaton D} {p q g l : LocId} {kind : SourceKind}
  {sp : PutterSpace D} {x : Active D} {c : PortCall D} {ph : Phase} {out : Option (Datum D)}
  {v : Datum D} {a : Act D}

/-! ## At one location -/

theorem owned_of_put (h : s.calls l = some x) (hput : x.call.datum = some v) : s.owned l =
    if s.taken l ∨ s.proto.getDropbox l = some ⟨some 1⟩ then none else some v := by
  rw [owned, h]
  simp only [hput]

theorem owned_of_get (h : s.calls l = some x) (hget : x.call.datum = none) : s.owned l = x.out := by
  rw [owned, h]
  simp only [hget]

theorem owned_of_none (h : s.calls l = none) :
    s.owned l = if s.taken l then none else (s.proto.held l).bind s.proto.heap.read := by
  rw [owned, h]

theorem hasTaken_congr (h : t.calls g = s.calls g) (q : LocId) :
    t.hasTaken q g = s.hasTaken q g := by
  rw [hasTaken, hasTaken, h]

theorem hasTaken_of_call (h : s.calls g = some ⟨c, ph, out⟩) (q : LocId) :
    s.hasTaken q g = (c.wantsData && ph.isAt AcquirePc.took q) := by
  rw [hasTaken, h]

/-- Nothing has been taken by a call that has not had its message. -/
theorem hasTaken_of_receives (h : s.calls g = some ⟨c, ph, out⟩) (hph : ph.receives = true)
    (q : LocId) : s.hasTaken q g = false := by
  rw [hasTaken_of_call h]
  cases ph with
  | awaiting | late => exact Bool.and_false _
  | entering | coordinating | expired | acquiring q pc | finalizing q => cases hph

theorem hasTaken_of_none (h : s.calls g = none) (q : LocId) : s.hasTaken q g = false := by
  rw [hasTaken, h]

theorem taken_congr (hlen : t.proto.r.spaces.length = s.proto.r.spaces.length)
    (h : ∀ g, t.hasTaken l g = s.hasTaken l g) : t.taken l = s.taken l := by
  rw [taken, taken, hlen]
  exact congrArg _ (funext h)

/-- A getter that has taken the datum is not done with its source. -/
theorem serving_of_hasTaken (h : s.hasTaken q g = true) : s.Serving q g := by
  rw [hasTaken] at h
  split at h
  · next x hx =>
      obtain ⟨c, ph, out⟩ := x
      obtain ⟨-, hat⟩ := Bool.and_eq_true_iff.1 h
      cases ph with
      | acquiring q' pc =>
          obtain ⟨hq, hpc⟩ := Bool.and_eq_true_iff.1 hat
          obtain rfl := eq_of_beq hq
          cases pc with
          | copyCountdown =>
              exact .inl (Bool.or_eq_true_iff.2 (.inr (acquiringAt_self hx)))
          | loadMoved | finalize m => exact .inr (acquiringAt_self hx)
          | storeMoved | copyData | askMove | winnerCountdown | winnerMove | winnerWait
          | loserClone | loserCountdown | release | signalCountdown | signalAsk | returned =>
              cases hpc
      | entering | coordinating | awaiting | expired | late | finalizing q' => cases hat
  · cases h

theorem not_taken (h : ∀ g, ¬ s.Serving q g) : s.taken q = false := by
  rw [Bool.eq_false_iff]
  intro hcon
  obtain ⟨g, -, hg⟩ := List.any_eq_true.1 hcon
  exact h g (serving_of_hasTaken hg)

/-- Only one getter is at the source. -/
theorem taken_eq_of_serving (hlt : g < s.proto.r.spaces.length)
    (h : ∀ g', s.Serving q g' → g' = g) : s.taken q = s.hasTaken q g := by
  rw [Bool.eq_iff_iff, taken, List.any_eq_true]
  constructor
  · rintro ⟨g', -, hg'⟩
    rwa [← h g' (serving_of_hasTaken hg')]
  · exact fun hg => ⟨g, List.mem_range.2 hlt, hg⟩

/-- A port is no cell. -/
theorem held_of_dropbox {s : ProtoAll D} {b : MsgDropbox} (h : s.getDropbox l = some b) :
    s.held l = none := by
  cases hheld : s.held l with
  | none => rfl
  | some r =>
      obtain ⟨-, sp, hsp, -⟩ := held_memo_iff.1 hheld
      rw [getDropbox, hsp] at h
      cases h

theorem Fits.dropbox {s : ProtoAll D} (h : Fits s p x) : ∃ b, s.getDropbox p = some b := by
  cases hd : x.call.datum with
  | some v =>
      obtain ⟨sp, b, hsp⟩ := h.isPutter hd
      exact ⟨b, getDropbox_eq hsp⟩
  | none =>
      obtain ⟨b, hb⟩ := h.isGetter hd
      exact ⟨b, getDropbox_eq hb⟩

/-- Nothing that the ownership of the location depends on has changed. -/
theorem owned_congr (hcall : (t.calls l).map (fun x => (x.call, x.out)) =
      (s.calls l).map fun x => (x.call, x.out))
    (htaken : t.taken l = s.taken l)
    (hbox : ∀ x v, s.calls l = some x → x.call.datum = some v →
      t.proto.getDropbox l = s.proto.getDropbox l)
    (hheld : s.calls l = none →
      (t.proto.held l).bind t.proto.heap.read = (s.proto.held l).bind s.proto.heap.read) :
    t.owned l = s.owned l := by
  cases hs : s.calls l with
  | none =>
      rw [hs] at hcall
      have ht : t.calls l = none := Option.map_eq_none_iff.1 hcall
      rw [owned_of_none hs, owned_of_none ht, htaken, hheld hs]
  | some x =>
      rw [hs] at hcall
      obtain ⟨y, ht, hxy⟩ := Option.map_eq_some_iff.1 hcall
      obtain ⟨hc, hout⟩ := Prod.mk.inj hxy
      cases hd : x.call.datum with
      | none => rw [owned_of_get hs hd, owned_of_get ht (hc ▸ hd), hout]
      | some v =>
          rw [owned_of_put hs hd, owned_of_put ht (hc ▸ hd), htaken, hbox x v hs hd]

/-- A step of the call at `p`, seen from another location. -/
theorem owned_beside (hlen : t.proto.r.spaces.length = s.proto.r.spaces.length)
    (hcalls : ∀ g, g ≠ p → t.calls g = s.calls g) (hl : l ≠ p)
    (hp : t.hasTaken l p = s.hasTaken l p)
    (hbox : t.proto.getDropbox l = s.proto.getDropbox l)
    (hheld : (t.proto.held l).bind t.proto.heap.read =
      (s.proto.held l).bind s.proto.heap.read) : t.owned l = s.owned l := by
  refine owned_congr (congrArg _ (hcalls l hl)) (taken_congr hlen fun g => ?_)
    (fun _ _ _ _ => hbox) fun _ => hheld
  by_cases hg : g = p
  · rw [hg, hp]
  · exact hasTaken_congr (hcalls g hg) l

/-- A location the step has nothing to do with. -/
theorem owned_other (hlen : t.proto.r.spaces.length = s.proto.r.spaces.length)
    (hcalls : ∀ g, g ≠ p → t.calls g = s.calls g) (hl : l ≠ p)
    (hp : t.hasTaken l p = s.hasTaken l p) (hspace : t.proto.getSpace l = s.proto.getSpace l)
    (hread : ∀ r, s.proto.held l = some r → t.proto.heap.read r = s.proto.heap.read r) :
    t.owned l = s.owned l := by
  refine owned_beside hlen hcalls hl hp (by rw [getDropbox, getDropbox, hspace]) ?_
  rw [held_congr (cell_congr hspace)]
  cases hheld : s.proto.held l with
  | none => rfl
  | some r => exact hread r hheld

/-! ## Over all of them -/

/-- Nothing changed hands. -/
theorem Balanced.same (hlen : t.proto.r.spaces.length = s.proto.r.spaces.length)
    (h : ∀ l, t.owned l = s.owned l) (hdropped : t.dropped = s.dropped)
    (hheap : t.proto.heap.dropped = s.proto.heap.dropped) (hgiven : a.given = none)
    (hback : a.handedBack = none) : Balanced s a t := by
  rw [Balanced, owners, owners, hlen, Holdings.total_congr fun l _ => h l, hdropped, hheap, hgiven,
    hback]

/-- One location took or gave. -/
theorem Balanced.at (hlen : t.proto.r.spaces.length = s.proto.r.spaces.length)
    (hp : p < s.proto.r.spaces.length) (h : ∀ l, l ≠ p → t.owned l = s.owned l)
    (hat : Holdings.one (s.owned p) + Holdings.one a.given + s.dropped + s.proto.heap.dropped =
      Holdings.one (t.owned p) + Holdings.one a.handedBack + t.dropped + t.proto.heap.dropped) :
    Balanced s a t := by
  have hupdate := Holdings.total_update hp h
  rw [Balanced, owners, owners, hlen]
  refine add_right_cancel (b := Holdings.one (s.owned p)) ?_
  calc Holdings.total s.proto.r.spaces.length s.owned + Holdings.one a.given + s.dropped +
        s.proto.heap.dropped + Holdings.one (s.owned p)
      = Holdings.total s.proto.r.spaces.length s.owned +
          (Holdings.one (s.owned p) + Holdings.one a.given + s.dropped +
            s.proto.heap.dropped) := by abel
    _ = Holdings.total s.proto.r.spaces.length s.owned + Holdings.one (t.owned p) +
          Holdings.one a.handedBack + t.dropped + t.proto.heap.dropped := by rw [hat]; abel
    _ = Holdings.total s.proto.r.spaces.length t.owned + Holdings.one (s.owned p) +
          Holdings.one a.handedBack + t.dropped + t.proto.heap.dropped := by rw [hupdate]
    _ = _ := by abel

end

end Ports

end ReoRs
