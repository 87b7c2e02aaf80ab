import Mathlib.Data.List.Forall2
import Mathlib.Data.List.Induction
import LiveMedia.Proofs.Transport.Traffic

/-!
# Delivery in turn, and neighbours that change places

When the calls on a loopback transport follow each other, whoever makes them, what comes out is
settled by the calls and by chance: the objects in the order in which they were sent, with some
neighbours in changed places; all of them, in pairs that begin anew behind each flush, when the
transport always reorders.
-/

namespace LiveMedia
set_option autoImplicit false

/-- An object that has come out is the one that was sent. Its status has gone over the wire as a
code. -/
structure Arrives (o : Outgoing) (r : Received) : Prop where
  track : r.track = o.track
  epoch : r.epoch = o.epoch
  group : r.group = o.group
  object : r.object = o.object
  payload : r.payload = o.payload
  status : ObjectStatus.ofWire o.statusCode = .ok r.status
  unmarked : o.status = none → r.status = .normal

theorem arrives_received (o : Outgoing) : Arrives o o.received where
  track := rfl
  epoch := rfl
  group := rfl
  object := rfl
  payload := rfl
  status := by
    unfold ObjectStatus.ofWire Outgoing.statusCode
    rw [ObjectStatus.ofCode?_code]
    rfl
  unmarked h := by
    unfold Outgoing.received
    rw [h]
    rfl

theorem arrive_received (os : List Outgoing) :
    List.Forall₂ Arrives os (os.map Outgoing.received) := by
  induction os with
  | nil => exact .nil
  | cons o rest ih => exact .cons (arrives_received o) ih

namespace Transmission

def sent? : Transmission → Option Outgoing
  | .object o => some o
  | _ => none

def isFlush : Transmission → Bool
  | .flush => true
  | _ => false

end Transmission

/-! ### Pairs -/

section Pairs

variable {α : Type}

def swapPairs : List α → List α
  | x :: y :: rest => y :: x :: swapPairs rest
  | short => short

/-- The list without the last element if their number is odd. -/
def wholePairs (l : List α) : List α := l.take (2 * (l.length / 2))

/-- The last element if their number is odd. -/
def oddOne (l : List α) : List α := l.drop (2 * (l.length / 2))

theorem wholePairs_cons_cons (x y : α) (l : List α) :
    wholePairs (x :: y :: l) = x :: y :: wholePairs l := by
  have hhalf : 2 * ((x :: y :: l).length / 2) = 2 * (l.length / 2) + 1 + 1 := by
    rw [List.length_cons, List.length_cons]
    omega
  rw [wholePairs, hhalf, List.take_succ_cons, List.take_succ_cons, wholePairs]

theorem oddOne_cons_cons (x y : α) (l : List α) : oddOne (x :: y :: l) = oddOne l := by
  have hhalf : 2 * ((x :: y :: l).length / 2) = 2 * (l.length / 2) + 1 + 1 := by
    rw [List.length_cons, List.length_cons]
    omega
  rw [oddOne, hhalf, List.drop_succ_cons, List.drop_succ_cons, oddOne]

/-- One list is the other with some neighbours in changed places. -/
inductive Neighbours : List α → List α → Prop
  | nil : Neighbours [] []
  | keep {l m : List α} (x : α) : Neighbours l m → Neighbours (x :: l) (x :: m)
  | swap {l m : List α} (x y : α) : Neighbours l m → Neighbours (x :: y :: l) (y :: x :: m)

namespace Neighbours

theorem refl (l : List α) : Neighbours l l := by
  induction l with
  | nil => exact .nil
  | cons x rest ih => exact .keep x ih

theorem append {l m l' m' : List α} (h : Neighbours l m) (h' : Neighbours l' m') :
    Neighbours (l ++ l') (m ++ m') := by
  induction h with
  | nil => exact h'
  | keep x _ ih => exact .keep x ih
  | swap x y _ ih => exact .swap x y ih

/-- The first place is left alone. -/
def placesKeep (f : ℕ → ℕ) : ℕ → ℕ
  | 0 => 0
  | i + 1 => f i + 1

/-- The first two places are swapped. -/
def placesSwap (f : ℕ → ℕ) : ℕ → ℕ
  | 0 => 1
  | 1 => 0
  | i + 2 => f i + 2

/-- No element is more than one place from where it was. -/
theorem exists_places {l m : List α} (h : Neighbours l m) : ∃ f : ℕ → ℕ,
    f.Involutive ∧ (∀ i, f i ≤ i + 1 ∧ i ≤ f i + 1) ∧ ∀ i, m[i]? = l[f i]? := by
  induction h with
  | nil => exact ⟨id, fun _ => rfl, fun i => by simp, fun _ => rfl⟩
  | keep x _ ih =>
    obtain ⟨f, hf, hnear, hget⟩ := ih
    refine ⟨placesKeep f, ?_, ?_, ?_⟩
    · rintro (_ | i)
      · rfl
      · exact congrArg (· + 1) (hf i)
    · rintro (_ | i)
      · simp [placesKeep]
      · have := hnear i
        rw [placesKeep]
        omega
    · rintro (_ | i)
      · rfl
      · exact hget i
  | swap x y _ ih =>
    obtain ⟨f, hf, hnear, hget⟩ := ih
    refine ⟨placesSwap f, ?_, ?_, ?_⟩
    · rintro (_ | _ | i)
      · rfl
      · rfl
      · exact congrArg (· + 2) (hf i)
    · rintro (_ | _ | i)
      · simp [placesSwap]
      · simp [placesSwap]
      · have := hnear i
        rw [placesSwap]
        omega
    · rintro (_ | _ | i)
      · rfl
      · rfl
      · exact hget i

end Neighbours

end Pairs

/-! ### What comes out -/

/-- What has come out and what is held back after one more call. -/
def deal (swap : Bool) : List Outgoing × Option Outgoing → Transmission →
    List Outgoing × Option Outgoing
  | dealt, .header _ => dealt
  | (out, held), .object o =>
    if swap && held.isNone then (out, some o) else (out ++ o :: held.toList, none)
  | (out, held), .flush => (out ++ held.toList, none)

theorem deal_held {swap : Bool} (h : swap = true) (out : List Outgoing) (o : Outgoing) :
    deal swap (out, none) (.object o) = (out, some o) := by
  rw [h]
  rfl

theorem deal_passed {swap : Bool} {held : Option Outgoing}
    (h : swap = true → held.isSome = true) (out : List Outgoing) (o : Outgoing) :
    deal swap (out, held) (.object o) = (out ++ o :: held.toList, none) := by
  cases swap with
  | false => rfl
  | true =>
    obtain ⟨o', rfl⟩ := Option.isSome_iff_exists.mp (h rfl)
    rfl

/-- After these calls, when so many objects have had their turn before. -/
def dealFrom (swaps : ℕ → Bool) : ℕ → List Outgoing × Option Outgoing → List Transmission →
    List Outgoing × Option Outgoing
  | _, dealt, [] => dealt
  | n, dealt, t :: rest =>
    dealFrom swaps (n + t.sent?.toList.length) (deal (swaps n) dealt t) rest

def dealAll (swaps : ℕ → Bool) (ts : List Transmission) : List Outgoing × Option Outgoing :=
  dealFrom swaps 0 ([], none) ts

theorem length_sent_cons (t : Transmission) (rest : List Transmission) :
    ((t :: rest).filterMap Transmission.sent?).length =
      t.sent?.toList.length + (rest.filterMap Transmission.sent?).length := by
  rw [List.filterMap_cons]
  cases t.sent? with
  | none => exact (Nat.zero_add _).symm
  | some o => exact Nat.add_comm _ 1

theorem dealFrom_concat (swaps : ℕ → Bool) (n : ℕ) (dealt : List Outgoing × Option Outgoing)
    (ts : List Transmission) (t : Transmission) :
    dealFrom swaps n dealt (ts ++ [t]) =
      deal (swaps (n + (ts.filterMap Transmission.sent?).length))
        (dealFrom swaps n dealt ts) t := by
  induction ts generalizing n dealt with
  | nil => rfl
  | cons first rest ih =>
    rw [List.cons_append, dealFrom, ih, dealFrom, length_sent_cons, Nat.add_assoc]

theorem dealAll_concat (swaps : ℕ → Bool) (ts : List Transmission) (t : Transmission) :
    dealAll swaps (ts ++ [t]) =
      deal (swaps (ts.filterMap Transmission.sent?).length) (dealAll swaps ts) t := by
  rw [dealAll, dealFrom_concat, Nat.zero_add, dealAll]

/-- Where all have the same turn, it does not matter which it is. -/
theorem dealAll_const (swap : Bool) (ts : List Transmission) :
    dealAll (fun _ => swap) ts = ts.foldl (deal swap) ([], none) := by
  induction ts using List.reverseRecOn with
  | nil => rfl
  | append_singleton rest t ih => rw [dealAll_concat, ih, List.foldl_concat]

/-- A transport that does not reorder holds nothing back. -/
theorem dealAll_plain (ts : List Transmission) :
    dealAll (fun _ => false) ts = (ts.filterMap Transmission.sent?, none) := by
  induction ts using List.reverseRecOn with
  | nil => rfl
  | append_singleton rest t ih =>
    rw [dealAll_concat, ih, List.filterMap_append]
    cases t with
    | header g => exact Prod.ext (List.append_nil _).symm rfl
    | object o => rfl
    | flush => rfl

theorem filterMap_sent_concat (ts : List Transmission) (t : Transmission) :
    (ts ++ [t]).filterMap Transmission.sent? =
      ts.filterMap Transmission.sent? ++ t.sent?.toList := by
  rw [List.filterMap_append]
  cases t <;> rfl

/-- What has come out has neighbours in changed places, and the last that was sent is held back or
none is. -/
theorem exists_neighbours_dealAll (swaps : ℕ → Bool) (ts : List Transmission) : ∃ before,
    ts.filterMap Transmission.sent? = before ++ (dealAll swaps ts).2.toList ∧
      Neighbours before (dealAll swaps ts).1 := by
  induction ts using List.reverseRecOn with
  | nil => exact ⟨[], rfl, .nil⟩
  | append_singleton rest t ih =>
    obtain ⟨before, hsent, hnear⟩ := ih
    rw [dealAll_concat, filterMap_sent_concat]
    generalize swaps (rest.filterMap Transmission.sent?).length = swap
    rw [hsent]
    generalize dealAll swaps rest = dealt at hnear ⊢
    obtain ⟨out, held⟩ := dealt
    cases t with
    | header g => exact ⟨before, List.append_nil _, hnear⟩
    | flush => exact ⟨before ++ held.toList, rfl, hnear.append (.refl held.toList)⟩
    | object o =>
      by_cases hhold : (swap && held.isNone) = true
      · obtain ⟨hswap, hnone⟩ := Bool.and_eq_true_iff.mp hhold
        obtain rfl := Option.isNone_iff_eq_none.mp hnone
        rw [deal_held hswap]
        exact ⟨before, congrArg (· ++ [o]) (List.append_nil before), hnear⟩
      · have hpass : deal swap (out, held) (.object o) = (out ++ o :: held.toList, none) :=
          if_neg hhold
        have hpair : Neighbours (held.toList ++ [o]) (o :: held.toList) := by
          cases held with
          | none => exact .refl [o]
          | some h => exact .swap h o .nil
        rw [hpass]
        refine ⟨before ++ (held.toList ++ [o]), ?_, hnear.append hpair⟩
        rw [Option.toList_none, List.append_nil, ← List.append_assoc]
        rfl

theorem neighbours_dealAll (swaps : ℕ → Bool) (ts : List Transmission) :
    Neighbours (ts.filterMap Transmission.sent?)
      ((dealAll swaps ts).1 ++ (dealAll swaps ts).2.toList) := by
  obtain ⟨before, hsent, hnear⟩ := exists_neighbours_dealAll swaps ts
  rw [hsent]
  exact hnear.append (.refl _)

/-- What is sent between one flush and the next. -/
def blocks (ts : List Transmission) : List (List Outgoing) :=
  (ts.splitOnP Transmission.isFlush).map fun block => block.filterMap Transmission.sent?

/-- What has come out when these blocks have been sent and the last one is still open. -/
def pairedOut (bs : List (List Outgoing)) : List Outgoing :=
  bs.dropLast.flatMap swapPairs ++ swapPairs (wholePairs (bs.getLastD []))

theorem blocks_ne_nil (ts : List Transmission) : blocks ts ≠ [] := by
  intro h
  exact List.splitOnP_ne_nil Transmission.isFlush ts (List.map_eq_nil_iff.mp h)

theorem blocks_cons (t : Transmission) (rest : List Transmission) : blocks (t :: rest) =
    if t.isFlush then [] :: blocks rest
    else (blocks rest).modifyHead (t.sent?.toList ++ ·) := by
  unfold blocks
  rw [List.splitOnP_cons_eq_if_modifyHead]
  split
  · rfl
  · cases h : rest.splitOnP Transmission.isFlush with
    | nil => exact absurd h (List.splitOnP_ne_nil _ _)
    | cons block more => cases t <;> rfl

theorem pairedOut_cons (block : List Outgoing) {more : List (List Outgoing)} (h : more ≠ []) :
    pairedOut (block :: more) = swapPairs block ++ pairedOut more := by
  obtain ⟨next, rest, rfl⟩ := List.exists_cons_of_ne_nil h
  unfold pairedOut
  rw [List.dropLast_cons_cons, List.flatMap_cons, List.append_assoc]
  rfl

theorem pairedOut_cons_cons (x y : Outgoing) (block : List Outgoing)
    (more : List (List Outgoing)) :
    pairedOut ((x :: y :: block) :: more) = y :: x :: pairedOut (block :: more) := by
  cases more with
  | nil =>
    change swapPairs (wholePairs (x :: y :: block)) = y :: x :: swapPairs (wholePairs block)
    rw [wholePairs_cons_cons, swapPairs]
  | cons next rest =>
    have hne : next :: rest ≠ [] := List.cons_ne_nil next rest
    rw [pairedOut_cons _ hne, pairedOut_cons _ hne, swapPairs]
    rfl

theorem oddOne_getLastD_cons_cons (x y : Outgoing) (block : List Outgoing)
    (more : List (List Outgoing)) :
    oddOne (((x :: y :: block) :: more).getLastD []) = oddOne ((block :: more).getLastD []) := by
  cases more with
  | nil => exact oddOne_cons_cons x y block
  | cons next rest => rfl

/-- From anywhere in a block, with what is held back in front of it. -/
theorem foldl_deal (out : List Outgoing) (held : Option Outgoing) (ts : List Transmission) :
    let bs := (blocks ts).modifyHead (held.toList ++ ·)
    (ts.foldl (deal true) (out, held)).1 = out ++ pairedOut bs ∧
      (ts.foldl (deal true) (out, held)).2.toList = oddOne (bs.getLastD []) := by
  induction ts generalizing out held with
  | nil =>
    have hempty : blocks [] = [[]] := rfl
    rw [hempty]
    cases held with
    | none => exact ⟨(List.append_nil out).symm, rfl⟩
    | some o =>
      have hnone : pairedOut [[o]] = [] := by simp [pairedOut, wholePairs, swapPairs]
      have hone : oddOne [o] = [o] := by simp [oddOne]
      refine ⟨?_, hone.symm⟩
      exact (List.append_nil out).symm.trans (congrArg (out ++ ·) hnone.symm)
  | cons t rest ih =>
    obtain ⟨block, more, hblocks⟩ := List.exists_cons_of_ne_nil (blocks_ne_nil rest)
    rw [List.foldl_cons, blocks_cons, hblocks]
    rw [hblocks] at ih
    cases t with
    | header g => exact ih out held
    | object o =>
      cases held with
      | none => exact ih out (some o)
      | some h =>
        obtain ⟨hout, hheld⟩ := ih (out ++ [o, h]) none
        refine ⟨hout.trans ?_, hheld.trans ?_⟩
        · rw [List.append_assoc]
          exact congrArg (out ++ ·) (pairedOut_cons_cons h o block more).symm
        · exact (oddOne_getLastD_cons_cons h o block more).symm
    | flush =>
      obtain ⟨hout, hheld⟩ := ih (out ++ held.toList) none
      refine ⟨hout.trans ?_, hheld⟩
      have hshort : swapPairs held.toList = held.toList := by cases held <;> rfl
      change _ = out ++ pairedOut ((held.toList ++ []) :: block :: more)
      rw [List.append_nil, pairedOut_cons _ (List.cons_ne_nil _ _), hshort, List.append_assoc]
      rfl

theorem dealAll_swapping (ts : List Transmission) :
    (dealAll (fun _ => true) ts).1 = pairedOut (blocks ts) ∧
      (dealAll (fun _ => true) ts).2.toList = oddOne ((blocks ts).getLastD []) := by
  have h := foldl_deal [] none ts
  obtain ⟨block, more, hblocks⟩ := List.exists_cons_of_ne_nil (blocks_ne_nil ts)
  rw [dealAll_const, hblocks]
  rw [hblocks] at h
  exact h

namespace Traffic

def Move.task? : Move → Option Transmission
  | .call _ t => some t
  | _ => none

/-- A call begins when no other call is in progress, and none is abandoned. -/
def Move.isInTurn (x : Traffic) : Move → Bool
  | .call _ _ => x.calls.isEmpty
  | .abandon _ => false
  | _ => true

def inTurn (x : Traffic) : List Move → Bool
  | [] => true
  | m :: rest => m.isInTurn x && (x.step m).inTurn rest

/-- What a call in progress has still to put on the channel. -/
def onway (x : Traffic) (c : OpenCall) : List Received :=
  if x.lane.resting c.who then x.held.toList
  else c.delivery.object :: if c.delivery.heldFollows then x.held.toList else []

/-- What will have come out once the call in progress is over. -/
def due (x : Traffic) : List Received :=
  x.seen ++ match x.calls with
    | [] => []
    | c :: _ => x.onway c

/-- What will then be held back. -/
def left (x : Traffic) : Option Received :=
  match x.calls with
  | [] => x.held
  | c :: _ => if c.delivery.heldFollows then none else x.held

/-- Traffic in which these calls have followed each other. -/
structure OneByOne (swaps : ℕ → Bool) (ts : List Transmission) (x : Traffic) : Prop where
  sound : x.Sound
  swaps_eq : x.lane.loopback.swaps = swaps
  drawn : x.lane.loopback.drawn = (ts.filterMap Transmission.sent?).length
  alone : x.calls.length ≤ 1
  due : x.due = (dealAll swaps ts).1.map Outgoing.received
  left : x.left = (dealAll swaps ts).2.map Outgoing.received
  returned : x.returned ++ x.calls.map (fun c => (c.task, .ok ())) = ts.map fun t => (t, .ok ())

namespace OneByOne

variable {swaps : ℕ → Bool} {ts : List Transmission} {x : Traffic}

theorem start (capacity : ℕ) (reorderProbability : Float) (chance : ℕ → Bool) :
    OneByOne (Loopback.make capacity reorderProbability chance).swaps []
      (.start capacity reorderProbability chance) where
  sound := sound_start capacity reorderProbability chance
  swaps_eq := rfl
  drawn := rfl
  alone := Nat.zero_le 1
  due := rfl
  left := rfl
  returned := rfl

/-- The one call in progress. -/
theorem calls_eq (h : OneByOne swaps ts x) {c : OpenCall} (hc : c ∈ x.calls) :
    x.calls = [c] ∧ x.others c.who = [] := by
  have hperm := h.sound.perm_others hc
  have hlength := hperm.length_eq
  have halone := h.alone
  rw [List.length_cons] at hlength
  have hothers : x.others c.who = [] := List.length_eq_zero_iff.mp (by omega)
  rw [hothers] at hperm
  exact ⟨List.perm_singleton.mp hperm, hothers⟩

theorem swapsNext_eq (h : OneByOne swaps ts x) :
    x.lane.loopback.swapsNext = swaps (ts.filterMap Transmission.sent?).length := by
  rw [Loopback.swapsNext, h.swaps_eq, h.drawn]

/-- A call is made when no other is in progress. -/
theorem called (h : OneByOne swaps ts x) (hcalls : x.calls = []) {t : Transmission}
    {y : Traffic} (hsound : y.Sound)
    (hturn : y.lane.loopback.swaps = x.lane.loopback.swaps ∧
      y.lane.loopback.drawn = x.lane.loopback.drawn + t.sent?.toList.length)
    (next? : Option OpenCall) (hnext : y.calls = next?.toList)
    (hdeal : ∀ out held, x.seen = out.map Outgoing.received →
      x.held = held.map Outgoing.received →
      y.seen ++ next?.elim [] y.onway =
        (deal x.lane.loopback.swapsNext (out, held) t).1.map Outgoing.received ∧
      next?.elim y.held (fun c => if c.delivery.heldFollows then none else y.held) =
        (deal x.lane.loopback.swapsNext (out, held) t).2.map Outgoing.received)
    (hreturned : y.returned ++ next?.toList.map (fun c => (c.task, .ok ())) =
      x.returned ++ [(t, .ok ())]) : OneByOne swaps (ts ++ [t]) y := by
  have hdue := h.due
  have hleft := h.left
  have hbefore := h.returned
  rw [Traffic.due, hcalls, List.append_nil] at hdue
  rw [Traffic.left, hcalls] at hleft
  rw [hcalls, List.map_nil, List.append_nil] at hbefore
  obtain ⟨hdue', hleft'⟩ := hdeal _ _ hdue hleft
  refine ⟨hsound, hturn.1.trans h.swaps_eq, ?_, ?_, ?_, ?_, ?_⟩
  · rw [hturn.2, h.drawn, filterMap_sent_concat, List.length_append]
  · rw [hnext]
    cases next? <;> simp
  · rw [dealAll_concat, ← h.swapsNext_eq, ← hdue', Traffic.due, hnext]
    cases next? <;> rfl
  · rw [dealAll_concat, ← h.swapsNext_eq, ← hleft', Traffic.left, hnext]
    cases next? <;> rfl
  · rw [hnext, hreturned, hbefore, List.map_append, List.map_singleton]

/-- A call that returns at once. -/
theorem answered (h : OneByOne swaps ts x) (hcalls : x.calls = []) {t : Transmission}
    {y : Traffic} (hsound : y.Sound)
    (hturn : y.lane.loopback.swaps = x.lane.loopback.swaps ∧
      y.lane.loopback.drawn = x.lane.loopback.drawn + t.sent?.toList.length)
    (hsame : y.calls = x.calls)
    (hdeal : ∀ out held, x.seen = out.map Outgoing.received →
      x.held = held.map Outgoing.received →
      y.seen = (deal x.lane.loopback.swapsNext (out, held) t).1.map Outgoing.received ∧
      y.held = (deal x.lane.loopback.swapsNext (out, held) t).2.map Outgoing.received)
    (hreturned : y.returned = x.returned ++ [(t, .ok ())]) : OneByOne swaps (ts ++ [t]) y := by
  refine h.called hcalls hsound hturn none (hsame.trans hcalls) ?_ ?_
  · intro out held hseen hheld
    obtain ⟨hout, hleft⟩ := hdeal out held hseen hheld
    exact ⟨(List.append_nil _).trans hout, hleft⟩
  · exact (List.append_nil _).trans hreturned

/-- A call that has something to put on the channel. -/
theorem entered (h : OneByOne swaps ts x) (hcalls : x.calls = []) {t : Transmission}
    {y : Traffic} (hsound : y.Sound)
    (hturn : y.lane.loopback.swaps = x.lane.loopback.swaps ∧
      y.lane.loopback.drawn = x.lane.loopback.drawn + t.sent?.toList.length)
    {who : ℕ} {d : Delivery}
    (hnext : y.calls = x.calls ++ [⟨who, t, d, false⟩]) (hrest : y.lane.resting who = false)
    (hdeal : ∀ out held, x.seen = out.map Outgoing.received →
      x.held = held.map Outgoing.received →
      y.seen ++ d.object :: (if d.heldFollows then y.held.toList else []) =
        (deal x.lane.loopback.swapsNext (out, held) t).1.map Outgoing.received ∧
      (if d.heldFollows then none else y.held) =
        (deal x.lane.loopback.swapsNext (out, held) t).2.map Outgoing.received)
    (hreturned : y.returned = x.returned) : OneByOne swaps (ts ++ [t]) y := by
  rw [hcalls, List.nil_append] at hnext
  refine h.called hcalls hsound hturn (some ⟨who, t, d, false⟩) hnext ?_ ?_
  · intro out held hseen hheld
    obtain ⟨hout, hleft⟩ := hdeal out held hseen hheld
    refine ⟨?_, hleft⟩
    rw [← hout, Option.elim_some, onway, hrest]
    rfl
  · rw [hreturned]
    rfl

/-- The call in progress goes on. -/
theorem onward (h : OneByOne swaps ts x) {c : OpenCall} (hc : c ∈ x.calls) {y : Traffic}
    (hsound : y.Sound) (hsame : y.lane.loopback.swaps = x.lane.loopback.swaps ∧
      y.lane.loopback.drawn = x.lane.loopback.drawn)
    (next? : Option OpenCall) (hnext : y.calls = x.others c.who ++ next?.toList)
    (hdue : y.seen ++ next?.elim [] y.onway = x.seen ++ x.onway c)
    (hleft : next?.elim y.held (fun d => if d.delivery.heldFollows then none else y.held) =
      if c.delivery.heldFollows then none else x.held)
    (hreturned : y.returned ++ next?.toList.map (fun d => (d.task, .ok ())) =
      x.returned ++ [(c.task, .ok ())]) : OneByOne swaps (ts ++ []) y := by
  obtain ⟨hcalls, hothers⟩ := h.calls_eq hc
  rw [hothers, List.nil_append] at hnext
  have hbefore := h.returned
  rw [hcalls, List.map_singleton] at hbefore
  have hdue' : y.due = x.due := by
    have hx : x.due = x.seen ++ x.onway c := by rw [Traffic.due, hcalls]
    rw [hx, ← hdue, Traffic.due, hnext]
    cases next? <;> rfl
  have hleft' : y.left = x.left := by
    have hx : x.left = if c.delivery.heldFollows then none else x.held := by
      rw [Traffic.left, hcalls]
    rw [hx, ← hleft, Traffic.left, hnext]
    cases next? <;> rfl
  rw [List.append_nil]
  refine ⟨hsound, hsame.1.trans h.swaps_eq, hsame.2.trans h.drawn, ?_, hdue'.trans h.due,
    hleft'.trans h.left, ?_⟩
  · rw [hnext]
    cases next? <;> simp
  · rw [hnext, hreturned, hbefore]

/-- Nothing has happened, or the receiver has taken something. -/
theorem aside (h : OneByOne swaps ts x) {y : Traffic} (hsound : y.Sound)
    (hcalls : y.calls = x.calls) (hresting : y.lane.resting = x.lane.resting)
    (hsame : y.lane.loopback.swaps = x.lane.loopback.swaps ∧
      y.lane.loopback.drawn = x.lane.loopback.drawn) (hseen : y.seen = x.seen)
    (hheld : y.held = x.held) (hreturned : y.returned = x.returned) :
    OneByOne swaps (ts ++ []) y := by
  rw [List.append_nil]
  refine ⟨hsound, hsame.1.trans h.swaps_eq, hsame.2.trans h.drawn, ?_, ?_, ?_, ?_⟩
  · rw [hcalls]
    exact h.alone
  · rw [← h.due]
    unfold Traffic.due onway
    rw [hseen, hcalls, hresting, hheld]
  · rw [← h.left]
    unfold Traffic.left
    rw [hcalls, hheld]
  · rw [hreturned, hcalls]
    exact h.returned

theorem step (h : OneByOne swaps ts x) {m : Move} (hm : m.isInTurn x = true) :
    OneByOne swaps (ts ++ m.task?.toList) (x.step m) := by
  have hsound := h.sound.step m
  have hchange := change_step h.sound m
  generalize x.step m = y at hsound hchange ⊢
  have hidle : ∀ {who t}, m = .call who t → x.calls = [] := by
    rintro who t rfl
    exact List.isEmpty_iff.mp hm
  cases hchange with
  | still taken =>
    have hnone : m.task? = none := by
      cases m with
      | call who t =>
        obtain ⟨c, hc, -⟩ := taken who t rfl
        rw [hidle rfl] at hc
        cases hc
      | go who => rfl
      | abandon who => rfl
      | receive => rfl
    rw [hnone]
    exact h.aside hsound rfl rfl ⟨rfl, rfl⟩ rfl rfl rfl
  | header g =>
    exact h.answered (hidle rfl) hsound ⟨rfl, rfl⟩ rfl
      (fun _ _ hseen hheld => ⟨hseen, hheld⟩) rfl
  | hold o hswaps empty =>
    refine h.answered (hidle rfl) hsound ⟨rfl, rfl⟩ rfl ?_ rfl
    intro out held hseen hheld
    have hnone : held = none := Option.map_eq_none_iff.mp (hheld.symm.trans empty)
    rw [hnone, deal_held hswaps]
    exact ⟨hseen, rfl⟩
  | begin fresh o passes =>
    refine h.entered (hidle rfl) hsound ⟨rfl, rfl⟩ rfl (h.sound.not_resting fresh) ?_ rfl
    intro out held hseen hheld
    have hpass : x.lane.loopback.swapsNext = true → held.isSome = true := by
      intro hswaps
      have hsome := passes hswaps
      rw [hheld, ne_eq, Option.map_eq_none_iff] at hsome
      exact Option.isSome_iff_ne_none.mpr hsome
    rw [deal_passed hpass, List.map_append, List.map_cons, ← Option.toList_map, ← hseen, ← hheld]
    exact ⟨rfl, rfl⟩
  | flushNothing empty =>
    refine h.answered (hidle rfl) hsound ⟨rfl, rfl⟩ rfl ?_ rfl
    intro out held hseen hheld
    have hnone : held = none := Option.map_eq_none_iff.mp (hheld.symm.trans empty)
    rw [hnone, deal, Option.toList_none, List.append_nil]
    exact ⟨hseen, empty⟩
  | flush fresh full =>
    refine h.entered (hidle rfl) hsound ⟨rfl, rfl⟩ rfl (h.sound.not_resting fresh) ?_ rfl
    intro out held hseen hheld
    rw [deal, List.map_append, ← Option.toList_map, ← hseen, ← hheld, full]
    exact ⟨rfl, rfl⟩
  | lookNothing hc hrest empty =>
    refine h.onward hc hsound ⟨rfl, rfl⟩ none (List.append_nil _).symm ?_ ?_ (List.append_nil _)
    · rw [onway, if_pos hrest, empty]
      rfl
    · rw [if_pos (h.sound.looks hc hrest).1]
      exact empty
  | look hc hrest full =>
    refine h.onward hc hsound ⟨rfl, rfl⟩ (some _) rfl ?_ ?_ rfl
    · simp only [Option.elim_some, onway, Function.update_self, hrest, full, if_true,
        Bool.false_eq_true, if_false]
      rfl
    · rw [if_pos (h.sound.looks hc hrest).1]
      rfl
  | wait hc hrest =>
    refine h.onward hc hsound ⟨rfl, rfl⟩ (some _) rfl ?_ rfl rfl
    rfl
  | put hc hrest hfollows =>
    refine h.onward hc hsound ⟨rfl, rfl⟩ (some _) rfl ?_ rfl rfl
    simp only [Option.elim_some, onway, Function.update_self, hrest, hfollows, if_true,
      Bool.false_eq_true, if_false]
    change x.taken ++ (x.channel.queue ++ [_]) ++ x.held.toList = x.seen ++ _ :: x.held.toList
    simp [seen]
  | deliver hc hrest hlast =>
    refine h.onward hc hsound ⟨rfl, rfl⟩ none (List.append_nil _).symm ?_ ?_ (List.append_nil _)
    · change x.taken ++ (x.channel.queue ++ [_]) ++ [] = _
      rw [onway, hrest, hlast]
      simp [seen]
    · rw [hlast]
      rfl
  | abandon hc hwaits => cases hm
  | receive hqueue =>
    refine h.aside hsound rfl rfl ⟨rfl, rfl⟩ ?_ rfl rfl
    change x.taken ++ [_] ++ _ = _
    rw [seen, hqueue, List.append_assoc]
    rfl

theorem run (h : OneByOne swaps ts x) {moves : List Move} (hmoves : x.inTurn moves = true) :
    OneByOne swaps (ts ++ moves.filterMap Move.task?) (x.run moves) := by
  induction moves generalizing x ts with
  | nil =>
    rw [List.filterMap_nil, List.append_nil]
    exact h
  | cons m rest ih =>
    obtain ⟨hm, hrest⟩ := Bool.and_eq_true_iff.mp hmoves
    have hall := ih (h.step hm) hrest
    rw [List.append_assoc] at hall
    cases m <;> exact hall

end OneByOne

/-- Once no call is in progress, what has come out and what is held back is what has been dealt. -/
theorem OneByOne.settled {swaps : ℕ → Bool} {ts : List Transmission} {x : Traffic}
    (h : OneByOne swaps ts x) (hdone : x.calls = []) :
    x.seen = (dealAll swaps ts).1.map Outgoing.received ∧
    x.held = (dealAll swaps ts).2.map Outgoing.received ∧
    x.returned = ts.map fun t => (t, .ok ()) := by
  have hdue := h.due
  have hleft := h.left
  have hreturned := h.returned
  rw [Traffic.due, hdone, List.append_nil] at hdue
  rw [Traffic.left, hdone] at hleft
  rw [hdone, List.map_nil, List.append_nil] at hreturned
  exact ⟨hdue, hleft, hreturned⟩

theorem rel_arrives (o? : Option Outgoing) : Option.Rel Arrives o? (o?.map Outgoing.received) := by
  cases o? with
  | none => exact .none
  | some o => exact .some (arrives_received o)

/-- Calls on a loopback transport follow each other until none is in progress, whoever makes them,
while the receiver takes objects whenever it likes. All of them succeed, and each object that has
come out or is held back is one that was sent. A transport that never reorders delivers the objects
in the order in which they were sent. One that always does makes neighbours change places in every
block from one flush to the next: a flush delivers the odd last object of its block, and the odd
last object behind the last flush is held back. However chance has it, nothing is lost, comes twice
or is more than one place from where it was. -/
theorem neighbours_change_places (capacity : ℕ) (reorderProbability : Float) (chance : ℕ → Bool)
    {moves : List Move} (hmoves : (start capacity reorderProbability chance).inTurn moves = true)
    (hdone : ((start capacity reorderProbability chance).run moves).calls = []) :
    let x := (start capacity reorderProbability chance).run moves
    let tasks := moves.filterMap Move.task?
    let sent := tasks.filterMap Transmission.sent?
    let bs := blocks tasks
    x.returned = tasks.map (fun t => (t, .ok ())) ∧
    (reorderProbability ≤ 0.0 → List.Forall₂ Arrives sent x.seen ∧ x.held = none) ∧
    (1.0 ≤ reorderProbability →
      List.Forall₂ Arrives
        (bs.dropLast.flatMap swapPairs ++ swapPairs (wholePairs (bs.getLastD []))) x.seen ∧
      List.Forall₂ Arrives (oddOne (bs.getLastD [])) x.held.toList) ∧
    ∃ f : ℕ → ℕ, f.Involutive ∧ (∀ i, f i ≤ i + 1 ∧ i ≤ f i + 1) ∧
      ∀ i, Option.Rel Arrives sent[f i]? (x.seen ++ x.held.toList)[i]? := by
  intro x tasks sent bs
  have hstart := OneByOne.start capacity reorderProbability chance
  obtain ⟨hseen, hheld, hreturned⟩ := (hstart.run hmoves).settled hdone
  rw [List.nil_append] at hseen hheld hreturned
  refine ⟨hreturned, fun hle => ?_, fun hle => ?_, ?_⟩
  · rw [Loopback.swaps_of_le_zero capacity hle, dealAll_plain] at hseen hheld
    exact ⟨hseen ▸ arrive_received sent, hheld⟩
  · obtain ⟨hout, hodd⟩ := dealAll_swapping tasks
    rw [Loopback.swaps_of_one_le capacity hle] at hseen hheld
    rw [hout] at hseen
    refine ⟨hseen ▸ arrive_received (pairedOut bs), ?_⟩
    rw [hheld, Option.toList_map, hodd]
    exact arrive_received _
  · obtain ⟨f, hf, hplaces, hget⟩ := (neighbours_dealAll _ tasks).exists_places
    refine ⟨f, hf, hplaces, fun i => ?_⟩
    rw [hseen, hheld, Option.toList_map, ← List.map_append, List.getElem?_map, hget]
    exact rel_arrives _

namespace TwoUsers

def object (number : ℕ) : Outgoing := ⟨1, 1, 0, 0, number, ⟨#[7]⟩, none⟩

/-- Where all change places, nothing is left to it. -/
def chance : ℕ → Bool := fun _ => false

/-- There is room for one object, so that calls have to wait for the receiver. -/
def moves : List Move :=
  [.call 0 (.object (object 0)), .call 1 (.object (object 1)), .go 1, .go 1, .go 1, .receive, .go 1,
    .call 0 (.object (object 2)), .call 1 .flush, .go 1, .receive, .go 1,
    .call 0 (.object (object 3)), .receive]

end TwoUsers

open TwoUsers in
theorem two_users_change_places :
    let x := (start 1 1.0 chance).run moves
    (start 1 1.0 chance).inTurn moves = true ∧ x.calls = [] ∧ (1.0 : Float) ≤ 1.0 ∧
    List.Forall₂ Arrives [object 1, object 0, object 2] x.seen ∧
    List.Forall₂ Arrives [object 3] x.held.toList := by
  intro x
  have hturns : (start 1 1.0 chance).inTurn moves = true := by decide +kernel
  have hdone : ((start 1 1.0 chance).run moves).calls = [] := by decide +kernel
  have hone : (1.0 : Float) ≤ 1.0 := by decide +kernel
  obtain ⟨-, -, hswaps, -⟩ := neighbours_change_places 1 1.0 chance hturns hdone
  exact ⟨hturns, hdone, hone, hswaps hone⟩

end Traffic

end LiveMedia
