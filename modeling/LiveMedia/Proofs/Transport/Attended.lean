import LiveMedia.Transport.Loopback
import LiveMedia.Proofs.CallLog

/-!
# A loopback transport with its receiver

The receiver comes whenever it likes and takes as many objects as it likes; a sender that finds no
place waits for it. Whenever it comes, what it sees in the end is the same: the objects in the order
in which they were sent, or with neighbours changing places.
-/

namespace LiveMedia
set_option autoImplicit false

structure Attended where
  loopback : Loopback
  /-- What the receiver has taken, the latest last. -/
  taken : List Received
  /-- How many objects the receiver takes at each of its next visits. -/
  visits : List Nat

namespace Attended

def start (capacity : Nat) (reorderProbability : Float) (chance : Nat → Bool)
    (visits : List Nat) : Attended :=
  ⟨.make capacity reorderProbability chance, [], visits⟩

def draw (a : Attended) : Attended := { a with loopback := a.loopback.draw }

/-- All that has come out at the other end, taken or not. -/
def seen (a : Attended) : List Received := a.taken ++ a.loopback.channel.queue

/-- The receiver comes and takes at least so many objects, if they are there. -/
def visit (least : Nat) (a : Attended) : Attended :=
  let n := max least (a.visits.headD 0)
  let channel := { a.loopback.channel with queue := a.loopback.channel.queue.drop n }
  { loopback := { a.loopback with channel := channel }
    taken := a.taken ++ a.loopback.channel.queue.take n
    visits := a.visits.tail }

/-- A call that has to wait goes on after the next visit. It waits at most once for each object that
it delivers. -/
def finish : (waits : Nat) → Progress → Attended → Except LinkFault Unit × Attended
  | _, .done result, a => (result, a.visit 0)
  | 0, .going _, a => (.error .closed, a)
  | 0, .blocked _, a => (.error .closed, a)
  | waits + 1, .going d, a =>
    let (progress, l) := (a.visit 1).loopback.resume 0 d
    finish waits progress { a.visit 1 with loopback := l }
  | waits + 1, .blocked d, a =>
    let (progress, l) := (a.visit 1).loopback.resume 0 d
    finish waits progress { a.visit 1 with loopback := l }

def send (t : Transmission) (a : Attended) : Except LinkFault Unit × Attended :=
  let (progress, l) := a.loopback.send 0 t
  finish 2 progress { a with loopback := l }

def link : Link Attended := ⟨send⟩

structure Ready (a : Attended) : Prop where
  isOpen : a.loopback.channel.isOpen = true
  line : a.loopback.channel.line = []
  room : 0 < a.loopback.channel.capacity
  fits : a.loopback.channel.queue.length ≤ a.loopback.channel.capacity

theorem ready_start (capacity : Nat) (reorderProbability : Float) (chance : Nat → Bool)
    (visits : List Nat) : (start capacity reorderProbability chance visits).Ready where
  isOpen := rfl
  line := rfl
  room := Nat.lt_of_lt_of_le Nat.zero_lt_one (Nat.le_max_right capacity 1)
  fits := Nat.zero_le _

@[simp] theorem seen_visit (least : Nat) (a : Attended) : (a.visit least).seen = a.seen := by
  unfold seen visit
  simp only [List.append_assoc, List.take_append_drop]

/-- What happens to an object on its way onto the channel, with the receiver's help. -/
theorem offer_cases {c : Channel Received} (hopen : c.isOpen = true)
    (hline : c.line = [] ∨ c.line = [0]) (o : Received) :
    (c.queue.length < c.capacity ∧
      c.offer 0 o = .taken { c with queue := c.queue ++ [o], line := [] }) ∨
    (c.capacity ≤ c.queue.length ∧ c.offer 0 o = .waiting { c with line := [0] }) := by
  have hahead : c.ahead 0 = 0 := by
    unfold Channel.ahead
    rcases hline with h | h <;> rw [h] <;> rfl
  have herase : c.line.erase 0 = [] := by
    rcases hline with h | h <;> rw [h] <;> rfl
  have hjoin : (if c.line.contains 0 then c.line else c.line ++ [0]) = [0] := by
    rcases hline with h | h <;> rw [h] <;> rfl
  unfold Channel.offer Channel.free
  rw [hopen, hahead, herase, hjoin]
  by_cases hroom : c.queue.length < c.capacity
  · refine Or.inl ⟨hroom, ?_⟩
    rw [if_neg (by decide), if_pos (by omega)]
  · refine Or.inr ⟨Nat.not_lt.mp hroom, ?_⟩
    rw [if_neg (by decide), if_neg (by omega)]

end Attended

namespace Loopback

def rest (l : Loopback) (d : Delivery) : List Received :=
  d.object :: if d.heldFollows then l.held.toList else []

structure Midway (l : Loopback) (d : Delivery) : Prop where
  isOpen : l.channel.isOpen = true
  line : l.channel.line = [] ∨ l.channel.line = [0]
  room : 0 < l.channel.capacity
  fits : l.channel.queue.length ≤ l.channel.capacity
  alone : d.heldFollows = false → l.held = none

/-- The transport after the call, once all has found its place. -/
def delivered (l : Loopback) (d : Delivery) : Loopback :=
  { l with
    channel := { l.channel with queue := l.channel.queue ++ l.rest d, line := [] }
    held := none }

/-- One step delivers an object or finds no place for it. -/
theorem step_cases {l : Loopback} {d : Delivery} (h : l.Midway d) :
    (l.step 0 d = (.done (.ok ()), l.delivered d) ∧
      (l.delivered d).channel.queue.length ≤ l.channel.capacity) ∨
    (∃ e r, l.step 0 d = (.going e, r) ∧ r.Midway e ∧ r.delivered e = l.delivered d ∧
      (r.rest e).length < (l.rest d).length) ∨
    (l.channel.capacity ≤ l.channel.queue.length ∧ ∃ r, l.step 0 d = (.blocked d, r) ∧
      r.Midway d ∧ r.delivered d = l.delivered d ∧ (r.rest d).length = (l.rest d).length) := by
  rcases Attended.offer_cases h.isOpen h.line d.object with ⟨hroom, hoffer⟩ | ⟨hfull, hoffer⟩
  · have hfits : (l.channel.queue ++ [d.object]).length ≤ l.channel.capacity := by
      rw [List.length_append]
      exact hroom
    refine or_assoc.mp (Or.inl ?_)
    unfold step
    rw [hoffer]
    simp only
    cases hfollows : d.heldFollows with
    | false =>
      apply Or.inl
      rw [if_neg Bool.false_ne_true]
      unfold delivered rest
      rw [hfollows, if_neg Bool.false_ne_true, h.alone hfollows]
      exact ⟨rfl, hfits⟩
    | true =>
      rw [if_pos rfl]
      unfold releaseHeld
      cases hheld : l.held with
      | none =>
        apply Or.inl
        unfold delivered rest
        simp only [hfollows, hheld, if_true, Option.toList_none]
        exact ⟨trivial, hfits⟩
      | some o =>
        refine Or.inr ⟨_, _, rfl, ⟨h.isOpen, Or.inl rfl, h.room, hfits, fun _ => rfl⟩, ?_, ?_⟩
        · unfold delivered rest
          simp [hfollows, hheld]
        · unfold rest
          simp [hfollows, hheld]
  · refine Or.inr (Or.inr ⟨hfull, { l with channel := { l.channel with line := [0] } }, ?_,
      ⟨h.isOpen, Or.inr rfl, h.room, h.fits, h.alone⟩, rfl, rfl⟩)
    unfold step
    rw [hoffer]

theorem length_rest (l : Loopback) (d : Delivery) :
    0 < (l.rest d).length ∧ (l.rest d).length ≤ 2 := by
  unfold rest
  rw [List.length_cons]
  split
  · cases l.held <;> simp
  · simp

/-- A call that goes on delivers all, or waits for a place for what is left. -/
theorem resume_cases {l : Loopback} {d : Delivery} (h : l.Midway d) :
    (l.resume 0 d = (.done (.ok ()), l.delivered d) ∧
      (l.delivered d).channel.queue.length ≤ l.channel.capacity) ∨
    ∃ e r, l.resume 0 d = (.blocked e, r) ∧ r.Midway e ∧ r.delivered e = l.delivered d ∧
      (r.rest e).length ≤ (l.rest d).length ∧
      (l.channel.queue.length < l.channel.capacity → (r.rest e).length < (l.rest d).length) := by
  have hgoing : ∀ {e r}, l.step 0 d = (.going e, r) → l.resume 0 d = r.step 0 e := by
    intro e r hs
    unfold resume run
    simp only [hs]
  rcases step_cases h with ⟨hs, hfits⟩ | ⟨e, r, hs, he, hall, hless⟩ |
    ⟨hfull, r, hs, hr, hall, hsame⟩
  · exact Or.inl ⟨by unfold resume run; simp only [hs], hfits⟩
  · have hcapacity : (r.delivered e).channel.capacity = (l.delivered d).channel.capacity := by
      rw [hall]
    change r.channel.capacity = l.channel.capacity at hcapacity
    rcases step_cases he with ⟨hs', hfits⟩ | ⟨e', r', _, _, _, hless'⟩ |
      ⟨_, r', hs', hr', hall', hsame'⟩
    · rw [hall, hcapacity] at hfits
      exact Or.inl ⟨by rw [hgoing hs, hs', hall], hfits⟩
    · -- At most two objects are delivered, so that nothing is left after two steps.
      have := l.length_rest d
      have := r'.length_rest e'
      omega
    · exact Or.inr ⟨e, r', by rw [hgoing hs, hs'], hr', hall'.trans hall, by omega,
        fun _ => by omega⟩
  · exact Or.inr ⟨d, r, by unfold resume run; simp only [hs], hr, hall, Nat.le_of_eq hsame,
      fun hroom => by omega⟩

end Loopback

namespace Attended

theorem midway_visit {least : Nat} {a : Attended} {d : Delivery} (h : a.loopback.Midway d) :
    (a.visit least).loopback.Midway d where
  isOpen := h.isOpen
  line := h.line
  room := h.room
  fits := Nat.le_trans (List.length_drop ▸ Nat.sub_le _ _) h.fits
  alone := h.alone

theorem finish_done (waits : Nat) (result : Except LinkFault Unit) (a : Attended) :
    finish waits (.done result) a = (result, a.visit 0) := by
  cases waits <;> rfl

theorem finish_wait (waits : Nat) (d : Delivery) (a : Attended) :
    finish (waits + 1) (.blocked d) a =
      finish waits ((a.visit 1).loopback.resume 0 d).1
        { a.visit 1 with loopback := ((a.visit 1).loopback.resume 0 d).2 } := rfl

theorem Ready.visit {a : Attended} (h : a.Ready) (least : Nat) : (a.visit least).Ready where
  isOpen := h.isOpen
  line := h.line
  room := h.room
  fits := Nat.le_trans (List.length_drop ▸ Nat.sub_le _ _) h.fits

theorem room_visit {a : Attended} {d : Delivery} (h : a.loopback.Midway d) :
    (a.visit 1).loopback.channel.queue.length < (a.visit 1).loopback.channel.capacity := by
  have hone : 1 ≤ max 1 (a.visits.headD 0) := Nat.le_max_left 1 _
  have hfits := h.fits
  have hroom := h.room
  change (a.loopback.channel.queue.drop _).length < a.loopback.channel.capacity
  rw [List.length_drop]
  omega

/-- After a call that had these objects to deliver: they have come out, and nothing is held back. -/
structure Finished (a : Attended) (objects : List Received) (r : Attended) : Prop where
  ready : r.Ready
  seen : r.seen = a.seen ++ objects
  held : r.loopback.held = none
  swaps : r.loopback.swaps = a.loopback.swaps
  drawn : r.loopback.drawn = a.loopback.drawn

/-- A call that goes on is finished if it can be finished from where it has to wait again. -/
theorem finish_resume (waits : Nat) {a : Attended} {d : Delivery} (h : a.loopback.Midway d)
    (hblocked : ∀ (e : Delivery) (l : Loopback), l.Midway e →
      (l.rest e).length ≤ (a.loopback.rest d).length →
      (a.loopback.channel.queue.length < a.loopback.channel.capacity →
        (l.rest e).length < (a.loopback.rest d).length) →
      ∃ r, finish waits (.blocked e) { a with loopback := l } = (.ok (), r) ∧
        Finished { a with loopback := l } (l.rest e) r) :
    ∃ r, finish waits (a.loopback.resume 0 d).1
        { a with loopback := (a.loopback.resume 0 d).2 } = (.ok (), r) ∧
      Finished a (a.loopback.rest d) r := by
  rcases Loopback.resume_cases h with ⟨hr, hfits⟩ | ⟨e, l, hr, he, hall, hle, hless⟩
  · rw [hr, finish_done]
    have hready : ({ a with loopback := a.loopback.delivered d } : Attended).Ready :=
      ⟨h.isOpen, rfl, h.room, hfits⟩
    refine ⟨_, rfl, hready.visit 0, ?_, rfl, rfl, rfl⟩
    rw [seen_visit]
    exact (List.append_assoc _ _ _).symm
  · rw [hr]
    obtain ⟨r, hf, hr⟩ := hblocked e l he hle hless
    have hqueue : (l.delivered e).channel.queue = (a.loopback.delivered d).channel.queue := by
      rw [hall]
    have hswaps : (l.delivered e).swaps = (a.loopback.delivered d).swaps := by rw [hall]
    have hdrawn : (l.delivered e).drawn = (a.loopback.delivered d).drawn := by rw [hall]
    change l.channel.queue ++ l.rest e = a.loopback.channel.queue ++ a.loopback.rest d at hqueue
    refine ⟨r, hf, hr.ready, ?_, hr.held, hr.swaps.trans hswaps, hr.drawn.trans hdrawn⟩
    rw [hr.seen]
    unfold seen
    rw [List.append_assoc, List.append_assoc, hqueue]

/-- Each visit makes room for at least one of the objects that a call still has to deliver. -/
theorem finish_blocked (waits : Nat) {a : Attended} {d : Delivery} (h : a.loopback.Midway d)
    (hwaits : (a.loopback.rest d).length ≤ waits) :
    ∃ r, finish waits (.blocked d) a = (.ok (), r) ∧ Finished a (a.loopback.rest d) r := by
  induction waits generalizing a d with
  | zero =>
    have := a.loopback.length_rest d
    omega
  | succ waits ih =>
    rw [finish_wait]
    have hv : (a.visit 1).loopback.Midway d := midway_visit h
    obtain ⟨r, hf, hr⟩ := finish_resume waits hv (by
      intro e l he _ hless
      apply ih he
      exact Nat.le_of_lt_succ (Nat.lt_of_lt_of_le (hless (room_visit h)) hwaits))
    refine ⟨r, hf, hr.ready, ?_, hr.held, hr.swaps, hr.drawn⟩
    rw [hr.seen, seen_visit]
    rfl

theorem finish_call {a : Attended} {d : Delivery} (h : a.loopback.Midway d) :
    ∃ r, finish 2 (a.loopback.resume 0 d).1
        { a with loopback := (a.loopback.resume 0 d).2 } = (.ok (), r) ∧
      Finished a (a.loopback.rest d) r := by
  apply finish_resume 2 h
  intro e l he hle _
  exact finish_blocked 2 he (Nat.le_trans hle (a.loopback.length_rest d).2)

theorem send_header {a : Attended} (h : a.Ready) (header : GroupHeader) :
    a.send (.header header) = (.ok (), a.visit 0) := by
  unfold send Loopback.send Loopback.start
  rw [h.isOpen]
  rfl

theorem send_held {a : Attended} (o : Outgoing)
    (hnext : (a.loopback.swapsNext && a.loopback.held.isNone) = true) :
    a.send (.object o) = (.ok (),
      { a with loopback := { a.loopback.draw with held := some o.received } }.visit 0) := by
  unfold send Loopback.send Loopback.start
  simp only [hnext, if_true]
  rfl

theorem send_object {a : Attended} (h : a.Ready) (o : Outgoing)
    (hnext : (a.loopback.swapsNext && a.loopback.held.isNone) = false) :
    ∃ r, a.send (.object o) = (.ok (), r) ∧
      Finished a.draw (o.received :: a.loopback.held.toList) r := by
  have hmid : a.loopback.draw.Midway ⟨o.received, true⟩ :=
    ⟨h.isOpen, Or.inl h.line, h.room, h.fits, fun hf => absurd hf.symm Bool.false_ne_true⟩
  have hsend : a.send (.object o) = finish 2 (a.loopback.draw.resume 0 ⟨o.received, true⟩).1
      { a.draw with loopback := (a.loopback.draw.resume 0 ⟨o.received, true⟩).2 } := by
    unfold send Loopback.send Loopback.start Loopback.resume
    simp only [hnext, Bool.false_eq_true, if_false]
    rfl
  rw [hsend]
  exact finish_call (a := a.draw) hmid

theorem send_flush {a : Attended} (h : a.Ready) :
    ∃ r, a.send .flush = (.ok (), r) ∧ Finished a a.loopback.held.toList r := by
  cases hheld : a.loopback.held with
  | none =>
    refine ⟨a.visit 0, ?_, h.visit 0, by simp, hheld, rfl, rfl⟩
    unfold send Loopback.send Loopback.start Loopback.releaseHeld
    simp only [hheld]
    rfl
  | some o =>
    have hmid : ({ a.loopback with held := none } : Loopback).Midway ⟨o, false⟩ :=
      ⟨h.isOpen, Or.inl h.line, h.room, h.fits, fun _ => rfl⟩
    have hsend : a.send .flush = finish 2 (({ a.loopback with held := none } : Loopback).resume 0
        ⟨o, false⟩).1 { a with loopback := (({ a.loopback with held := none } : Loopback).resume 0
        ⟨o, false⟩).2 } := by
      unfold send Loopback.send Loopback.start Loopback.releaseHeld Loopback.resume
      simp only [hheld]
    rw [hsend]
    obtain ⟨r, hf, hr⟩ :=
      finish_call (a := { a with loopback := { a.loopback with held := none } }) hmid
    exact ⟨r, hf, hr.ready, hr.seen, hr.held, hr.swaps, hr.drawn⟩

/-- The order in which objects come out when so many have had their turn before and this one is held
back. It goes behind the next. -/
def outOrder (swaps : Nat → Bool) : (drawn : Nat) → (held : Option Received) → List Received →
    List Received
  | _, held, [] => held.toList
  | n, held, o :: rest =>
    if swaps n && held.isNone then outOrder swaps (n + 1) (some o) rest
    else o :: held.toList ++ outOrder swaps (n + 1) none rest

theorem perm_outOrder (swaps : Nat → Bool) (n : Nat) (held : Option Received)
    (objects : List Received) :
    (outOrder swaps n held objects).Perm (held.toList ++ objects) := by
  induction objects generalizing n held with
  | nil => rw [List.append_nil, outOrder]
  | cons o rest ih =>
    rw [outOrder]
    split
    · rename_i hnext
      obtain ⟨-, hnone⟩ := Bool.and_eq_true_iff.mp hnext
      obtain rfl := Option.isNone_iff_eq_none.mp hnone
      exact ih (n + 1) (some o)
    · have hbehind := (ih (n + 1) none).append_left (o :: held.toList)
      exact hbehind.trans List.perm_middle.symm

theorem after_cons (a : Attended) (t : Transmission) (rest : List Transmission) :
    link.after a (t :: rest) = link.after (a.send t).2 rest := rfl

/-- While calls are made, what has come out and what is held back are the beginning of what comes
out in the end. -/
theorem seen_after {a : Attended} (h : a.Ready) (ts : List Transmission)
    (hflush : ∀ t ∈ ts, t ≠ .flush) :
    (link.after a ts).Ready ∧
    (link.after a ts).seen ++ (link.after a ts).loopback.held.toList =
      a.seen ++ outOrder a.loopback.swaps a.loopback.drawn a.loopback.held
        (ts.filterMap Transmission.received?) := by
  induction ts generalizing a with
  | nil => exact ⟨h, rfl⟩
  | cons t rest ih =>
    have hrest : ∀ t ∈ rest, t ≠ .flush := fun x hx => hflush x (List.mem_cons_of_mem t hx)
    rw [after_cons]
    cases t with
    | flush => exact absurd rfl (hflush .flush List.mem_cons_self)
    | header header =>
      rw [send_header h]
      obtain ⟨hready, hseen⟩ := ih (h.visit 0) hrest
      refine ⟨hready, hseen.trans ?_⟩
      rw [seen_visit]
      rfl
    | object o =>
      have hobjects : (Transmission.object o :: rest).filterMap Transmission.received? =
          o.received :: rest.filterMap Transmission.received? := rfl
      rw [hobjects]
      by_cases hnext : (a.loopback.swapsNext && a.loopback.held.isNone) = true
      · have hready : ({ a with
            loopback := { a.loopback.draw with held := some o.received } } : Attended).Ready :=
          ⟨h.isOpen, h.line, h.room, h.fits⟩
        obtain ⟨hready', hseen⟩ := ih (hready.visit 0) hrest
        rw [send_held o hnext]
        refine ⟨hready', hseen.trans ?_⟩
        rw [seen_visit]
        exact congrArg (a.seen ++ ·) (if_pos hnext).symm
      · rw [Bool.not_eq_true] at hnext
        obtain ⟨r, hsend, hdone⟩ := send_object h o hnext
        obtain ⟨hready, hseen⟩ := ih hdone.ready hrest
        rw [hsend]
        refine ⟨hready, hseen.trans ?_⟩
        rw [hdone.seen, hdone.held, hdone.swaps, hdone.drawn, List.append_assoc]
        exact congrArg (a.seen ++ ·) (if_neg (hnext ▸ Bool.false_ne_true)).symm

/-- Once the stream has been flushed, all of its objects have come out. -/
theorem seen_stream {a : Attended} (h : a.Ready) (hheld : a.loopback.held = none)
    (ts : List Transmission) (hflush : ∀ t ∈ ts, t ≠ .flush) :
    (link.after a (ts ++ [.flush])).seen =
      a.seen ++ outOrder a.loopback.swaps a.loopback.drawn none
        (ts.filterMap Transmission.received?) := by
  obtain ⟨hready, hseen⟩ := seen_after h ts hflush
  obtain ⟨r, hsend, hdone⟩ := send_flush hready
  rw [hheld] at hseen
  rw [Link.after_append, after_cons, hsend, ← hseen, ← hdone.seen]
  rfl

end Attended

end LiveMedia
