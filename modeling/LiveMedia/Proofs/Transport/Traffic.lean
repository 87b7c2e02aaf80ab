import Mathlib.Data.List.Nodup
import LiveMedia.Proofs.CallLog
import LiveMedia.Proofs.Decimal.Sign
import LiveMedia.Proofs.Transport.Lane

/-!
# Traffic on a loopback transport

Any number of users call one transport while the receiver takes what has come out. The calls go on
by single actions, in whatever order they come. A call that finds the channel full stands in line,
and there it can be abandoned. What one move can change is listed once; the accounts of the traffic
are read off that list.
-/

namespace LiveMedia
set_option autoImplicit false

namespace Loopback

open Decimal

theorem swaps_of_le_zero (capacity : ℕ) {p : Float} (h : p ≤ 0.0) (chance : ℕ → Bool) :
    (make capacity p chance).swaps = fun _ => false := by
  have hnever : decide (p > 0.0) = false := by
    apply decide_eq_false
    intro hpositive
    rw [le_iff_unpack, unpack_decimal_zero, (decimal_zero_lt_iff.mp hpositive).not_le_zero] at h
    exact Bool.false_ne_true h
  funext n
  exact congrArg (· && (decide (p ≥ 1.0) || chance n)) hnever

theorem unpack_one :
    (1.0 : Float).toModel.unpack = .finite .positive (2 ^ 52) (-52) (by decide) := rfl

theorem swaps_of_one_le (capacity : ℕ) {p : Float} (h : 1.0 ≤ p) (chance : ℕ → Bool) :
    (make capacity p chance).swaps = fun _ => true := by
  have hsurely : decide (p ≥ 1.0) = true := decide_eq_true h
  rw [le_iff_unpack, unpack_one] at h
  have hpositive := decide_eq_true (decimal_zero_lt_iff.mpr (Positive.of_le (.finite _ _ _) h))
  funext n
  change (decide (p > 0.0) && (decide (p ≥ 1.0) || chance n)) = true
  rw [hpositive, hsurely]
  rfl

end Loopback

/-- A call in progress. -/
structure OpenCall where
  /-- Where the call stands in line; no other call in progress has this number. -/
  who : ℕ
  task : Transmission
  delivery : Delivery
  /-- It has found no place on the channel. -/
  waits : Bool
deriving DecidableEq

structure Traffic where
  lane : Lane
  calls : List OpenCall
  /-- What the receiver has taken, the latest last. -/
  taken : List Received
  returned : List (Transmission × Except LinkFault Unit)
  abandoned : List OpenCall

namespace Traffic

inductive Move where
  | call (who : ℕ) (t : Transmission)
  /-- The next action of a call. -/
  | go (who : ℕ)
  | abandon (who : ℕ)
  | receive
deriving DecidableEq

def start (capacity : ℕ) (reorderProbability : Float) (chance : ℕ → Bool) : Traffic :=
  ⟨⟨.make capacity reorderProbability chance, fun _ => false⟩, [], [], [], []⟩

section Views

variable (x : Traffic)

def channel : Channel Received := x.lane.loopback.channel

def held : Option Received := x.lane.loopback.held

/-- All that has come out at the other end, taken or not. -/
def seen : List Received := x.taken ++ x.channel.queue

def call? (who : ℕ) : Option OpenCall := x.calls.find? (·.who == who)

def others (who : ℕ) : List OpenCall := x.calls.filter (·.who != who)

end Views

/-- What becomes of a call after an action. -/
def settle (x : Traffic) (who : ℕ) (t : Transmission) : Progress × Lane → Traffic
  | (.done result, lane) => { x with lane := lane, returned := x.returned ++ [(t, result)] }
  | (.going d, lane) => { x with lane := lane, calls := x.calls ++ [⟨who, t, d, false⟩] }
  | (.blocked d, lane) => { x with lane := lane, calls := x.calls ++ [⟨who, t, d, true⟩] }

def step (x : Traffic) : Move → Traffic
  | .call who t => if (x.call? who).isSome then x else x.settle who t (x.lane.start t)
  | .go who =>
    match x.call? who with
    | none => x
    | some c =>
      { x with calls := x.others who }.settle who c.task (x.lane.advance who c.delivery)
  | .abandon who =>
    match x.call? who with
    | none => x
    | some c =>
      if c.waits then
        { x with
          lane := x.lane.mapChannel (·.leave who)
          calls := x.others who
          abandoned := x.abandoned ++ [c] }
      else x
  | .receive =>
    match x.channel.take? with
    | none => x
    | some (o, channel) =>
      { x with lane := x.lane.mapChannel fun _ => channel, taken := x.taken ++ [o] }

def run (x : Traffic) (moves : List Move) : Traffic := moves.foldl step x

/-- What moves cannot break: no two calls share a number, only a call that has put its own object on
the channel looks for the one held back, and nothing is held back by a transport that never
reorders. -/
structure Sound (x : Traffic) : Prop where
  isOpen : x.channel.isOpen = true
  distinct : (x.calls.map OpenCall.who).Nodup
  resting : ∀ who, x.lane.resting who = true → ∃ c ∈ x.calls, c.who = who ∧
    c.delivery.heldFollows = true ∧ c.waits = false
  own : ∀ c ∈ x.calls ++ x.abandoned, c.delivery.heldFollows = true →
    c.task.received? = some c.delivery.object
  plain : x.lane.loopback.swaps = (fun _ => false) →
    x.held = none ∧ ∀ c ∈ x.calls ++ x.abandoned, c.delivery.heldFollows = true
  succeeded : ∀ r ∈ x.returned, r.2 = .ok ()

/-- All that a move can do to sound traffic. -/
inductive Change (x : Traffic) : Move → Traffic → Prop
  /-- There is no such call, or it does not wait, or the number is taken, or nothing has come. -/
  | still {m : Move} (taken : ∀ who t, m = .call who t → ∃ c ∈ x.calls, c.who = who) : Change x m x
  | header {who : ℕ} (h : GroupHeader) : Change x (.call who (.header h))
      { x with returned := x.returned ++ [(.header h, .ok ())] }
  | hold {who : ℕ} (o : Outgoing) (swaps : x.lane.loopback.swapsNext = true)
      (empty : x.held = none) : Change x (.call who (.object o))
      { x with
        lane.loopback := { x.lane.loopback.draw with held := some o.received }
        returned := x.returned ++ [(.object o, .ok ())] }
  | begin {who : ℕ} (fresh : ∀ c ∈ x.calls, c.who ≠ who) (o : Outgoing)
      (passes : x.lane.loopback.swapsNext = true → x.held ≠ none) :
      Change x (.call who (.object o))
      { x with
        lane.loopback := x.lane.loopback.draw
        calls := x.calls ++ [⟨who, .object o, ⟨o.received, true⟩, false⟩] }
  | flushNothing {who : ℕ} (empty : x.held = none) : Change x (.call who .flush)
      { x with returned := x.returned ++ [(.flush, .ok ())] }
  | flush {who : ℕ} (fresh : ∀ c ∈ x.calls, c.who ≠ who) {h : Received} (full : x.held = some h) :
      Change x (.call who .flush)
      { x with
        lane.loopback.held := none
        calls := x.calls ++ [⟨who, .flush, ⟨h, false⟩, false⟩] }
  | lookNothing {c : OpenCall} (open_ : c ∈ x.calls) (resting : x.lane.resting c.who = true)
      (empty : x.held = none) : Change x (.go c.who)
      { x with
        lane.resting := Function.update x.lane.resting c.who false
        calls := x.others c.who
        returned := x.returned ++ [(c.task, .ok ())] }
  | look {c : OpenCall} (open_ : c ∈ x.calls) (resting : x.lane.resting c.who = true) {h : Received}
      (full : x.held = some h) : Change x (.go c.who)
      { x with
        lane := ⟨{ x.lane.loopback with held := none },
          Function.update x.lane.resting c.who false⟩
        calls := x.others c.who ++ [{ c with delivery := ⟨h, false⟩, waits := false }] }
  | wait {c : OpenCall} (open_ : c ∈ x.calls) (resting : x.lane.resting c.who = false) :
      Change x (.go c.who)
      { x with
        lane := x.lane.mapChannel (·.standIn c.who)
        calls := x.others c.who ++ [{ c with waits := true }] }
  | put {c : OpenCall} (open_ : c ∈ x.calls) (resting : x.lane.resting c.who = false)
      (follows : c.delivery.heldFollows = true) : Change x (.go c.who)
      { x with
        lane := { x.lane.mapChannel (·.put c.who c.delivery.object) with
          resting := Function.update x.lane.resting c.who true }
        calls := x.others c.who ++ [{ c with waits := false }] }
  | deliver {c : OpenCall} (open_ : c ∈ x.calls) (resting : x.lane.resting c.who = false)
      (last : c.delivery.heldFollows = false) : Change x (.go c.who)
      { x with
        lane := x.lane.mapChannel (·.put c.who c.delivery.object)
        calls := x.others c.who
        returned := x.returned ++ [(c.task, .ok ())] }
  | abandon {c : OpenCall} (open_ : c ∈ x.calls) (waits : c.waits = true) :
      Change x (.abandon c.who)
      { x with
        lane := x.lane.mapChannel (·.leave c.who)
        calls := x.others c.who
        abandoned := x.abandoned ++ [c] }
  | receive {o : Received} {rest : List Received} (queue : x.channel.queue = o :: rest) :
      Change x .receive
      { x with
        lane := x.lane.mapChannel fun c => { c with queue := rest }
        taken := x.taken ++ [o] }

variable {x : Traffic}

theorem call?_eq_some {who : ℕ} {c : OpenCall} (h : x.call? who = some c) :
    c ∈ x.calls ∧ c.who = who := by
  have hwho := List.find?_some h
  exact ⟨List.mem_of_find?_eq_some h, beq_iff_eq.mp hwho⟩

theorem call?_eq_none {who : ℕ} (h : x.call? who = none) : ∀ c ∈ x.calls, c.who ≠ who := by
  intro c hc heq
  exact List.find?_eq_none.mp h c hc (beq_iff_eq.mpr heq)

theorem change_call (h : x.Sound) (who : ℕ) (t : Transmission) :
    Change x (.call who t) (x.step (.call who t)) := by
  have hopen : x.lane.loopback.channel.isOpen = true := h.isOpen
  cases hcall : x.call? who with
  | some c =>
    have hstill : x.step (.call who t) = x := by simp [step, hcall]
    rw [hstill]
    apply Change.still
    intro _ _ heq
    cases heq
    exact ⟨c, call?_eq_some hcall⟩
  | none =>
    have hfresh := call?_eq_none hcall
    have hstep : x.step (.call who t) = x.settle who t (x.lane.start t) := by simp [step, hcall]
    have hbegins := Loopback.begins_start hopen t
    rw [hstep]
    unfold Lane.start
    generalize x.lane.loopback.start t = begun at hbegins
    cases hbegins with
    | header g => exact .header g
    | hold o hswaps hempty => exact .hold o hswaps hempty
    | pass o hpasses => exact .begin hfresh o hpasses
    | flushNothing hempty => exact .flushNothing hempty
    | flush hfull => exact .flush hfresh hfull

theorem change_go (h : x.Sound) (who : ℕ) : Change x (.go who) (x.step (.go who)) := by
  cases hcall : x.call? who with
  | none =>
    have hstill : x.step (.go who) = x := by simp [step, hcall]
    rw [hstill]
    exact .still nofun
  | some c =>
    obtain ⟨hc, rfl⟩ := call?_eq_some hcall
    have hstep : x.step (.go c.who) = { x with calls := x.others c.who }.settle c.who c.task
        (x.lane.advance c.who c.delivery) := by simp [step, hcall]
    rw [hstep]
    rcases x.lane.advance_cases h.isOpen c.who c.delivery with ⟨hrest, hheld, ha⟩ |
      ⟨o, hrest, hheld, ha⟩ | ⟨hrest, -, ha⟩ | ⟨hrest, -, ⟨hfollows, ha⟩ | ⟨hlast, ha⟩⟩
    · rw [ha]
      exact .lookNothing hc hrest hheld
    · rw [ha]
      exact .look hc hrest hheld
    · rw [ha]
      exact .wait hc hrest
    · rw [ha]
      exact .put hc hrest hfollows
    · rw [ha]
      exact .deliver hc hrest hlast

theorem change_step (h : x.Sound) (m : Move) : Change x m (x.step m) := by
  cases m with
  | call who t => exact change_call h who t
  | go who => exact change_go h who
  | abandon who =>
    cases hcall : x.call? who with
    | none =>
      have hstill : x.step (.abandon who) = x := by simp [step, hcall]
      rw [hstill]
      exact .still nofun
    | some c =>
      obtain ⟨hc, rfl⟩ := call?_eq_some hcall
      by_cases hwaits : c.waits = true
      · simp only [step, hcall, if_pos hwaits]
        exact .abandon hc hwaits
      · simp only [step, hcall, if_neg hwaits]
        exact .still nofun
  | receive =>
    cases hqueue : x.channel.queue with
    | nil =>
      have hstill : x.step .receive = x := by simp [step, Channel.take?, hqueue]
      rw [hstill]
      exact .still nofun
    | cons o rest =>
      simp only [step, Channel.take?, hqueue]
      exact .receive hqueue

theorem mem_others {who : ℕ} {c : OpenCall} : c ∈ x.others who ↔ c ∈ x.calls ∧ c.who ≠ who := by
  simp [others]

/-- A call stands beside the others. -/
theorem Sound.perm_others (h : x.Sound) {c : OpenCall} (hc : c ∈ x.calls) :
    x.calls.Perm (c :: x.others c.who) := by
  obtain ⟨before, after, hcalls⟩ := List.append_of_mem hc
  have hdistinct := h.distinct
  rw [hcalls, List.map_append, List.map_cons, List.nodup_middle, List.nodup_cons,
    ← List.map_append] at hdistinct
  have hkept : (before ++ after).filter (·.who != c.who) = before ++ after := by
    apply List.filter_eq_self.mpr
    intro d hd
    apply bne_iff_ne.mpr
    intro heq
    exact hdistinct.1 (heq ▸ List.mem_map_of_mem hd)
  have hothers : x.others c.who = before ++ after := by
    rw [← hkept, others, hcalls, List.filter_append, List.filter_append,
      List.filter_cons_of_neg (by simp)]
  rw [hothers, hcalls]
  exact List.perm_middle

theorem sound_start (capacity : ℕ) (reorderProbability : Float) (chance : ℕ → Bool) :
    (start capacity reorderProbability chance).Sound where
  isOpen := rfl
  distinct := .nil
  resting _ h := nomatch h
  own := nofun
  plain _ := ⟨rfl, nofun⟩
  succeeded := nofun

namespace Sound

/-- Some calls are kept as they are, and at most one is new or has changed. -/
theorem of_calls (h : x.Sound) {y : Traffic} {kept : List OpenCall} (next? : Option OpenCall)
    (hcalls : y.calls = kept ++ next?.toList) (hkept : kept.Sublist x.calls)
    (hfresh : ∀ d ∈ next?, ∀ c ∈ kept, c.who ≠ d.who)
    (hown : ∀ d ∈ next?, d.delivery.heldFollows = true →
      d.task.received? = some d.delivery.object)
    (hfollows : ∀ d ∈ next?, x.lane.loopback.swaps = (fun _ => false) →
      d.delivery.heldFollows = true)
    (hresting : ∀ who, y.lane.resting who = true → ∃ c ∈ y.calls, c.who = who ∧
      c.delivery.heldFollows = true ∧ c.waits = false)
    (hopen : y.channel.isOpen = x.channel.isOpen)
    (hswaps : y.lane.loopback.swaps = x.lane.loopback.swaps)
    (hheld : x.lane.loopback.swaps = (fun _ => false) → x.held = none → y.held = none)
    (habandoned : ∀ a ∈ y.abandoned, a ∈ x.calls ++ x.abandoned)
    (hreturned : ∀ r ∈ y.returned, r ∈ x.returned ∨ r.2 = .ok ()) : y.Sound := by
  have hmem : ∀ a ∈ y.calls ++ y.abandoned, a ∈ x.calls ++ x.abandoned ∨ a ∈ next? := by
    intro a ha
    rw [hcalls] at ha
    rcases List.mem_append.mp ha with ha | ha
    · rcases List.mem_append.mp ha with ha | ha
      · exact Or.inl (List.mem_append_left _ (hkept.subset ha))
      · exact Or.inr (Option.mem_toList.mp ha)
    · exact Or.inl (habandoned a ha)
  constructor
  · exact hopen.trans h.isOpen
  · rw [hcalls, List.map_append]
    refine List.nodup_append.mpr ⟨(hkept.map OpenCall.who).nodup h.distinct, ?_, ?_⟩
    · cases next? <;> simp
    · intro who hwho other hother heq
      obtain ⟨c, hc, rfl⟩ := List.mem_map.mp hwho
      obtain ⟨d, hd, rfl⟩ := List.mem_map.mp hother
      exact hfresh d (Option.mem_toList.mp hd) c hc heq
  · exact hresting
  · intro a ha
    rcases hmem a ha with ha | ha
    · exact h.own a ha
    · exact hown a ha
  · intro hplain
    rw [hswaps] at hplain
    obtain ⟨hnone, hall⟩ := h.plain hplain
    refine ⟨hheld hplain hnone, fun a ha => ?_⟩
    rcases hmem a ha with ha | ha
    · exact hall a ha
    · exact hfollows a ha hplain
  · intro r hr
    rcases hreturned r hr with hr | hr
    · exact h.succeeded r hr
    · exact hr

/-- No call begins, goes on or ends. -/
theorem of_same_calls (h : x.Sound) {y : Traffic} (hcalls : y.calls = x.calls)
    (hresting : y.lane.resting = x.lane.resting) (hopen : y.channel.isOpen = x.channel.isOpen)
    (hswaps : y.lane.loopback.swaps = x.lane.loopback.swaps)
    (hheld : x.lane.loopback.swaps = (fun _ => false) → x.held = none → y.held = none)
    (habandoned : y.abandoned = x.abandoned)
    (hreturned : ∀ r ∈ y.returned, r ∈ x.returned ∨ r.2 = .ok ()) : y.Sound := by
  refine h.of_calls none ?_ (List.Sublist.refl x.calls) nofun nofun nofun ?_ hopen
    hswaps hheld ?_ hreturned
  · rw [hcalls, Option.toList_none, List.append_nil]
  · rw [hresting, hcalls]
    exact h.resting
  · rw [habandoned]
    exact fun a ha => List.mem_append_right _ ha

/-- One call changes or is over. -/
theorem replace (h : x.Sound) {c : OpenCall} (hc : c ∈ x.calls) {y : Traffic}
    (next? : Option OpenCall) (hcalls : y.calls = x.others c.who ++ next?.toList)
    (hnext : ∀ d ∈ next?, d.who = c.who ∧ d.task = c.task ∧
      (d.delivery = c.delivery ∨ d.delivery.heldFollows = false ∧ x.held ≠ none))
    (hothers : ∀ who, who ≠ c.who → y.lane.resting who = x.lane.resting who)
    (hself : y.lane.resting c.who = true → ∃ d ∈ next?, d.delivery.heldFollows = true ∧
      d.waits = false)
    (hopen : y.channel.isOpen = x.channel.isOpen)
    (hswaps : y.lane.loopback.swaps = x.lane.loopback.swaps)
    (hheld : y.held = x.held ∨ y.held = none)
    (habandoned : ∀ a ∈ y.abandoned, a ∈ x.abandoned ∨ a = c)
    (hreturned : ∀ r ∈ y.returned, r ∈ x.returned ∨ r.2 = .ok ()) : y.Sound := by
  have hmem : c ∈ x.calls ++ x.abandoned := List.mem_append_left _ hc
  refine h.of_calls next? hcalls List.filter_sublist ?_ ?_ ?_ ?_ hopen hswaps ?_ ?_ hreturned
  · intro d hd a ha
    rw [(hnext d hd).1]
    exact (mem_others.mp ha).2
  · intro d hd hfollows
    obtain ⟨-, htask, hsame | ⟨hlast, -⟩⟩ := hnext d hd
    · rw [hsame] at hfollows ⊢
      exact htask ▸ h.own c hmem hfollows
    · exact absurd (hlast.symm.trans hfollows) Bool.false_ne_true
  · intro d hd hplain
    obtain ⟨hnone, hall⟩ := h.plain hplain
    obtain ⟨-, -, hsame | ⟨-, hsome⟩⟩ := hnext d hd
    · exact hsame ▸ hall c hmem
    · exact absurd hnone hsome
  · intro who hwho
    rw [hcalls]
    by_cases heq : who = c.who
    · subst heq
      obtain ⟨d, hd, hlooks⟩ := hself hwho
      exact ⟨d, List.mem_append_right _ (Option.mem_toList.mpr hd), (hnext d hd).1, hlooks⟩
    · rw [hothers who heq] at hwho
      obtain ⟨d, hd, rfl, hlooks⟩ := h.resting who hwho
      exact ⟨d, List.mem_append_left _ (mem_others.mpr ⟨hd, heq⟩), rfl, hlooks⟩
  · intro _ hnone
    rcases hheld with hheld | hheld
    · exact hheld.trans hnone
    · exact hheld
  · intro a ha
    rcases habandoned a ha with ha | rfl
    · exact List.mem_append_right _ ha
    · exact hmem

/-- A call begins. -/
theorem enter (h : x.Sound) {d : OpenCall} (hfresh : ∀ c ∈ x.calls, c.who ≠ d.who) {y : Traffic}
    (hcalls : y.calls = x.calls ++ [d])
    (hown : d.delivery.heldFollows = true → d.task.received? = some d.delivery.object)
    (hfollows : d.delivery.heldFollows = true ∨ x.held ≠ none)
    (hresting : y.lane.resting = x.lane.resting) (hopen : y.channel.isOpen = x.channel.isOpen)
    (hswaps : y.lane.loopback.swaps = x.lane.loopback.swaps)
    (hheld : y.held = x.held ∨ y.held = none) (habandoned : y.abandoned = x.abandoned)
    (hreturned : y.returned = x.returned) : y.Sound := by
  refine h.of_calls (some d) hcalls (List.Sublist.refl x.calls) ?_ ?_ ?_ ?_ hopen
    hswaps ?_ ?_ ?_
  · rintro _ ⟨⟩
    exact hfresh
  · rintro _ ⟨⟩
    exact hown
  · rintro _ ⟨⟩ hplain
    exact hfollows.resolve_right fun hsome => hsome (h.plain hplain).1
  · intro who hwho
    rw [hresting] at hwho
    obtain ⟨c, hc, hlooks⟩ := h.resting who hwho
    rw [hcalls]
    exact ⟨c, List.mem_append_left _ hc, hlooks⟩
  · intro _ hnone
    exact hheld.elim (fun heq => heq.trans hnone) id
  · rw [habandoned]
    exact fun a ha => List.mem_append_right _ ha
  · rw [hreturned]
    exact fun r hr => Or.inl hr

theorem looks (h : x.Sound) {c : OpenCall} (hc : c ∈ x.calls)
    (hrest : x.lane.resting c.who = true) : c.delivery.heldFollows = true ∧ c.waits = false := by
  obtain ⟨d, hd, hwho, hlooks⟩ := h.resting c.who hrest
  have hsame : d = c := List.inj_on_of_nodup_map h.distinct hd hc hwho
  exact hsame ▸ hlooks

/-- A call that waits has yet to put its object on the channel. -/
theorem waits_not_resting (h : x.Sound) {c : OpenCall} (hc : c ∈ x.calls)
    (hwaits : c.waits = true) : x.lane.resting c.who = false := by
  rw [← Bool.not_eq_true]
  intro hrest
  exact absurd ((h.looks hc hrest).2.symm.trans hwaits) Bool.false_ne_true

/-- A call with the object of another has no more to look for. -/
theorem carrier_not_resting (h : x.Sound) {c : OpenCall} (hc : c ∈ x.calls)
    (hlast : c.delivery.heldFollows = false) : x.lane.resting c.who = false := by
  rw [← Bool.not_eq_true]
  intro hrest
  exact absurd (hlast.symm.trans (h.looks hc hrest).1) Bool.false_ne_true

theorem not_resting (h : x.Sound) {who : ℕ} (hfresh : ∀ c ∈ x.calls, c.who ≠ who) :
    x.lane.resting who = false := by
  rw [← Bool.not_eq_true]
  intro hrest
  obtain ⟨c, hc, hwho, -⟩ := h.resting who hrest
  exact hfresh c hc hwho

theorem update_of_ne (r : ℕ → Bool) (who : ℕ) (b : Bool) :
    ∀ other, other ≠ who → Function.update r who b other = r other :=
  fun _ hne => Function.update_of_ne hne b r

/-- A call that is over says so. -/
theorem mem_answered {returned : List (Transmission × Except LinkFault Unit)} {t : Transmission}
    {r : Transmission × Except LinkFault Unit} (h : r ∈ returned ++ [(t, .ok ())]) :
    r ∈ returned ∨ r.2 = .ok () := by
  rcases List.mem_append.mp h with h | h
  · exact Or.inl h
  · exact Or.inr (by rw [List.mem_singleton.mp h])

theorem change (h : x.Sound) {m : Move} {y : Traffic} (hchange : Change x m y) : y.Sound := by
  cases hchange with
  | still _ => exact h
  | header g =>
    exact h.of_same_calls rfl rfl rfl rfl (fun _ => id) rfl fun _ => mem_answered
  | hold o hswaps _ =>
    refine h.of_same_calls rfl rfl rfl rfl (fun hplain => ?_) rfl fun _ => mem_answered
    exact absurd ((congrFun hplain _).symm.trans hswaps) Bool.false_ne_true
  | begin fresh o _ =>
    exact h.enter fresh rfl (fun _ => rfl) (Or.inl rfl) rfl rfl rfl (Or.inl rfl) rfl rfl
  | flushNothing _ =>
    exact h.of_same_calls rfl rfl rfl rfl (fun _ => id) rfl fun _ => mem_answered
  | flush fresh full =>
    refine h.enter fresh rfl nofun (Or.inr ?_) rfl rfl rfl (Or.inr rfl) rfl rfl
    rw [full]
    exact Option.some_ne_none _
  | @lookNothing c hc _ _ =>
    refine h.replace hc none ?_ nofun (update_of_ne _ _ _) ?_ rfl rfl (Or.inl rfl)
      (fun _ => Or.inl) fun _ => mem_answered
    · rw [Option.toList_none, List.append_nil]
    · intro hself
      simp at hself
  | @look c hc _ _ full =>
    refine h.replace hc (some _) rfl ?_ (update_of_ne _ _ _) ?_ rfl rfl (Or.inr rfl)
      (fun _ => Or.inl) fun _ => Or.inl
    · rintro d ⟨⟩
      refine ⟨rfl, rfl, Or.inr ⟨rfl, ?_⟩⟩
      rw [full]
      exact Option.some_ne_none _
    · intro hself
      simp at hself
  | @wait c hc hrest =>
    refine h.replace hc (some _) rfl ?_ (fun _ _ => rfl) ?_ rfl rfl (Or.inl rfl)
      (fun _ => Or.inl) fun _ => Or.inl
    · rintro d ⟨⟩
      exact ⟨rfl, rfl, Or.inl rfl⟩
    · intro hself
      exact absurd (hrest.symm.trans hself) Bool.false_ne_true
  | @put c hc _ hfollows =>
    refine h.replace hc (some _) rfl ?_ (update_of_ne _ _ _) ?_ rfl rfl (Or.inl rfl)
      (fun _ => Or.inl) fun _ => Or.inl
    · rintro d ⟨⟩
      exact ⟨rfl, rfl, Or.inl rfl⟩
    · exact fun _ => ⟨_, rfl, hfollows, rfl⟩
  | @deliver c hc hrest _ =>
    refine h.replace hc none ?_ nofun (fun _ _ => rfl) ?_ rfl rfl (Or.inl rfl)
      (fun _ => Or.inl) fun _ => mem_answered
    · rw [Option.toList_none, List.append_nil]
    · intro hself
      exact absurd (hrest.symm.trans hself) Bool.false_ne_true
  | @abandon c hc hwaits =>
    refine h.replace hc none ?_ nofun (fun _ _ => rfl) ?_ rfl rfl (Or.inl rfl) ?_
      fun _ => Or.inl
    · rw [Option.toList_none, List.append_nil]
    · intro hself
      exact absurd ((h.looks hc hself).2.symm.trans hwaits) Bool.false_ne_true
    · intro a ha
      exact (List.mem_append.mp ha).imp_right List.mem_singleton.mp
  | receive _ => exact h.of_same_calls rfl rfl rfl rfl (fun _ => id) rfl fun _ => Or.inl

theorem step (h : x.Sound) (m : Move) : (x.step m).Sound := h.change (change_step h m)

theorem run (h : x.Sound) (moves : List Move) : (x.run moves).Sound := by
  induction moves generalizing x with
  | nil => exact h
  | cons m rest ih => exact ih (h.step m)

end Sound

end Traffic

end LiveMedia
