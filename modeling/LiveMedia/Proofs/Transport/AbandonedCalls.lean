import LiveMedia.Proofs.Transport.Traffic

/-!
# Abandoned calls

A call that delivers the object held back carries it from the moment at which it takes it until it
finds a place for it on the channel. If the call is abandoned in between, the object is gone,
although the call that sent it has long succeeded. The accounts of the traffic say that nothing else
is lost, and that nothing comes out twice.
-/

namespace LiveMedia
set_option autoImplicit false

namespace OpenCall

/-- The object of another call, which has been held back. -/
def carried? (c : OpenCall) : Option Received :=
  if c.delivery.heldFollows then none else some c.delivery.object

/-- The object of the call itself once it has come out. -/
def early? (resting : ℕ → Bool) (c : OpenCall) : Option Received :=
  if c.delivery.heldFollows && !resting c.who then none else c.task.received?

end OpenCall

namespace Traffic

/-- The object of a call that has succeeded. -/
def accepted? : Transmission × Except LinkFault Unit → Option Received
  | (t, .ok ()) => t.received?
  | _ => none

section Accounts

variable (x : Traffic)

/-- Objects whose own call has succeeded. -/
def accepted : List Received := x.returned.filterMap accepted?

/-- Objects in the hands of calls in progress. -/
def carried : List Received := x.calls.filterMap OpenCall.carried?

/-- Objects that were in the hands of calls when these were abandoned. -/
def lost : List Received := x.abandoned.filterMap OpenCall.carried?

/-- Objects that had come out when their own call was abandoned. -/
def orphaned : List Received := x.abandoned.filterMap (OpenCall.early? fun _ => false)

/-- Objects that have come out although their own call has not succeeded. -/
def early : List Received := x.calls.filterMap (OpenCall.early? x.lane.resting) ++ x.orphaned

/-- Objects whose own call is in progress or has been abandoned, wherever they are. -/
def unanswered : List Received :=
  (x.calls ++ x.abandoned).filterMap fun c => c.task.received?

end Accounts

/-- The object that a move hands over. -/
def Move.object? : Move → Option Received
  | .call _ t => t.received?
  | _ => none

variable {x : Traffic}

theorem filterMap_toList {α : Type} (a? : Option α) (f : α → Option Received) :
    a?.toList.filterMap f = (a?.bind f).toList := by
  cases a? with
  | none => rfl
  | some a => cases ha : f a <;> simp [ha]

theorem accepted_answered (t? : Option Transmission) :
    (t?.toList.map fun t => (t, Except.ok ())).filterMap accepted? =
      (t?.bind Transmission.received?).toList := by
  rw [List.filterMap_map]
  exact filterMap_toList t? Transmission.received?

theorem count_early?_le (cs : List OpenCall) (resting : ℕ → Bool) (o : Received) :
    (cs.filterMap (OpenCall.early? resting)).count o ≤
      (cs.filterMap fun c => c.task.received?).count o := by
  induction cs with
  | nil => exact Nat.le_refl 0
  | cons c rest ih =>
    rw [List.filterMap_cons, List.filterMap_cons]
    unfold OpenCall.early? at ih ⊢
    split_ifs <;> cases c.task.received? <;> grind

/-- Whether one call rests is nothing to the others. -/
theorem early_others (x : Traffic) (who : ℕ) (b : Bool) :
    (x.others who).filterMap (OpenCall.early? (Function.update x.lane.resting who b)) =
      (x.others who).filterMap (OpenCall.early? x.lane.resting) := by
  apply List.filterMap_congr
  intro d hd
  unfold OpenCall.early?
  rw [Function.update_of_ne (mem_others.mp hd).2]

/-- What a move adds to the accounts of the traffic and takes from them. -/
structure Exchange where
  /-- The call that gives way. -/
  prior? : Option OpenCall := none
  /-- What becomes of that call, or a new one. -/
  next? : Option OpenCall := none
  dropped? : Option OpenCall := none
  /-- What is put on the channel. -/
  put? : Option Received := none
  answered? : Option Transmission := none
  /-- What the move hands over. -/
  new? : Option Received := none

/-- Each object that was handed over is in one place, and none was handed over more often than it
was offered. -/
structure Balanced (offered : List Received) (x : Traffic) : Prop where
  places : ∀ o, x.seen.count o + x.held.toList.count o + x.carried.count o + x.lost.count o =
    x.accepted.count o + x.early.count o
  offers : ∀ o, x.accepted.count o + x.unanswered.count o ≤ offered.count o

namespace Balanced

variable {offered : List Received}

/-- The accounts still balance if all that changes is exchanged and this exchange balances. -/
theorem exchange (h : Balanced offered x) {y : Traffic} {rest : List OpenCall} (e : Exchange)
    (held? : Option Received) (hbefore : x.calls.Perm (e.prior?.toList ++ rest))
    (hcalls : y.calls = rest ++ e.next?.toList)
    (hrest : rest.filterMap (OpenCall.early? y.lane.resting) =
      rest.filterMap (OpenCall.early? x.lane.resting))
    (hseen : y.seen = x.seen ++ e.put?.toList) (hheld : y.held = held?)
    (hreturned : y.returned = x.returned ++ e.answered?.toList.map fun t => (t, .ok ()))
    (habandoned : y.abandoned = x.abandoned ++ e.dropped?.toList)
    (hmoved : ∀ o, e.put?.toList.count o + held?.toList.count o +
        (e.next?.bind OpenCall.carried?).toList.count o +
        (e.dropped?.bind OpenCall.carried?).toList.count o +
        (e.prior?.bind (OpenCall.early? x.lane.resting)).toList.count o =
      (e.answered?.bind Transmission.received?).toList.count o +
        (e.next?.bind (OpenCall.early? y.lane.resting)).toList.count o +
        (e.dropped?.bind (OpenCall.early? fun _ => false)).toList.count o +
        x.held.toList.count o + (e.prior?.bind OpenCall.carried?).toList.count o)
    (htold : ∀ o, (e.answered?.bind Transmission.received?).toList.count o +
        (e.next?.bind (·.task.received?)).toList.count o +
        (e.dropped?.bind (·.task.received?)).toList.count o =
      (e.prior?.bind (·.task.received?)).toList.count o + e.new?.toList.count o) :
    Balanced (offered ++ e.new?.toList) y := by
  have hx : ∀ (f : OpenCall → Option Received) o, (x.calls.filterMap f).count o =
      (e.prior?.bind f).toList.count o + (rest.filterMap f).count o := by
    intro f o
    rw [(hbefore.filterMap f).count_eq o, List.filterMap_append, filterMap_toList,
      List.count_append]
  have hy : ∀ (f : OpenCall → Option Received) o, (y.calls.filterMap f).count o =
      (rest.filterMap f).count o + (e.next?.bind f).toList.count o := by
    intro f o
    rw [hcalls, List.filterMap_append, filterMap_toList, List.count_append]
  have hdropped : ∀ (f : OpenCall → Option Received) o, (y.abandoned.filterMap f).count o =
      (x.abandoned.filterMap f).count o + (e.dropped?.bind f).toList.count o := by
    intro f o
    rw [habandoned, List.filterMap_append, filterMap_toList, List.count_append]
  have haccepted : ∀ o, y.accepted.count o =
      x.accepted.count o + (e.answered?.bind Transmission.received?).toList.count o := by
    intro o
    rw [accepted, hreturned, List.filterMap_append, accepted_answered, List.count_append, accepted]
  constructor
  · intro o
    have hplaces := h.places o
    have hmove := hmoved o
    unfold carried lost early orphaned at hplaces ⊢
    rw [List.count_append, hx, hx] at hplaces
    rw [hseen, hheld, haccepted, List.count_append, List.count_append, hy, hy, hdropped, hdropped,
      hrest]
    omega
  · intro o
    have hbound := h.offers o
    have htell := htold o
    unfold unanswered at hbound ⊢
    rw [List.filterMap_append, List.count_append, hx] at hbound
    rw [List.filterMap_append, List.count_append, List.count_append, hy, hdropped, haccepted]
    omega

/-- A call returns at once, and the object that it has handed over is held back. -/
theorem answer (h : Balanced offered x) {y : Traffic} (t : Transmission)
    (hcalls : y.calls = x.calls) (hlane : y.lane.resting = x.lane.resting)
    (hseen : y.seen = x.seen) (hreturned : y.returned = x.returned ++ [(t, .ok ())])
    (habandoned : y.abandoned = x.abandoned)
    (hheld : ∀ o, y.held.toList.count o = t.received?.toList.count o + x.held.toList.count o) :
    Balanced (offered ++ t.received?.toList) y := by
  refine h.exchange { answered? := some t, new? := t.received? } y.held (.refl _)
    (hcalls.trans (List.append_nil _).symm) (hlane ▸ rfl) (hseen.trans (List.append_nil _).symm) rfl
    hreturned (habandoned.trans (List.append_nil _).symm) ?_ ?_
  · simpa using hheld
  · simp

theorem change (h : Balanced offered x) (hx : x.Sound) {m : Move} {y : Traffic}
    (hchange : Change x m y) : Balanced (offered ++ m.object?.toList) y := by
  have hsame : x.seen = x.seen ++ [] := (List.append_nil _).symm
  have hsilent : x.returned = x.returned ++ [] := (List.append_nil _).symm
  have hkept : x.abandoned = x.abandoned ++ [] := (List.append_nil _).symm
  cases hchange with
  | still _ =>
    refine ⟨h.places, fun o => Nat.le_trans (h.offers o) ?_⟩
    rw [List.count_append]
    exact Nat.le_add_right _ _
  | header g => exact h.answer (.header g) rfl rfl rfl rfl rfl fun _ => (Nat.zero_add _).symm
  | hold o _ empty =>
    refine h.answer (.object o) rfl rfl rfl rfl rfl fun _ => ?_
    rw [empty]
    rfl
  | @begin who fresh o passes =>
    have hrest := hx.not_resting fresh
    refine h.exchange
      { next? := some ⟨who, .object o, ⟨o.received, true⟩, false⟩, new? := some o.received }
      x.held (.refl _) rfl rfl hsame rfl hsilent hkept ?_ ?_
    · simp [OpenCall.carried?, OpenCall.early?, hrest]
    · simp [Transmission.received?]
  | flushNothing empty => exact h.answer .flush rfl rfl rfl rfl rfl fun _ => (Nat.zero_add _).symm
  | @flush who fresh o full =>
    refine h.exchange { next? := some ⟨who, .flush, ⟨o, false⟩, false⟩ } none (.refl _) rfl rfl
      hsame rfl hsilent hkept ?_ ?_
    · simp [OpenCall.carried?, OpenCall.early?, Transmission.received?, full]
    · simp [Transmission.received?]
  | @lookNothing c hc hrest empty =>
    obtain ⟨hfollows, -⟩ := hx.looks hc hrest
    refine h.exchange { prior? := some c, answered? := some c.task } x.held (hx.perm_others hc)
      (List.append_nil _).symm (early_others x c.who false) hsame rfl rfl hkept ?_ ?_
    · simp [OpenCall.carried?, OpenCall.early?, hfollows, hrest]
      omega
    · simp
  | @look c hc hrest o full =>
    obtain ⟨hfollows, -⟩ := hx.looks hc hrest
    refine h.exchange
      { prior? := some c, next? := some { c with delivery := ⟨o, false⟩, waits := false } }
      none (hx.perm_others hc) rfl (early_others x c.who false) hsame rfl hsilent hkept ?_ ?_
    · simp [OpenCall.carried?, OpenCall.early?, hfollows, hrest, full]
      omega
    · simp
  | @wait c hc hrest =>
    refine h.exchange { prior? := some c, next? := some { c with waits := true } } x.held
      (hx.perm_others hc) rfl rfl hsame rfl hsilent hkept ?_ ?_
    · simp [OpenCall.carried?, OpenCall.early?, Lane.mapChannel]
      omega
    · simp
  | @put c hc hrest hfollows =>
    have hown := hx.own c (List.mem_append_left _ hc) hfollows
    refine h.exchange
      { prior? := some c, next? := some { c with waits := false }
        put? := some c.delivery.object }
      x.held (hx.perm_others hc) rfl (early_others x c.who true) (List.append_assoc ..).symm rfl
      hsilent hkept ?_ ?_
    · simp [OpenCall.carried?, OpenCall.early?, hfollows, hrest, hown]
    · simp
  | @deliver c hc hrest hlast =>
    refine h.exchange
      { prior? := some c, put? := some c.delivery.object, answered? := some c.task }
      x.held (hx.perm_others hc) (List.append_nil _).symm rfl (List.append_assoc ..).symm rfl rfl
      hkept ?_ ?_
    · simp [OpenCall.carried?, OpenCall.early?, hlast]
      omega
    · simp
  | @abandon c hc hwaits =>
    have hrest := hx.waits_not_resting hc hwaits
    refine h.exchange { prior? := some c, dropped? := some c } x.held (hx.perm_others hc)
      (List.append_nil _).symm rfl hsame rfl hsilent rfl ?_ ?_
    · simp [OpenCall.carried?, OpenCall.early?, hrest]
      omega
    · simp
  | @receive o rest hqueue =>
    refine h.exchange {} x.held (.refl _) (List.append_nil _).symm rfl ?_ rfl hsilent hkept ?_ ?_
    · change x.taken ++ [o] ++ rest = x.seen ++ []
      simp [seen, hqueue]
    · simp
    · simp

theorem run (h : Balanced offered x) (hx : x.Sound) (moves : List Move) :
    Balanced (offered ++ moves.filterMap Move.object?) (x.run moves) := by
  induction moves generalizing x offered with
  | nil =>
    rw [List.filterMap_nil, List.append_nil]
    exact h
  | cons m rest ih =>
    have hall := ih (h.change hx (change_step hx m)) (hx.step m)
    have hobjects : m.object?.toList ++ rest.filterMap Move.object? =
        (m :: rest).filterMap Move.object? := by
      rw [List.filterMap_cons]
      cases m.object? <;> rfl
    rw [List.append_assoc, hobjects] at hall
    exact hall

end Balanced

theorem balanced_start (capacity : ℕ) (reorderProbability : Float) (chance : ℕ → Bool) :
    Balanced [] (start capacity reorderProbability chance) :=
  ⟨fun _ => rfl, fun _ => Nat.le_refl 0⟩

theorem Balanced.perm {offered : List Received} (h : Balanced offered x) :
    (x.seen ++ x.held.toList ++ x.carried ++ x.lost).Perm (x.accepted ++ x.early) := by
  apply List.perm_iff_count.mpr
  intro o
  simpa only [List.count_append] using h.places o

/-- Objects that are told apart are in one place only. -/
theorem Balanced.count_eq_one {offered : List Received} (h : Balanced offered x)
    (hdistinct : offered.Nodup) {o : Received} (ho : o ∈ x.accepted) :
    (x.seen ++ x.held.toList ++ x.carried ++ x.lost).count o = 1 := by
  have hsome : 0 < x.accepted.count o := List.count_pos_iff.mpr ho
  have hbound := Nat.le_trans (h.offers o) (List.nodup_iff_count_le_one.mp hdistinct o)
  have hcalls := count_early?_le x.calls x.lane.resting o
  have horphaned := count_early?_le x.abandoned (fun _ => false) o
  rw [h.perm.count_eq, List.count_append, early, List.count_append, orphaned]
  rw [unanswered, List.filterMap_append, List.count_append] at hbound
  omega

theorem Change.seen_subset {m : Move} {y : Traffic} (h : Change x m y) : x.seen ⊆ y.seen := by
  intro o ho
  cases h with
  | put _ _ _ =>
    change o ∈ x.taken ++ (x.channel.queue ++ [_])
    rw [← List.append_assoc]
    exact List.mem_append_left _ ho
  | deliver _ _ _ =>
    change o ∈ x.taken ++ (x.channel.queue ++ [_])
    rw [← List.append_assoc]
    exact List.mem_append_left _ ho
  | @receive first rest hqueue =>
    change o ∈ x.taken ++ [first] ++ rest
    rw [List.append_assoc, List.singleton_append, ← hqueue]
    exact ho
  | _ => exact ho

/-- An object has come out, or this call still carries it. -/
def Pledged (x : Traffic) (who : ℕ) (o : Received) : Prop :=
  o ∈ x.seen ∨ ∃ c ∈ x.calls, c.who = who ∧ c.delivery = ⟨o, false⟩

namespace Pledged

variable {who : ℕ} {o : Received}

/-- Only the call itself can be rid of the object that it carries. -/
theorem change (h : x.Pledged who o) (hx : x.Sound) {m : Move} (hm : m ≠ .abandon who) {y : Traffic}
    (hchange : Change x m y) : y.Pledged who o := by
  rcases h with h | ⟨d, hd, rfl, hdelivery⟩
  · exact Or.inl (hchange.seen_subset h)
  · have hrest := hx.carrier_not_resting hd (by rw [hdelivery])
    have hsame : ∀ c ∈ x.calls, c.who = d.who → c = d :=
      fun c hc hwho => List.inj_on_of_nodup_map hx.distinct hc hd hwho
    have hbeside : ∀ c : OpenCall, c.who ≠ d.who → d ∈ x.others c.who :=
      fun c hne => mem_others.mpr ⟨hd, hne.symm⟩
    cases hchange with
    | still _ => exact Or.inr ⟨d, hd, rfl, hdelivery⟩
    | header _ => exact Or.inr ⟨d, hd, rfl, hdelivery⟩
    | hold _ _ _ => exact Or.inr ⟨d, hd, rfl, hdelivery⟩
    | begin _ _ _ => exact Or.inr ⟨d, List.mem_append_left _ hd, rfl, hdelivery⟩
    | flushNothing _ => exact Or.inr ⟨d, hd, rfl, hdelivery⟩
    | flush _ _ => exact Or.inr ⟨d, List.mem_append_left _ hd, rfl, hdelivery⟩
    | @lookNothing c _ hresting _ =>
      have hne : c.who ≠ d.who := by
        intro heq
        rw [heq, hrest] at hresting
        cases hresting
      exact Or.inr ⟨d, hbeside c hne, rfl, hdelivery⟩
    | @look c _ hresting _ _ =>
      have hne : c.who ≠ d.who := by
        intro heq
        rw [heq, hrest] at hresting
        cases hresting
      exact Or.inr ⟨d, List.mem_append_left _ (hbeside c hne), rfl, hdelivery⟩
    | @wait c hc _ =>
      by_cases heq : c.who = d.who
      · cases hsame c hc heq
        exact Or.inr ⟨_, List.mem_append_right _ (List.mem_singleton_self _), rfl, hdelivery⟩
      · exact Or.inr ⟨d, List.mem_append_left _ (hbeside c heq), rfl, hdelivery⟩
    | @put c hc _ hfollows =>
      have hne : c.who ≠ d.who := by
        intro heq
        rw [hsame c hc heq, hdelivery] at hfollows
        cases hfollows
      exact Or.inr ⟨d, List.mem_append_left _ (hbeside c hne), rfl, hdelivery⟩
    | @deliver c hc _ _ =>
      by_cases heq : c.who = d.who
      · cases hsame c hc heq
        left
        change o ∈ x.taken ++ (x.channel.queue ++ [d.delivery.object])
        rw [hdelivery]
        simp
      · exact Or.inr ⟨d, hbeside c heq, rfl, hdelivery⟩
    | @abandon c _ _ =>
      have hne : c.who ≠ d.who := fun heq => hm (congrArg Move.abandon heq)
      exact Or.inr ⟨d, hbeside c hne, rfl, hdelivery⟩
    | receive _ => exact Or.inr ⟨d, hd, rfl, hdelivery⟩

theorem run (h : x.Pledged who o) (hx : x.Sound) {moves : List Move}
    (hmoves : .abandon who ∉ moves) : (x.run moves).Pledged who o := by
  induction moves generalizing x with
  | nil => exact h
  | cons m rest ih =>
    have hm : m ≠ .abandon who := fun heq => hmoves (heq ▸ List.mem_cons_self)
    exact ih (h.change hx hm (change_step hx m)) (hx.step m)
      fun hrest => hmoves (List.mem_cons_of_mem m hrest)

end Pledged

/-- A flush takes the object that is held back. -/
theorem pledged_flush {who : ℕ} (hfresh : ∀ c ∈ x.calls, c.who ≠ who) {o : Received}
    (hheld : x.held = some o) : (x.step (.call who .flush)).Pledged who o := by
  have hcall : x.call? who = none := by
    apply List.find?_eq_none.mpr
    intro c hc
    rw [beq_iff_eq]
    exact hfresh c hc
  have hlane : x.lane.loopback.held = some o := hheld
  have hstart : x.step (.call who .flush) = { x with
      lane.loopback.held := none
      calls := x.calls ++ [⟨who, .flush, ⟨o, false⟩, false⟩] } := by
    simp [step, hcall, Lane.start, Loopback.start, Loopback.releaseHeld, hlane, settle]
  rw [hstart]
  exact Or.inr ⟨_, List.mem_append_right _ (List.mem_singleton_self _), rfl, rfl⟩

/-! ### Progress -/

/-- Those who stand in line are calls that wait, each of them once. -/
structure Lined (x : Traffic) : Prop where
  roomy : 0 < x.channel.capacity
  once : x.channel.line.Nodup
  waiting : ∀ who ∈ x.channel.line, ∃ c ∈ x.calls, c.who = who ∧ c.waits = true

namespace Lined

theorem start (capacity : ℕ) (reorderProbability : Float) (chance : ℕ → Bool) :
    (start capacity reorderProbability chance).Lined where
  roomy := Nat.lt_of_lt_of_le Nat.zero_lt_one (Nat.le_max_right capacity 1)
  once := .nil
  waiting := nofun

/-- Nobody joins the line, and those who remain in it wait as before. -/
theorem keep (h : x.Lined) {y : Traffic} (hcapacity : y.channel.capacity = x.channel.capacity)
    (hline : y.channel.line.Sublist x.channel.line)
    (hcalls : ∀ c ∈ x.calls, c.waits = true → c.who ∈ y.channel.line → c ∈ y.calls) :
    y.Lined where
  roomy := hcapacity ▸ h.roomy
  once := hline.nodup h.once
  waiting who hwho := by
    obtain ⟨c, hc, rfl, hwaits⟩ := h.waiting who (hline.subset hwho)
    exact ⟨c, hcalls c hc hwaits hwho, rfl, hwaits⟩

theorem change (h : x.Lined) (hx : x.Sound) {m : Move} {y : Traffic} (hchange : Change x m y) :
    y.Lined := by
  have hlooks : ∀ {c : OpenCall}, x.lane.resting c.who = true → ∀ d ∈ x.calls, d.waits = true →
      d ∈ x.others c.who := by
    intro c hrest d hd hwaits
    refine mem_others.mpr ⟨hd, fun heq => ?_⟩
    have hstill := hx.waits_not_resting hd hwaits
    rw [heq, hrest] at hstill
    cases hstill
  have hleaves : ∀ {c : OpenCall}, ∀ d ∈ x.calls, d.who ∈ x.channel.line.erase c.who →
      d ∈ x.others c.who :=
    fun d hd hwho => mem_others.mpr ⟨hd, (h.once.mem_erase_iff.mp hwho).1⟩
  cases hchange with
  | still _ => exact h
  | header _ => exact h.keep rfl (.refl _) fun _ hc _ _ => hc
  | hold _ _ _ => exact h.keep rfl (.refl _) fun _ hc _ _ => hc
  | begin _ _ _ => exact h.keep rfl (.refl _) fun _ hc _ _ => List.mem_append_left _ hc
  | flushNothing _ => exact h.keep rfl (.refl _) fun _ hc _ _ => hc
  | flush _ _ => exact h.keep rfl (.refl _) fun _ hc _ _ => List.mem_append_left _ hc
  | lookNothing _ hrest _ =>
    exact h.keep rfl (.refl _) fun d hd hwaits _ => hlooks hrest d hd hwaits
  | look _ hrest _ =>
    refine h.keep rfl (.refl _) fun d hd hwaits _ => ?_
    exact List.mem_append_left _ (hlooks hrest d hd hwaits)
  | @wait c hc _ =>
    have hline : ∀ who ∈ (x.channel.standIn c.who).line, who ∈ x.channel.line ∨ who = c.who := by
      intro who hwho
      unfold Channel.standIn at hwho
      split_ifs at hwho
      · exact Or.inl hwho
      · exact (List.mem_append.mp hwho).imp_right List.mem_singleton.mp
    refine ⟨h.roomy, ?_, fun who hwho => ?_⟩
    · change (x.channel.standIn c.who).line.Nodup
      unfold Channel.standIn
      split_ifs with hstands
      · exact h.once
      · have hfree : c.who ∉ x.channel.line := by simpa using hstands
        exact List.nodup_append.mpr ⟨h.once, List.nodup_singleton _, by grind⟩
    · by_cases heq : who = c.who
      · exact ⟨_, List.mem_append_right _ (List.mem_singleton_self _), heq.symm, rfl⟩
      · obtain ⟨d, hd, rfl, hwaits⟩ := h.waiting who ((hline who hwho).resolve_right heq)
        exact ⟨d, List.mem_append_left _ (mem_others.mpr ⟨hd, heq⟩), rfl, hwaits⟩
  | put _ _ _ =>
    refine h.keep rfl List.erase_sublist fun d hd _ hwho => ?_
    exact List.mem_append_left _ (hleaves d hd hwho)
  | deliver _ _ _ => exact h.keep rfl List.erase_sublist fun d hd _ hwho => hleaves d hd hwho
  | abandon _ _ => exact h.keep rfl List.erase_sublist fun d hd _ hwho => hleaves d hd hwho
  | receive _ => exact h.keep rfl (.refl _) fun _ hc _ _ => hc

theorem run (h : x.Lined) (hx : x.Sound) (moves : List Move) : (x.run moves).Lined := by
  induction moves generalizing x with
  | nil => exact h
  | cons m rest ih => exact ih (h.change hx (change_step hx m)) (hx.step m)

end Lined

/-- No call begins and none is abandoned. -/
def Move.isOnward : Move → Bool
  | .go _ => true
  | .receive => true
  | _ => false

theorem run_append (x : Traffic) (moves more : List Move) :
    x.run (moves ++ more) = (x.run moves).run more := List.foldl_append

theorem Sound.call?_eq (h : x.Sound) {c : OpenCall} (hc : c ∈ x.calls) :
    x.call? c.who = some c := by
  cases hcall : x.call? c.who with
  | none => exact absurd rfl (call?_eq_none hcall c hc)
  | some d =>
    obtain ⟨hd, hwho⟩ := call?_eq_some hcall
    rw [List.inj_on_of_nodup_map h.distinct hd hc hwho]

/-- A call that finds a place puts its object there. -/
theorem Sound.channel_go (h : x.Sound) {c : OpenCall} (hc : c ∈ x.calls)
    (hrest : x.lane.resting c.who = false) (hroom : x.channel.ahead c.who < x.channel.free) :
    (x.step (.go c.who)).channel = x.channel.put c.who c.delivery.object := by
  have hstep : x.step (.go c.who) = { x with calls := x.others c.who }.settle c.who c.task
      (x.lane.advance c.who c.delivery) := by simp [Traffic.step, h.call?_eq hc]
  rw [hstep]
  rcases x.lane.advance_cases h.isOpen c.who c.delivery with ⟨hlooks, -, -⟩ | ⟨-, hlooks, -, -⟩ |
    ⟨-, hfull, -⟩ | ⟨-, -, ⟨-, ha⟩ | ⟨-, ha⟩⟩
  · exact absurd (hrest.symm.trans hlooks) Bool.false_ne_true
  · exact absurd (hrest.symm.trans hlooks) Bool.false_ne_true
  · exact absurd hroom (Nat.not_lt.mpr hfull)
  · rw [ha]
    rfl
  · rw [ha]
    rfl

/-- The first in line finds a place and leaves. -/
theorem Lined.line_next (h : x.Lined) (hx : x.Sound) {first : ℕ} {rest : List ℕ}
    (hline : x.channel.line = first :: rest) (hroom : 0 < x.channel.free) :
    (x.step (.go first)).channel.line = rest := by
  obtain ⟨c, hc, rfl, hwaits⟩ := h.waiting first (by rw [hline]; exact List.mem_cons_self)
  have hahead : x.channel.ahead c.who = 0 := by
    rw [Channel.ahead, hline, List.takeWhile_cons_of_neg (by simp)]
    rfl
  rw [hx.channel_go hc (hx.waits_not_resting hc hwaits) (hahead ▸ hroom)]
  change x.channel.line.erase c.who = rest
  rw [hline, List.erase_cons_head]

/-- The receiver can take all that has come out. -/
theorem receive_all (x : Traffic) : ∃ more : List Move, more.all Move.isOnward = true ∧
    (∀ who, Move.abandon who ∉ more) ∧ (x.run more).channel = { x.channel with queue := [] } := by
  induction hqueue : x.channel.queue generalizing x with
  | nil =>
    refine ⟨[], rfl, fun _ => List.not_mem_nil, ?_⟩
    rw [← hqueue]
    rfl
  | cons o rest ih =>
    have htaken : (x.step .receive).channel = { x.channel with queue := rest } := by
      simp only [step, Channel.take?, hqueue]
      rfl
    obtain ⟨more, honward, hkept, hall⟩ := ih (x.step .receive) (by rw [htaken])
    refine ⟨.receive :: more, honward, fun who => ?_, ?_⟩
    · simpa using hkept who
    · rw [htaken] at hall
      exact hall

namespace Pledged

variable {who : ℕ} {o : Received}

/-- The call is the next to find a place. -/
theorem comes_out_next (h : x.Pledged who o) (hx : x.Sound)
    (hroom : x.channel.ahead who < x.channel.free) : o ∈ (x.step (.go who)).seen := by
  rcases h with h | ⟨c, hc, rfl, hdelivery⟩
  · exact (change_step hx (.go who)).seen_subset h
  · have hrest := hx.carrier_not_resting hc (by rw [hdelivery])
    rw [seen, hx.channel_go hc hrest hroom, hdelivery]
    simp [Channel.put]

/-- Nobody is before the call. -/
theorem comes_out_first (h : x.Pledged who o) (hx : x.Sound) (hlined : x.Lined)
    (hfirst : x.channel.ahead who = 0) :
    ∃ more : List Move, more.all Move.isOnward = true ∧ o ∈ (x.run more).seen := by
  obtain ⟨more, honward, hkept, hchannel⟩ := x.receive_all
  refine ⟨more ++ [.go who], ?_, ?_⟩
  · rw [List.all_append, honward]
    rfl
  · rw [run_append]
    apply (h.run hx (hkept who)).comes_out_next (hx.run more)
    rw [hchannel]
    exact Nat.lt_of_le_of_lt (Nat.le_of_eq hfirst) hlined.roomy

/-- The receiver takes all there is and the first in line finds a place, until it is the turn of the
call. -/
theorem comes_out (h : x.Pledged who o) (hx : x.Sound) (hlined : x.Lined) :
    ∃ more : List Move, more.all Move.isOnward = true ∧ o ∈ (x.run more).seen := by
  induction hline : x.channel.line generalizing x with
  | nil =>
    apply h.comes_out_first hx hlined
    rw [Channel.ahead, hline]
    rfl
  | cons first rest ih =>
    by_cases hwho : first = who
    · apply h.comes_out_first hx hlined
      rw [Channel.ahead, hline, List.takeWhile_cons_of_neg (by simpa using hwho)]
      rfl
    · -- one round: all is taken, the first finds a place, and the others are as before
      obtain ⟨more, honward, hkept, hchannel⟩ := x.receive_all
      have hline' : (x.run more).channel.line = first :: rest := by
        rw [hchannel]
        exact hline
      have hnext := (hlined.run hx more).line_next (hx.run more) hline' (by
        rw [hchannel]
        exact hlined.roomy)
      have hgoes : Move.abandon who ∉ [Move.go first] := by simp
      have hpledged := (h.run hx (hkept who)).run (hx.run more) hgoes
      obtain ⟨last, hlast, hout⟩ := ih hpledged ((hx.run more).step (.go first))
        ((hlined.run hx more).run (hx.run more) [.go first]) hnext
      refine ⟨more ++ .go first :: last, ?_, ?_⟩
      · rw [List.all_append, honward, List.all_cons, hlast]
        rfl
      · rw [run_append]
        exact hout

end Pledged

theorem Change.swaps_eq {m : Move} {y : Traffic} (h : Change x m y) :
    y.lane.loopback.swaps = x.lane.loopback.swaps := by
  cases h <;> rfl

theorem Sound.swaps_run (h : x.Sound) (moves : List Move) :
    (x.run moves).lane.loopback.swaps = x.lane.loopback.swaps := by
  induction moves generalizing x with
  | nil => rfl
  | cons m rest ih => exact (ih (h.step m)).trans (change_step h m).swaps_eq

/-- Where nothing is held back, nobody has the object of another. -/
theorem Sound.nothing_carried (h : x.Sound) (hplain : x.lane.loopback.swaps = fun _ => false) :
    x.held = none ∧ x.carried = [] ∧ x.lost = [] := by
  obtain ⟨hheld, hown⟩ := h.plain hplain
  have hnone : ∀ c ∈ x.calls ++ x.abandoned, c.carried? = none := by
    intro c hc
    rw [OpenCall.carried?, if_pos (hown c hc)]
  refine ⟨hheld, ?_, ?_⟩
  · exact List.filterMap_eq_nil_iff.mpr fun c hc => hnone c (List.mem_append_left _ hc)
  · exact List.filterMap_eq_nil_iff.mpr fun c hc => hnone c (List.mem_append_right _ hc)

/-- Calls are made on a loopback transport in any order and go on side by side, calls that wait are
abandoned at any time, and the receiver takes objects whenever it likes. All calls that return have
succeeded. An object whose call has succeeded is then in one place: it has come out, or it is held
back, or a call in progress carries it to the channel, or a call that carried it has been abandoned.
Only the last ones are lost, and a transport that never reorders loses none. What is held back is
brought out by a flush that is not abandoned: it has come out when the flush is over, and the flush
will be over once the receiver and the calls in progress go on. -/
theorem only_abandoned_calls_lose (capacity : ℕ) (reorderProbability : Float)
    (chance : ℕ → Bool) (moves : List Move) :
    let x := (start capacity reorderProbability chance).run moves
    (∀ r ∈ x.returned, r.2 = .ok ()) ∧
    (x.seen ++ x.held.toList ++ x.carried ++ x.lost).Perm (x.accepted ++ x.early) ∧
    ((moves.filterMap Move.object?).Nodup → ∀ o ∈ x.accepted,
      (x.seen ++ x.held.toList ++ x.carried ++ x.lost).count o = 1) ∧
    (reorderProbability ≤ 0.0 → x.held = none ∧ x.carried = [] ∧ x.lost = []) ∧
    ∀ who, (∀ c ∈ x.calls, c.who ≠ who) → ∀ o, x.held = some o → ∀ more,
      .abandon who ∉ more →
      let y := (x.step (.call who .flush)).run more
      ((∀ c ∈ y.calls, c.who ≠ who) → o ∈ y.seen) ∧
      ∃ last : List Move, last.all Move.isOnward = true ∧ o ∈ (y.run last).seen := by
  intro x
  have hstart := sound_start capacity reorderProbability chance
  have hsound : x.Sound := hstart.run moves
  have hbalanced : Balanced (moves.filterMap Move.object?) x :=
    (balanced_start capacity reorderProbability chance).run hstart moves
  have hlined : x.Lined := (Lined.start capacity reorderProbability chance).run hstart moves
  refine ⟨hsound.succeeded, hbalanced.perm, fun hdistinct o => hbalanced.count_eq_one hdistinct,
    fun hle => ?_, fun who hfresh o hheld more hmore => ?_⟩
  · apply hsound.nothing_carried
    rw [hstart.swaps_run moves]
    exact Loopback.swaps_of_le_zero capacity hle chance
  · have hflush := hsound.step (.call who .flush)
    have hpledged := (pledged_flush hfresh hheld).run hflush hmore
    refine ⟨fun hover => ?_, ?_⟩
    · exact hpledged.resolve_right fun ⟨c, hc, hwho, _⟩ => hover c hc hwho
    · apply hpledged.comes_out (hflush.run more)
      exact (hlined.change hsound (change_step hsound (.call who .flush))).run hflush more

namespace AbandonedCall

def object (number : ℕ) : Outgoing := ⟨1, 1, 0, 0, number, ⟨#[7]⟩, none⟩

/-- Where all change places or none do, nothing is left to it. -/
def chance : ℕ → Bool := fun _ => false

/-- There is room for one object. The second call has put its own there and stands in line with the
one that was held back. -/
def carrying : List Move :=
  [.call 0 (.object (object 0)), .call 1 (.object (object 1)), .go 1, .go 1, .go 1]

/-- One more object is held back meanwhile. -/
def crowded : List Move := carrying ++ [.call 0 (.object (object 2))]

/-- The second call is abandoned before the flush. -/
def careless : List Move := carrying ++ [.abandon 1, .receive, .call 2 .flush, .receive]

end AbandonedCall

open AbandonedCall in
theorem later_flush_comes_out :
    let x := (start 1 1.0 chance).run crowded
    let y := (x.step (.call 2 .flush)).run [.abandon 1, .receive, .go 2]
    (x.seen ++ x.held.toList ++ x.carried ++ x.lost).count (object 0).received = 1 ∧
    x.held = some (object 2).received ∧ (object 2).received ∈ y.seen ∧
    (0.0 : Float) ≤ 0.0 ∧ ((start 1 0.0 chance).run carrying).lost = [] := by
  intro x y
  have hdistinct : (crowded.filterMap Move.object?).Nodup := by decide +kernel
  have haccepted : (object 0).received ∈ x.accepted := by decide +kernel
  have hfresh : ∀ c ∈ x.calls, c.who ≠ 2 := by decide +kernel
  have hheld : x.held = some (object 2).received := by decide +kernel
  have hkept : Move.abandon 2 ∉ [Move.abandon 1, .receive, .go 2] := by decide
  have hover : ∀ c ∈ y.calls, c.who ≠ 2 := by decide +kernel
  have hzero : (0.0 : Float) ≤ 0.0 := by decide +kernel
  obtain ⟨-, -, hone, -, hflush⟩ := only_abandoned_calls_lose 1 1.0 chance crowded
  obtain ⟨-, -, -, hplain, -⟩ := only_abandoned_calls_lose 1 0.0 chance carrying
  exact ⟨hone hdistinct _ haccepted, hheld, (hflush 2 hfresh _ hheld _ hkept).1 hover, hzero,
    (hplain hzero).2.2⟩

open AbandonedCall in
/-- The call of the first object has succeeded. The second call is abandoned when it has taken that
object and waits, and the flush finds nothing. -/
theorem abandoned_call_loses_object :
    let x := (start 1 1.0 chance).run careless
    (1.0 : Float) ≤ 1.0 ∧ x.calls = [] ∧ (.object (object 0), .ok ()) ∈ x.returned ∧
    (.flush, .ok ()) ∈ x.returned ∧ (object 0).received ∈ x.accepted ∧
    (object 0).received ∉ x.seen ∧ x.held = none := by
  decide +kernel

end Traffic

end LiveMedia
