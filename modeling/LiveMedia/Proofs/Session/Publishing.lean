import LiveMedia.Proofs.Publisher.Encoding
import LiveMedia.Proofs.Session.Weave

/-!
# A publisher among others

What a publishing worker does with a transport that others use as well. Objects only change their
place: an object that is sent is held back, on its way or on the channel. As long as a worker has an
object held back, it still owes the transport the news that its stream is over.
-/

namespace LiveMedia
set_option autoImplicit false

variable {W : Type}

/-- What a publisher has to show for its calls, and what its calls need. -/
structure Ledger where
  settings : PublishSettings
  receiving : Bool
  sent : ℕ
  failures : ℕ

namespace Publisher

def ledger (p : Publisher W) : Ledger :=
  ⟨p.settings, p.receiving, p.stats.chunksSent + p.stats.endOfGroupMarkers, p.stats.sendFailures⟩

theorem ledger_configure (enc : EncoderFamily W) (p : Publisher W) (c : CodecConfig) :
    (p.configure enc c).2.ledger = p.ledger := by
  obtain ⟨_, _, _, _, _, _, h⟩ := configure_footprint enc p c
  rw [h]
  rfl

theorem ledger_submit (enc : EncoderFamily W) (p : Publisher W) (now : ℕ) (f : Frame) :
    (p.submit enc now f).ledger = p.ledger := by
  obtain ⟨_, _, _, _, _, _, _, _, _, _, _, _, h⟩ := submit_footprint enc p now f
  rw [h]
  rfl

theorem ledger_flushEncoder (enc : EncoderFamily W) (p : Publisher W) :
    (p.flushEncoder enc).ledger = p.ledger := by
  obtain ⟨_, _, h⟩ := flushEncoder_footprint enc p
  rw [h]
  rfl

theorem ledger_handle (p : Publisher W) (now : ℕ) (c : Chunk) :
    (p.handle now c).2.ledger = p.ledger ∧ (p.handle now c).2.outputs = p.outputs := by
  obtain ⟨_, _, _, _, _, _, _, _, h⟩ := handle_footprint p now c
  rw [h]
  exact ⟨rfl, rfl⟩

theorem ledger_settle (p : Publisher W) (t : Transmission) :
    (p.settle t true).ledger =
        { p.ledger with sent := p.ledger.sent + if t matches .object _ then 1 else 0 } ∧
      (p.settle t true).outputs = p.outputs := by
  have houtputs : (p.settle t true).outputs = p.outputs := by
    obtain ⟨_, _, h⟩ := p.settle_footprint t true
    rw [h]
  refine ⟨?_, houtputs⟩
  have hchunk : p.stats.chunksSent + 1 + p.stats.endOfGroupMarkers =
      p.stats.chunksSent + p.stats.endOfGroupMarkers + 1 := by omega
  cases t with
  | header g => rfl
  | object o =>
    unfold settle
    cases hs : o.status with
    | none => simp only [Bool.not_true, Bool.false_eq_true, if_false, if_true, ledger, hchunk, hs]
    | some status =>
      simp only [Bool.not_true, Bool.false_eq_true, if_false, if_true, ledger, hs, Nat.add_assoc]
  | flush => rfl

end Publisher

namespace PublishWorker

/-- The object that a worker is about to put on the channel. -/
def flight (w : PublishWorker W) (resting : Bool) : List Received :=
  match w.call with
  | some (_, d) => if resting then [] else [d.object]
  | none => []

/-- How many objects a worker has sent, or is about to have sent. -/
def given (w : PublishWorker W) : ℕ :=
  w.publisher.ledger.sent +
    match w.call with
    | some (.object _, _) => 1
    | _ => 0

/-- Whether the transport is still to be told that the stream is over. A worker that has failed will
never tell it. -/
def OwesFlush (w : PublishWorker W) : Prop :=
  match w.phase with
  | .serving => w.source.isSome = true
  | .draining _ => True
  | .closing _ => w.calls ≠ []
  | .ended how => how = .failed

/-- What is left to do in each phase. -/
def InPhase (w : PublishWorker W) : Prop :=
  match w.phase with
  | .serving => w.source = none → w.publisher.outputs = [] ∧ w.calls = [] ∧ w.call = none
  | .draining _ => w.source = none
  | .closing _ => w.source = none ∧ w.publisher.outputs = [] ∧
      (w.calls = [.flush] ∧ w.call = none ∨
        w.calls = [] ∧ ∀ o d, w.call ≠ some (.object o, d))
  | .ended _ => w.calls = [] ∧ w.call = none

/-- A worker in the midst of a session that finishes. -/
structure Tidy (track : ℕ) (w : PublishWorker W) : Prop where
  receiving : w.publisher.ledger.receiving = true
  track_eq : w.publisher.ledger.settings.track = track
  failures : w.publisher.ledger.failures = 0
  cancelled : w.cancelled = false
  calls : ∀ o, .object o ∈ w.calls → o.track = track
  inPhase : w.InPhase

/-- What is held back, in the hands of this worker, or on the channel, as far as it is counted. -/
def load (w : PublishWorker W) (who : ℕ) (l : Lane) (f : Received → Bool) : ℕ :=
  l.loopback.held.toList.countP f + (w.flight (l.resting who)).countP f +
    l.loopback.channel.queue.countP f

theorem load_congr {w w' : PublishWorker W} (h : w'.call = w.call) (who : ℕ) (l : Lane)
    (f : Received → Bool) : w'.load who l f = w.load who l f := by
  unfold load flight
  rw [h]

/-- What a turn of a worker may do to itself and to the transport: it adds these objects to all that
is on its way, and loses none. -/
structure Turn (track who : ℕ) (w : PublishWorker W) (l : Lane) (w' : PublishWorker W) (l' : Lane)
    (sent : List Received) : Prop where
  tidy : w'.Tidy track
  resting : l'.resting who = true → w'.call.isSome = true
  others : ∀ user, user ≠ who → l'.resting user = l.resting user
  isOpen : l'.loopback.channel.isOpen = l.loopback.channel.isOpen
  load : ∀ f, w'.load who l' f = w.load who l f + sent.countP f
  given : w'.given = w.given + sent.length
  track_eq : ∀ o ∈ sent, o.track = track
  held : ∀ o, l'.loopback.held = some o →
    l.loopback.held = some o ∧ (w.OwesFlush → w'.OwesFlush) ∨ o.track = track ∧ w'.OwesFlush
  ended : w.isEnded = true → w'.isEnded = true ∧ w'.result = w.result ∧ l' = l

section Turns

variable {track who : ℕ} {w : PublishWorker W} {l : Lane} {t : Transmission} {d : Delivery}

theorem isEnded_iff (w : PublishWorker W) :
    w.isEnded = true ↔ ∃ how, w.phase = .ended how := by
  unfold isEnded
  cases w.phase <;> simp

/-- The call at hand, whether it is on its way or the next to be made. -/
def Busy (w : PublishWorker W) (t : Transmission) (rest : List Transmission) : Prop :=
  (∃ d, w.call = some (t, d)) ∧ w.calls = rest ∨ w.call = none ∧ w.calls = t :: rest

variable {rest : List Transmission}

theorem Busy.ne_idle (h : w.Busy t rest) : ¬ (w.calls = [] ∧ w.call = none) := by
  rintro ⟨hcalls, hcall⟩
  rcases h with ⟨⟨d, hgoing⟩, _⟩ | ⟨_, hnext⟩
  · rw [hcall] at hgoing
    cases hgoing
  · rw [hcalls] at hnext
    cases hnext

/-- A worker with a call to make has not ended. -/
theorem InPhase.not_isEnded (h : w.InPhase) (hbusy : w.Busy t rest) : w.isEnded = false := by
  unfold InPhase at h
  unfold isEnded
  split at h
  · rename_i hphase
    rw [hphase]
  · rename_i hphase
    rw [hphase]
  · rename_i hphase
    rw [hphase]
  · exact absurd h hbusy.ne_idle

/-- A worker whose call goes on or is over is in its phase as before. -/
theorem InPhase.busy (h : w.InPhase) (hbusy : w.Busy t rest) {p : Publisher W}
    (hp : p.outputs = w.publisher.outputs) {call : Option (Transmission × Delivery)}
    (hc : ∀ x, call = some x → x.1 = t) :
    InPhase { w with publisher := p, calls := rest, call := call } := by
  unfold InPhase at h ⊢
  cases hphase : w.phase with
  | serving =>
    rw [hphase] at h
    exact fun hsource => absurd (h hsource).2 hbusy.ne_idle
  | draining next =>
    rw [hphase] at h
    exact h
  | closing next =>
    rw [hphase] at h
    obtain ⟨hsource, houtputs, hcalls⟩ := h
    have hlast : rest = [] ∧ ∀ o, t ≠ .object o := by
      rcases hbusy with ⟨⟨d, hgoing⟩, hrest⟩ | ⟨hidle, hnext⟩
      · rcases hcalls with ⟨_, hnone⟩ | ⟨hnone, hobject⟩
        · rw [hnone] at hgoing
          cases hgoing
        · exact ⟨hrest.symm.trans hnone, fun o ho => hobject o d (ho ▸ hgoing)⟩
      · rcases hcalls with ⟨hflush, _⟩ | ⟨hnone, _⟩
        · rw [hflush] at hnext
          cases hnext
          exact ⟨rfl, nofun⟩
        · rw [hnone] at hnext
          cases hnext
    refine ⟨hsource, hp.trans houtputs, Or.inr ⟨hlast.1, ?_⟩⟩
    rintro o e rfl
    exact hlast.2 o (hc _ rfl).symm
  | ended how =>
    rw [hphase] at h
    exact absurd h hbusy.ne_idle

theorem Tidy.mem_rest (h : w.Tidy track) (hbusy : w.Busy t rest) {o : Outgoing}
    (ho : .object o ∈ rest) : o.track = track := by
  apply h.calls o
  rcases hbusy with ⟨_, hrest⟩ | ⟨_, hnext⟩
  · exact hrest ▸ ho
  · exact hnext ▸ List.mem_cons_of_mem t ho

theorem Tidy.going (h : w.Tidy track) (hbusy : w.Busy t rest) (d : Delivery) :
    Tidy track { w with calls := rest, call := some (t, d) } :=
  ⟨h.receiving, h.track_eq, h.failures, h.cancelled, fun _ ho => h.mem_rest hbusy ho,
    h.inPhase.busy hbusy rfl (by rintro x ⟨⟩; rfl)⟩

theorem Tidy.settle (h : w.Tidy track) (hbusy : w.Busy t rest) :
    Tidy track { w with calls := rest, call := none, publisher := w.publisher.settle t true } := by
  obtain ⟨hledger, houtputs⟩ := w.publisher.ledger_settle t
  refine ⟨?_, ?_, ?_, h.cancelled, fun _ ho => h.mem_rest hbusy ho,
    h.inPhase.busy hbusy houtputs fun x hx => by cases hx⟩
  · exact (congrArg Ledger.receiving hledger).trans h.receiving
  · exact (congrArg (fun b : Ledger => b.settings.track) hledger).trans h.track_eq
  · exact (congrArg Ledger.failures hledger).trans h.failures

/-- A call that goes on moves an object on, or takes the one held back. -/
theorem Tidy.turn_advance (h : w.Tidy track) (hcall : w.call = some (t, d))
    (hopen : l.loopback.channel.isOpen = true) :
    Turn track who w l (w.note t (l.advance who d).1) (l.advance who d).2 [] := by
  have hbusy : w.Busy t w.calls := Or.inl ⟨⟨d, hcall⟩, rfl⟩
  have hnot := h.inPhase.not_isEnded hbusy
  have hgoing : ∀ e, Tidy track { w with call := some (t, e) } := h.going hbusy
  have hgiven : ∀ e, given { w with call := some (t, e) } = w.given := by
    intro e
    unfold given
    rw [hcall]
    cases t <;> rfl
  have hdone : Tidy track { w with call := none, publisher := w.publisher.settle t true } :=
    h.settle hbusy
  have hdoneGiven :
      given { w with call := none, publisher := w.publisher.settle t true } = w.given := by
    unfold given
    rw [(w.publisher.ledger_settle t).1, hcall]
    cases t <;> rfl
  have hended : ∀ {p : Prop}, w.isEnded = true → p := fun hended => by
    rw [hnot] at hended
    cases hended
  have hothers : ∀ b user, user ≠ who → Function.update l.resting who b user = l.resting user :=
    fun b user hne => Function.update_of_ne hne _ _
  rcases l.advance_cases hopen who d with ⟨hrest, hheld, ha⟩ | ⟨o, hrest, hheld, ha⟩ |
    ⟨hrest, -, ha⟩ | ⟨hrest, -, ⟨-, ha⟩ | ⟨-, ha⟩⟩
  all_goals rw [ha]
  · refine ⟨hdone, fun hr => ?_, hothers false, rfl, fun f => ?_, hdoneGiven, fun _ ho => ?_,
      fun o ho => ?_, hended⟩
    · simp at hr
    · simp [load, flight, hcall, hrest, note]
    · cases ho
    · rw [hheld] at ho
      cases ho
  · refine ⟨hgoing _, fun _ => rfl, hothers false, rfl, fun f => ?_, hgiven _, fun _ ho => ?_,
      fun _ ho => ?_, hended⟩
    · simp [load, flight, hcall, hrest, hheld, note]
    · cases ho
    · cases ho
  · refine ⟨hgoing _, fun _ => rfl, fun _ _ => rfl, rfl, fun f => ?_, hgiven _, fun _ ho => ?_,
      fun o ho => Or.inl ⟨ho, id⟩, hended⟩
    · simp [load, flight, hcall, hrest, note, Lane.mapChannel, Channel.standIn]
    · cases ho
  · refine ⟨hgoing _, fun _ => rfl, hothers true, rfl, fun f => ?_, hgiven _, fun _ ho => ?_,
      fun o ho => Or.inl ⟨ho, id⟩, hended⟩
    · simp [load, flight, hcall, hrest, note, Lane.mapChannel, Channel.put, Nat.add_assoc,
        Nat.add_comm]
    · cases ho
  · refine ⟨hdone, fun hr => ?_, fun _ _ => rfl, rfl, fun f => ?_, hdoneGiven, fun _ ho => ?_,
      fun o ho => Or.inl ⟨ho, id⟩, hended⟩
    · exact absurd (hrest.symm.trans hr) Bool.false_ne_true
    · simp [load, flight, hcall, hrest, note, Lane.mapChannel, Channel.put, Nat.add_assoc,
        Nat.add_comm]
    · cases ho

/-- Before the end of its stream a worker with a call to make owes the flush. -/
theorem InPhase.owesFlush (h : w.InPhase) (hcalls : w.calls = t :: rest) (ht : t ≠ .flush)
    {p : Publisher W} {call : Option (Transmission × Delivery)} :
    OwesFlush { w with publisher := p, calls := rest, call := call } := by
  unfold InPhase at h
  unfold OwesFlush
  cases hphase : w.phase with
  | serving =>
    rw [hphase, hcalls] at h
    simp only
    cases hsource : w.source with
    | none => cases (h hsource).2.1
    | some source => rfl
  | draining next => trivial
  | closing next =>
    rw [hphase, hcalls] at h
    obtain ⟨_, _, ⟨hflush, _⟩ | ⟨hnone, _⟩⟩ := h
    · cases hflush
      exact absurd rfl ht
    · cases hnone
  | ended how =>
    rw [hphase, hcalls] at h
    cases h.1

/-- A new call puts its object on its way, or keeps it back. -/
theorem Tidy.turn_start (h : w.Tidy track) (hcall : w.call = none) (hcalls : w.calls = t :: rest)
    (hrest : l.resting who = false) (hopen : l.loopback.channel.isOpen = true) :
    ∃ sent, Turn track who w l ({ w with calls := rest }.note t (l.start t).1) (l.start t).2
      sent := by
  have hbusy : w.Busy t rest := Or.inr ⟨hcall, hcalls⟩
  have hnot := h.inPhase.not_isEnded hbusy
  have hended : ∀ {p : Prop}, w.isEnded = true → p := fun hended => by
    rw [hnot] at hended
    cases hended
  have hquiet : ∀ {p : Prop}, l.resting who = true → p := fun hr => by
    rw [hrest] at hr
    cases hr
  have hledger := (w.publisher.ledger_settle t).1
  have howes : t ≠ .flush → ∀ {p : Publisher W} {call : Option (Transmission × Delivery)},
      OwesFlush { w with publisher := p, calls := rest, call := call } :=
    fun ht => h.inPhase.owesFlush hcalls ht
  have htrack : ∀ o, t = .object o → ∀ x ∈ [o.received], x.track = track := by
    rintro o rfl x hx
    rw [List.mem_singleton.mp hx]
    exact h.calls o (hcalls ▸ List.mem_cons_self)
  have hbegins := Loopback.begins_start hopen t
  unfold Lane.start
  generalize l.loopback.start t = begun at hbegins
  cases hbegins with
  | header g =>
    refine ⟨[], h.settle hbusy, hquiet, fun _ _ => rfl, rfl, fun f => ?_, ?_, fun _ ho => ?_,
      fun o ho => Or.inl ⟨ho, fun _ => howes nofun⟩, hended⟩
    · simp [load, flight, hcall, note]
    · simp [given, hcall, note, hledger]
    · cases ho
  | hold o _ hempty =>
    refine ⟨[o.received], h.settle hbusy, hquiet, fun _ _ => rfl, rfl, fun f => ?_, ?_,
      htrack o rfl, fun x hx => ?_, hended⟩
    · simp [load, flight, hcall, note, hempty]
      omega
    · simp [given, hcall, note, hledger]
    · cases hx
      exact Or.inr ⟨htrack o rfl _ (List.mem_singleton_self _), howes nofun⟩
  | pass o _ =>
    refine ⟨[o.received], h.going hbusy _, fun _ => rfl, fun _ _ => rfl, rfl, fun f => ?_, ?_,
      htrack o rfl, fun x hx => Or.inl ⟨hx, fun _ => howes nofun⟩, hended⟩
    · simp [load, flight, hcall, note, hrest]
      omega
    · simp [given, hcall, note]
  | flushNothing hempty =>
    refine ⟨[], h.settle hbusy, hquiet, fun _ _ => rfl, rfl, fun f => ?_, ?_, fun _ ho => ?_,
      fun o ho => ?_, hended⟩
    · simp [load, flight, hcall, note]
    · simp [given, hcall, note, hledger]
    · cases ho
    · rw [hempty] at ho
      cases ho
  | flush hfull =>
    refine ⟨[], h.going hbusy _, fun _ => rfl, fun _ _ => rfl, rfl, fun f => ?_, ?_,
      fun _ ho => ?_, fun o ho => ?_, hended⟩
    · simp [load, flight, hcall, note, hrest, hfull]
    · simp [given, hcall, note]
    · cases ho
    · cases ho

end Turns

/-- What a worker may do by itself, without the transport. -/
structure Still (track : ℕ) (w w' : PublishWorker W) : Prop where
  tidy : w'.Tidy track
  call : w'.call = w.call
  sent : w'.publisher.ledger.sent = w.publisher.ledger.sent
  owes : w.OwesFlush → w'.OwesFlush
  ended : w.isEnded = true → w'.isEnded = true ∧ w'.result = w.result

section Stills

variable {track who : ℕ} {w w' w'' : PublishWorker W} {l l' : Lane} {sent : List Received}

theorem Still.given_eq (h : Still track w w') : w'.given = w.given := by
  unfold given
  rw [h.call, h.sent]

theorem Turn.still (h : Turn track who w l w' l' sent) (h' : Still track w' w'') :
    Turn track who w l w'' l' sent where
  tidy := h'.tidy
  resting := fun hr => h'.call ▸ h.resting hr
  others := h.others
  isOpen := h.isOpen
  load := fun f => (load_congr h'.call who l' f).trans (h.load f)
  given := h'.given_eq.trans h.given
  track_eq := h.track_eq
  held := fun o ho => (h.held o ho).imp (fun hkept => ⟨hkept.1, h'.owes ∘ hkept.2⟩)
    fun hnew => ⟨hnew.1, h'.owes hnew.2⟩
  ended := fun hended =>
    have hfirst := h.ended hended
    have hthen := h'.ended hfirst.1
    ⟨hthen.1, hthen.2.trans hfirst.2.1, hfirst.2.2⟩

theorem Still.refl (h : w.Tidy track) : Still track w w :=
  ⟨h, rfl, rfl, id, fun hended => ⟨hended, rfl⟩⟩

theorem Still.turn (h : Still track w w') (hrest : l.resting who = true → w.call.isSome = true) :
    Turn track who w l w' l [] where
  tidy := h.tidy
  resting := fun hr => h.call ▸ hrest hr
  others := fun _ _ => rfl
  isOpen := rfl
  load := fun f => load_congr h.call who l f
  given := h.given_eq
  track_eq := fun _ ho => absurd ho List.not_mem_nil
  held := fun _ ho => Or.inl ⟨ho, h.owes⟩
  ended := fun hended => ⟨(h.ended hended).1, (h.ended hended).2, rfl⟩

/-- A worker that has not ended and keeps its ledger and its call. -/
theorem Tidy.still (h : w.Tidy track) (hnot : w.isEnded = false)
    (hledger : w'.publisher.ledger = w.publisher.ledger) (hcancelled : w'.cancelled = w.cancelled)
    (hcall : w'.call = w.call) (hcalls : ∀ o, .object o ∈ w'.calls → o.track = track)
    (hphase : w'.InPhase) (howes : w.OwesFlush → w'.OwesFlush) : Still track w w' where
  tidy :=
    { receiving := hledger ▸ h.receiving
      track_eq := hledger ▸ h.track_eq
      failures := hledger ▸ h.failures
      cancelled := hcancelled.trans h.cancelled
      calls := hcalls
      inPhase := hphase }
  call := hcall
  sent := congrArg Ledger.sent hledger
  owes := howes
  ended := fun hended => by
    rw [hnot] at hended
    cases hended

theorem Still.trans (h : Still track w w') (h' : Still track w' w'') : Still track w w'' where
  tidy := h'.tidy
  call := h'.call.trans h.call
  sent := h'.sent.trans h.sent
  owes := h'.owes ∘ h.owes
  ended := fun hended =>
    have hfirst := h.ended hended
    have hthen := h'.ended hfirst.1
    ⟨hthen.1, hthen.2.trans hfirst.2⟩

theorem Tidy.still_mailbox (h : w.Tidy track) (mailbox : Mailbox (PublishCommand W)) :
    Still track w { w with mailbox := mailbox } :=
  ⟨⟨h.receiving, h.track_eq, h.failures, h.cancelled, h.calls, h.inPhase⟩, rfl, rfl, id,
    fun hended => ⟨hended, rfl⟩⟩

theorem Tidy.still_post (h : w.Tidy track) (command : PublishCommand W) :
    Still track w (w.post command).2 := by
  unfold post
  split
  · exact h.still_mailbox _
  · exact .refl h

/-- Changes of the publisher that are not on its ledger. -/
theorem Tidy.still_act (h : w.Tidy track) {f : Publisher W → Publisher W}
    (hledger : (f w.publisher).ledger = w.publisher.ledger)
    (houtputs : (f w.publisher).outputs = w.publisher.outputs)
    (hresult : (w.actOnPublisher f).result = w.result) : Still track w (w.actOnPublisher f) where
  tidy :=
    { receiving := hledger ▸ h.receiving
      track_eq := hledger ▸ h.track_eq
      failures := hledger ▸ h.failures
      cancelled := h.cancelled
      calls := h.calls
      inPhase := by
        have hin := h.inPhase
        unfold InPhase at hin ⊢
        simpa only [actOnPublisher, houtputs] using hin }
  call := rfl
  sent := congrArg Ledger.sent hledger
  owes := id
  ended := fun hended => ⟨hended, hresult⟩

/-- What a worker has to show that has ended well. -/
theorem Tidy.stopped (h : w.Tidy track) (hended : w.isEnded = true) {stats : PublishStats}
    (hresult : w.result = .ok stats) :
    w.call = none ∧ ¬ w.OwesFlush ∧ stats.sendFailures = 0 ∧
      w.given = stats.chunksSent + stats.endOfGroupMarkers := by
  obtain ⟨how, hphase⟩ := w.isEnded_iff.mp hended
  have hin := h.inPhase
  unfold InPhase at hin
  unfold result at hresult
  rw [hphase] at hin hresult
  cases how with
  | failed => cases hresult
  | stopped =>
    cases hresult
    refine ⟨hin.2, ?_, h.failures, ?_⟩
    · unfold OwesFlush
      rw [hphase]
      exact nofun
    · unfold given
      rw [hin.2]
      rfl

theorem not_isEnded_of_serving (hphase : w.phase = .serving) : w.isEnded = false := by
  unfold isEnded
  rw [hphase]

/-- A worker that goes on with a source. -/
theorem Tidy.still_serving (h : w.Tidy track) (hphase : w.phase = .serving)
    (hledger : w'.publisher.ledger = w.publisher.ledger) (hcancelled : w'.cancelled = w.cancelled)
    (hcall : w'.call = w.call) (hcalls : w'.calls = w.calls) (hphase' : w'.phase = .serving)
    (hsource : w'.source.isSome = true) : Still track w w' := by
  refine h.still (not_isEnded_of_serving hphase) hledger hcancelled hcall (hcalls ▸ h.calls) ?_
    fun _ => ?_
  · unfold InPhase
    rw [hphase']
    intro hnone
    rw [hnone] at hsource
    cases hsource
  · unfold OwesFlush
    rw [hphase']
    exact hsource

end Stills

section Steps

open SimulatedCodec

variable (media : Media) {track : ℕ} {w : PublishWorker SimulatedCodec} (now : ℕ)

/-- A worker that owes the flush may only end by failing. -/
theorem still_finish (h : w.Tidy track) (hnot : w.isEnded = false) (hcall : w.call = none)
    (hcalls : w.calls = []) {how : WorkerEnd} (howes : w.OwesFlush → how = .failed) :
    Still track w (w.finish how) :=
  h.still hnot rfl rfl rfl h.calls ⟨hcalls, hcall⟩ howes

theorem still_endSource (h : w.Tidy track) (hphase : w.phase = .serving)
    (next : Option (Source SimulatedCodec)) :
    Still track w (w.endSource (encoders media) next) :=
  h.still (not_isEnded_of_serving hphase) (w.publisher.ledger_flushEncoder _) rfl rfl h.calls rfl
    fun _ => trivial

theorem still_begin (h : w.Tidy track) (hnot : w.isEnded = false)
    (source : Source SimulatedCodec) : Still track w (w.begin now source) :=
  h.still hnot rfl rfl rfl h.calls nofun fun _ => rfl

theorem still_follow (h : w.Tidy track) (hphase : w.phase = .serving)
    (command : PublishCommand SimulatedCodec) :
    Still track w (w.follow (encoders media) now command) := by
  have hnot := not_isEnded_of_serving hphase
  cases command with
  | configure c =>
    have houtputs := Publisher.outputs_configure (silent_encoders media) h.receiving c
    have hserving : w.source = none → w.publisher.outputs = [] ∧ w.calls = [] ∧ w.call = none := by
      have hin := h.inPhase
      unfold InPhase at hin
      rwa [hphase] at hin
    refine h.still hnot (w.publisher.ledger_configure _ c) rfl rfl h.calls ?_ id
    unfold InPhase follow
    simpa only [hphase, houtputs] using hserving
  | attach source =>
    change Still track w (w.attach (encoders media) now source)
    unfold attach
    split
    · exact still_endSource media h hphase _
    · exact still_begin now h hnot source

theorem still_hear (h : w.Tidy track) (hphase : w.phase = .serving) (hcall : w.call = none)
    (hcalls : w.calls = []) : Still track w (w.hear (encoders media) now) := by
  unfold hear
  cases w.mailbox.take? with
  | some taken =>
    have hstill := h.still_mailbox taken.2
    exact hstill.trans (still_follow media now hstill.tidy hphase taken.1)
  | none =>
    have hnot := not_isEnded_of_serving hphase
    simp only
    split
    · exact h.still hnot rfl rfl rfl h.calls h.inPhase id
    · rename_i hsource
      refine h.still hnot rfl rfl rfl h.calls ⟨hcalls, hcall⟩ fun howes => ?_
      unfold OwesFlush at howes
      rw [hphase] at howes
      exact absurd howes hsource

/-- The calls for a chunk are made while the stream is not over. -/
theorem still_handleOutput (h : w.Tidy track) (hnot : w.isEnded = false)
    (hphase : w.source.isSome = true ∧ w.phase = .serving ∨ ∃ next, w.phase = .draining next)
    (c : Chunk) (rest : List Chunk) : Still track w (w.handleOutput now c rest) := by
  have hledger := ({ w.publisher with outputs := rest } : Publisher SimulatedCodec).ledger_handle
    now c
  have hcalls : ∀ o, .object o ∈ (w.handleOutput now c rest).calls → o.track = track := fun o ho =>
    (Publisher.of_mem_handle ho).1.trans h.track_eq
  rcases hphase with ⟨hsource, hphase⟩ | ⟨next, hphase⟩
  · refine h.still hnot hledger.1 rfl rfl hcalls ?_ fun _ => ?_
    · unfold InPhase handleOutput
      simp only [hphase]
      intro hnone
      rw [hnone] at hsource
      cases hsource
    · unfold OwesFlush handleOutput
      simp only [hphase]
      exact hsource
  · have hover : w.source = none := by
      have hin := h.inPhase
      unfold InPhase at hin
      rwa [hphase] at hin
    refine h.still hnot hledger.1 rfl rfl hcalls ?_ fun _ => ?_
    · unfold InPhase handleOutput
      simpa only [hphase] using hover
    · unfold OwesFlush handleOutput
      simp only [hphase]

theorem still_askSource (h : w.Tidy track) (hphase : w.phase = .serving) (hcall : w.call = none)
    (hcalls : w.calls = []) {source : Source SimulatedCodec} (hsource : w.source = some source) :
    Still track w (w.askSource (encoders media) now source).1 := by
  have hsome : w.source.isSome = true := by
    rw [hsource]
    rfl
  have hfail : ∀ {w' : PublishWorker SimulatedCodec}, Still track w w' → w'.phase = .serving →
      w'.calls = w.calls → Still track w (w'.finish .failed) := fun h' hserving hsame =>
    h'.trans (still_finish h'.tidy (not_isEnded_of_serving hserving) (h'.call.trans hcall)
      (hsame.trans hcalls) fun _ => rfl)
  unfold askSource
  generalize source.next now w.publisher.codec = answer
  simp only
  have hasked : Still track w { w with
      publisher := { w.publisher with codec := answer.codec }.deliver answer.emitted } :=
    h.still_serving hphase rfl rfl rfl rfl hphase hsome
  cases answer.supply with
  | frame f rest =>
    have hledger := Publisher.ledger_submit (encoders media)
      ({ w.publisher with codec := answer.codec }.deliver answer.emitted) now f
    simp only
    split
    · exact hfail (h.still_serving hphase hledger rfl rfl rfl hphase rfl) hphase rfl
    · exact h.still_serving hphase hledger rfl rfl rfl hphase rfl
  | wait deadline rest => exact h.still_serving hphase rfl rfl rfl rfl hphase rfl
  | moved us rest => exact h.still_serving hphase rfl rfl rfl rfl hphase rfl
  | stalled => exact h.still_serving hphase rfl rfl rfl rfl hphase hsome
  | ended => exact hasked.trans (still_endSource media hasked.tidy hphase none)
  | broken => exact hfail hasked hphase rfl

/-- A step of a worker that has no call to make. -/
theorem still_serve (h : w.Tidy track) (hphase : w.phase = .serving) (hcall : w.call = none)
    (hcalls : w.calls = []) : Still track w (w.serve (encoders media) now).1 := by
  have hgo : (!w.publisher.receiving || w.cancelled) = false := by
    rw [h.cancelled]
    exact congrArg (fun b => !b || false) h.receiving
  have hin := h.inPhase
  unfold InPhase at hin
  rw [hphase] at hin
  unfold serve
  rw [if_neg (by rw [hgo]; exact Bool.false_ne_true)]
  split
  · exact still_hear media now h hphase hcall hcalls
  · split
    · rename_i c rest houtputs
      refine still_handleOutput now h (not_isEnded_of_serving hphase) (Or.inl ⟨?_, hphase⟩) c rest
      cases hsource : w.source with
      | some source => rfl
      | none =>
        rw [(hin hsource).1] at houtputs
        cases houtputs
    · rename_i source hsource
      split
      · have hwaited : Still track w { w with sourceWait := .over } :=
          h.still_serving hphase rfl rfl rfl rfl hphase (by rw [hsource]; rfl)
        exact hwaited.trans (still_askSource media now hwaited.tidy hphase hcall hcalls hsource)
      · exact .refl h
    · exact .refl h

theorem still_conclude {next : Option (Source SimulatedCodec)} (h : w.Tidy track)
    (hphase : w.phase = .closing next) (hcall : w.call = none) (hcalls : w.calls = []) :
    Still track w (w.conclude now next) := by
  have hnot : w.isEnded = false := by
    unfold isEnded
    rw [hphase]
  have howes : ¬ w.OwesFlush := by
    unfold OwesFlush
    rw [hphase]
    exact fun hne => hne hcalls
  have hin := h.inPhase
  unfold InPhase at hin
  rw [hphase] at hin
  have hserving : Still track w
      { w with publisher := w.publisher.endStream, phase := .serving } :=
    h.still hnot rfl rfl rfl h.calls (fun _ => ⟨hin.2.1, hcalls, hcall⟩) fun ho => absurd ho howes
  unfold conclude
  cases next with
  | some source => exact hserving.trans (still_begin now hserving.tidy rfl source)
  | none =>
    simp only
    split
    · exact hserving
    · exact h.still hnot rfl rfl rfl h.calls ⟨hcalls, hcall⟩ fun ho => absurd ho howes

/-- Whatever a worker does next, it loses nothing of what is on its way. -/
theorem Tidy.turn_step {who : ℕ} {l : Lane} (h : w.Tidy track)
    (hrest : l.resting who = true → w.call.isSome = true)
    (hopen : w.isEnded = false → l.loopback.channel.isOpen = true) :
    ∃ sent, Turn track who w l (w.step (encoders media) Lane.carrier who now l).1.1
      (w.step (encoders media) Lane.carrier who now l).1.2 sent := by
  have hquiet : ∀ w', Still track w w' → ∃ sent, Turn track who w l w' l sent :=
    fun _ hstill => ⟨[], hstill.turn hrest⟩
  cases hcall : w.call with
  | some going =>
    obtain ⟨t, d⟩ := going
    have hnot := h.inPhase.not_isEnded (Or.inl ⟨⟨d, hcall⟩, rfl⟩)
    unfold step
    simp only [hcall]
    exact ⟨[], h.turn_advance hcall (hopen hnot)⟩
  | none =>
    have hidle : l.resting who = false := by
      cases hresting : l.resting who with
      | false => rfl
      | true =>
        have hbusy := hrest hresting
        rw [hcall] at hbusy
        cases hbusy
    cases hcalls : w.calls with
    | cons t rest =>
      have hnot := h.inPhase.not_isEnded (Or.inr ⟨hcall, hcalls⟩)
      unfold step
      simp only [hcall, hcalls]
      exact h.turn_start hcall hcalls hidle (hopen hnot)
    | nil =>
      have hin := h.inPhase
      unfold InPhase at hin
      unfold step
      simp only [hcall, hcalls]
      cases hphase : w.phase with
      | serving => exact hquiet _ (still_serve media now h hphase hcall hcalls)
      | draining next =>
        have hnot : w.isEnded = false := by
          unfold isEnded
          rw [hphase]
        rw [hphase] at hin
        simp only
        split
        · exact hquiet _ (still_handleOutput now h hnot (Or.inr ⟨next, hphase⟩) _ _)
        · rename_i houtputs
          refine hquiet _ (h.still hnot rfl rfl hcall.symm (fun o ho => ?_)
            ⟨hin, houtputs, Or.inl ⟨rfl, rfl⟩⟩ fun _ => nofun)
          cases List.mem_singleton.mp ho
      | closing next => exact hquiet _ (still_conclude now h hphase hcall hcalls)
      | ended how => exact hquiet _ (.refl h)

end Steps

end PublishWorker

end LiveMedia
