import LiveMedia.Proofs.Publisher.WorkerRuns

/-!
# Clocks that are only read

A publisher reads its capture clock and never sets it. So each reading is the time since the clock
was made, whoever else has read it before: publishers that share one clock find in it what each
would find in a clock of its own.
-/

namespace LiveMedia
set_option autoImplicit false

variable {W S : Type}

namespace CaptureClock

/-- A clock that nobody has set since it was made. No reading has been ahead of its time line. -/
structure Unset (origin : ℕ) (offset : ℤ) (now : ℕ) (c : CaptureClock) : Prop where
  origin_eq : c.origin = origin
  offset_eq : c.offset = offset
  published_le : c.published ≤ c.timeline now

variable {origin now : ℕ} {offset : ℤ} {c : CaptureClock}

theorem unset_startingAt (origin : ℕ) (offset : ℤ) :
    Unset origin offset origin (startingAt origin offset) :=
  ⟨rfl, rfl, Nat.zero_le _⟩

theorem Unset.reading (h : c.Unset origin offset now) :
    (c.read now).1 = ((now - origin : ℕ) + offset).toNat := by
  have hline : (c.read now).1 = c.timeline now := Nat.max_eq_right h.published_le
  rw [hline, timeline, elapsed, h.origin_eq, h.offset_eq]

/-- It makes no difference to later readings that someone reads the clock. -/
theorem Unset.read (h : c.Unset origin offset now) : (c.read now).2.Unset origin offset now :=
  ⟨h.origin_eq, h.offset_eq, Nat.max_le.mpr ⟨h.published_le, Nat.le_refl _⟩⟩

theorem Unset.later (h : c.Unset origin offset now) (us : ℕ) :
    c.Unset origin offset (now + us) := by
  refine ⟨h.origin_eq, h.offset_eq, h.published_le.trans ?_⟩
  unfold timeline elapsed
  omega

end CaptureClock

namespace Publisher

variable {p : Publisher W} {origin now : ℕ} {offset : ℤ}

theorem unset_encodeWith (h : p.clock.Unset origin offset now) (enc : EncoderFamily W) (i : ℕ)
    (f : Frame) : (p.encodeWith enc i now f).clock.Unset origin offset now := by
  have houtcome := p.encodeWith_outcome enc i now f
  generalize p.encodeWith enc i now f = q at houtcome ⊢
  cases houtcome with
  | broken => exact h
  | taken => exact h.read
  | closed => exact h.read
  | rejected => exact h.read

theorem unset_submit (h : p.clock.Unset origin offset now) (enc : EncoderFamily W) (f : Frame) :
    (p.submit enc now f).clock.Unset origin offset now := by
  obtain ⟨_, _, _, _, _, hprepared⟩ := p.prepareEncoder_footprint enc
  have hclock : (p.prepareEncoder enc).2.clock.Unset origin offset now := by
    rw [hprepared]
    exact h
  have houtcome := p.submit_outcome enc now f
  generalize p.submit enc now f = q at houtcome ⊢
  cases houtcome with
  | homeless => exact hclock
  | behind => exact hclock
  | offered => exact unset_encodeWith hclock enc _ f

theorem unset_noteLatency (h : p.clock.Unset origin offset now) (timestamp : Int64) :
    (p.noteLatency now timestamp).clock.Unset origin offset now := by
  unfold noteLatency
  split
  · exact h
  · exact h.read

theorem unset_handle (h : p.clock.Unset origin offset now) (c : Chunk) :
    (p.handle now c).2.clock.Unset origin offset now := by
  have hnoted := unset_noteLatency (p := { p with origin := some (p.origin.getD c.timestamp) }) h
    c.timestamp
  unfold handle
  simp only
  obtain ⟨_, _, hbytes⟩ := noteBytes_footprint (W := W) _ now _
  rw [hbytes]
  exact hnoted

end Publisher

namespace Broadcast

variable {enc : EncoderFamily W} {link : Link S} {origin : ℕ} {offset : ℤ}

theorem unset_step {b : Broadcast W S} (h : b.publisher.clock.Unset origin offset b.now)
    (a : Action W) : (b.step enc link a).publisher.clock.Unset origin offset
      (b.step enc link a).now := by
  cases a with
  | begin => exact h
  | collect count => exact h
  | codec run => exact h
  | lose => exact h
  | elapse us => exact h.later us
  | submit f => exact Publisher.unset_submit h enc f
  | configure c =>
    obtain ⟨_, _, _, _, _, _, hsame⟩ := b.publisher.configure_footprint enc c
    simp only [step, hsame]
    exact h
  | flushEncoder =>
    obtain ⟨_, _, hsame⟩ := b.publisher.flushEncoder_footprint enc
    simp only [step, hsame]
    exact h
  | handle c =>
    obtain ⟨_, _, _, hsame⟩ := sendAll_footprint link
      { b with publisher := (b.publisher.handle b.now c).2 } (b.publisher.handle b.now c).1
    simp only [step, handle, hsame]
    exact Publisher.unset_handle h c
  | endStream =>
    obtain ⟨_, _, _, hsame⟩ := b.send_footprint link .flush
    simp only [step, hsame]
    exact h

theorem unset_run {b : Broadcast W S} (h : b.publisher.clock.Unset origin offset b.now)
    (actions : List (Action W)) : (b.run enc link actions).publisher.clock.Unset origin offset
      (b.run enc link actions).now := by
  induction actions generalizing b with
  | nil => exact h
  | cons a rest ih => exact ih (unset_step h a)

end Broadcast

namespace Shift

variable {R : (W → W × List Chunk) → Prop} {enc : EncoderFamily W} {x y : Shift W} {origin : ℕ}
  {offset : ℤ}

/-- The calls that a worker owes have nothing to do with the clock. -/
theorem clock_atOnce (later : List (Except LinkFault Unit)) (x : Shift W) :
    (x.atOnce later).publisher.clock = x.worker.publisher.clock ∧
      (x.atOnce later).now = x.now := by
  obtain ⟨_, _, _, hsent⟩ := Broadcast.sendAll_footprint Tape.link
    ⟨x.worker.publisher, ⟨later, x.calls⟩, x.now⟩ x.worker.owed
  unfold atOnce PublishWorker.settled
  simp only [hsent]
  split <;> exact ⟨rfl, rfl⟩

theorem Goes.unset (h : x.Goes R enc y) (hsources : x.worker.Sources R)
    (hclock : x.worker.publisher.clock.Unset origin offset x.now) :
    y.worker.publisher.clock.Unset origin offset y.now := by
  obtain ⟨made, -, hcomes⟩ := h.traces hsources
  obtain ⟨actions, -, hrun⟩ := hcomes []
  obtain ⟨hsame, htime⟩ := x.clock_atOnce (made.map Prod.snd ++ [])
  obtain ⟨hsame', htime'⟩ := y.clock_atOnce []
  rw [← hsame, ← htime] at hclock
  rw [← hsame', ← htime', ← hrun]
  exact Broadcast.unset_run hclock actions

end Shift

namespace Session

theorem unset_newPublisher (s : MediaSettings) (m : Media) (codec : W) (now : ℕ) :
    (newPublisher s m codec now).publisher.clock.Unset now 0 now ∧
      (newPublisher s m codec now).Sources fun _ => True :=
  ⟨CaptureClock.unset_startingAt now 0, (PublishWorker.sources_new _).post trivial⟩

/-- Whatever becomes of the publishers of a session, each reads from its clock the time since the
session was made. -/
theorem reading_of_goes (enc : Media → EncoderFamily W) (settings : Settings)
    (encoders decoders : PerMedia W) (link : Loopback) (inlet : Option (Mailbox Received))
    (start : ℕ) {m : Media} {x : Shift W}
    (h : Relation.ReflTransGen (Shift.Goes (fun _ => True) (enc m))
      ⟨(new settings encoders decoders link inlet start).publishers.get m, start, [], []⟩ x) :
    (x.worker.publisher.clock.read x.now).1 = x.now - start := by
  have hall : x.worker.publisher.clock.Unset start 0 x.now ∧ x.worker.Sources fun _ => True := by
    induction h with
    | refl =>
      cases m with
      | video => exact unset_newPublisher settings.video .video encoders.video start
      | audio => exact unset_newPublisher settings.audio .audio encoders.audio start
    | tail _ hgoes ih => exact ⟨hgoes.unset ih.2 ih.1, hgoes.sources ih.2⟩
  rw [hall.1.reading, Int.add_zero]
  rfl

end Session

end LiveMedia
