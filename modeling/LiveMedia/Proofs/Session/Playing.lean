import Mathlib.Data.Nat.Notation
import LiveMedia.Proofs.Player.Run
import LiveMedia.Worker.Playing

/-!
# A player among others

A playing worker is sent objects by the router, and its owner may send it some as well. It takes
every object that is put into its mailbox: it stops listening only when the mailbox is empty and
both of them are gone.
-/

namespace LiveMedia
set_option autoImplicit false

variable {W : Type}

namespace Player

/-- What a worker asks of its player: how often it wants to tick and how much it has taken. -/
def intakeCount (p : Player W) : PlaySettings × ℕ := (p.settings, p.counts.objectsReceived)

section Decoding

variable (dec : DecoderFamily W)

theorem intakeCount_tick (p : Player W) (now : ℕ) :
    (p.tick dec now).2.intakeCount = p.intakeCount := by
  have hrender : ∀ q : Player W, q.renderOutputs.intakeCount = q.intakeCount := by
    intro q
    obtain ⟨_, _, _, _, _, h⟩ := renderOutputs_footprint q
    rw [h]
    rfl
  have hplay : ∀ (q : Player W) (o : Received), (q.play dec o).intakeCount = q.intakeCount := by
    intro q o
    obtain ⟨_, _, _, _, _, _, _, _, _, h⟩ := play_footprint dec q o
    rw [h]
    rfl
  unfold tick
  split
  · exact hrender p
  · exact (hrender _).trans (hplay _ _)

end Decoding

theorem intakeCount_receive (p : Player W) (now : ℕ) (o : Received) :
    (p.receive now o).intakeCount = (p.settings, p.counts.objectsReceived + 1) := by
  obtain ⟨_, _, _, _, _, _, _, h⟩ := receive_footprint p now o
  rw [h]
  rfl

theorem intakeCount_actOnCodec (p : Player W) (run : W → W × List (ℕ × Picture)) :
    (p.actOnCodec run).intakeCount = p.intakeCount := by
  obtain ⟨_, _, h⟩ := actOnCodec_footprint p run
  rw [h]
  rfl

end Player

namespace PlayWorker

/-- The objects that have come to a worker, whether it has taken them or not. -/
def tally (w : PlayWorker W) : ℕ := w.mailbox.channel.queue.length + w.player.intakeCount.2

/-- A worker in the midst of a session that finishes. -/
structure Attends (routerGone : Bool) (w : PlayWorker W) : Prop where
  cancelled : w.cancelled = false
  paced : w.player.intakeCount.1.playoutInterval ≠ 0
  senders : routerGone = false → w.mailbox.senders = 2
  isOpen : w.ended = none → w.mailbox.channel.isOpen = true
  deaf : w.listening = false → w.mailbox.channel.queue = [] ∧ routerGone = true
  ended : ∀ how, w.ended = some how → how = .stopped ∧ w.listening = false

/-- What a worker may do by itself. -/
structure Stays (routerGone : Bool) (w w' : PlayWorker W) : Prop where
  attends : w'.Attends routerGone
  tally_eq : w'.tally = w.tally
  ended : w.isEnded = true → w'.isEnded = true ∧ w'.result = w.result

section Steps

variable {routerGone : Bool} {w : PlayWorker W}

theorem Attends.stays (h : w.Attends routerGone) : Stays routerGone w w :=
  ⟨h, rfl, fun hended => ⟨hended, rfl⟩⟩

/-- Changes of the player that are no objects. -/
theorem Attends.stays_act (h : w.Attends routerGone) {f : Player W → Player W}
    (hintake : (f w.player).intakeCount = w.player.intakeCount)
    (hstats : (f w.player).stats = w.player.stats) : Stays routerGone w (w.actOnPlayer f) where
  attends :=
    { h with paced := by rw [actOnPlayer, hintake]; exact h.paced }
  tally_eq := by rw [tally, tally, actOnPlayer, hintake]
  ended := fun hended => by
    have hmedia : (f w.player).media = w.player.media :=
      congrArg (fun i : PlaySettings × ℕ => i.1.media) hintake
    unfold result
    simp only [actOnPlayer, hmedia, hstats]
    exact ⟨hended, trivial⟩

theorem Stays.trans {w' w'' : PlayWorker W} (h : Stays routerGone w w')
    (h' : Stays routerGone w' w'') : Stays routerGone w w'' where
  attends := h'.attends
  tally_eq := h'.tally_eq.trans h.tally_eq
  ended := fun hended =>
    have hfirst := h.ended hended
    have hthen := h'.ended hfirst.1
    ⟨hthen.1, hthen.2.trans hfirst.2⟩

/-- An empty mailbox has news only when nobody is left who could send. -/
theorem Attends.hear (h : w.Attends routerGone) (hnot : w.ended = none)
    (hnews : w.mailbox.hasNews = true) (now : ℕ) :
    (w.hear now).Attends routerGone ∧ (w.hear now).tally = w.tally := by
  unfold PlayWorker.hear Mailbox.take? Channel.take?
  cases hqueue : w.mailbox.channel.queue with
  | nil =>
    have hgone : routerGone = true := by
      cases hstays : routerGone with
      | true => rfl
      | false =>
        unfold Mailbox.hasNews at hnews
        rw [h.senders hstays, hqueue] at hnews
        cases hnews
    refine ⟨{ h with deaf := fun _ => ⟨hqueue, hgone⟩, ended := fun how hhow => ?_ }, rfl⟩
    rw [hnot] at hhow
    cases hhow
  | cons o rest =>
    have hintake := w.player.intakeCount_receive now o
    refine ⟨⟨h.cancelled, ?_, h.senders, h.isOpen, fun hdeaf => ?_, h.ended⟩, ?_⟩
    · simp only [Option.map_some, hintake]
      exact h.paced
    · have hempty := (h.deaf hdeaf).1
      rw [hqueue] at hempty
      cases hempty
    · simp only [tally, Option.map_some, hintake, hqueue, List.length_cons]
      exact (Nat.add_assoc rest.length w.player.counts.objectsReceived 1).symm.trans
        (Nat.add_right_comm _ _ _)

theorem Attends.tick (dec : DecoderFamily W) (h : w.Attends routerGone) (now deadline : ℕ) :
    (w.tick dec now deadline).Attends routerGone ∧ (w.tick dec now deadline).tally = w.tally := by
  have hintake := w.player.intakeCount_tick dec now
  unfold PlayWorker.tick
  simp only
  split
  · rename_i hover
    have hdeaf : w.listening = false := by
      rw [Bool.and_eq_true, Bool.not_eq_true'] at hover
      exact hover.1
    have hempty := h.deaf hdeaf
    refine ⟨⟨h.cancelled, ?_, h.senders, nofun, fun _ => ⟨rfl, hempty.2⟩, fun how hhow => ?_⟩, ?_⟩
    · simp only [finish, hintake]
      exact h.paced
    · cases hhow
      exact ⟨rfl, hdeaf⟩
    · simp only [tally, finish, hintake, hempty.1, Mailbox.close, Channel.close]
  · refine ⟨⟨h.cancelled, ?_, h.senders, h.isOpen, h.deaf, h.ended⟩, ?_⟩
    · simp only [hintake]
      exact h.paced
    · simp only [tally, hintake]

theorem Attends.stays_step (dec : DecoderFamily W) (h : w.Attends routerGone) (now : ℕ) :
    Stays routerGone w (w.step dec now) := by
  cases hnot : w.ended with
  | some how =>
    unfold step
    simp only [hnot]
    exact h.stays
  | none =>
    have hgoes : ∀ {w' : PlayWorker W}, w'.Attends routerGone ∧ w'.tally = w.tally →
        Stays routerGone w w' := fun hw => ⟨hw.1, hw.2, fun hended => by
      rw [isEnded, hnot] at hended
      cases hended⟩
    unfold step
    cases hat : w.tickAt with
    | none =>
      have hperiod : w.period ≠ 0 := Nat.mul_ne_zero h.paced (by decide)
      simp only [hnot]
      unfold begin
      rw [if_neg hperiod]
      exact hgoes ⟨⟨h.cancelled, h.paced, h.senders, h.isOpen, h.deaf, h.ended⟩, rfl⟩
    | some deadline =>
      simp only [hnot, h.cancelled, Bool.false_eq_true, if_false]
      split
      · rename_i hnews
        exact hgoes (h.hear hnot (Bool.and_eq_true _ _ ▸ hnews).2 now)
      · split
        · exact hgoes (h.tick dec now deadline)
        · exact h.stays

/-- What a worker has to show that has ended well. -/
theorem Attends.stopped (h : w.Attends routerGone) (hended : w.isEnded = true) {stats : PlayStats}
    (hresult : w.result = .ok stats) : w.tally = stats.objectsReceived := by
  obtain ⟨how, hhow⟩ := Option.isSome_iff_exists.mp hended
  obtain ⟨rfl, hdeaf⟩ := h.ended how hhow
  unfold result at hresult
  rw [hhow, if_neg nofun] at hresult
  cases hresult
  rw [tally, (h.deaf hdeaf).1]
  exact Nat.zero_add _

/-- A sender less, after the router has gone. -/
theorem Attends.dismiss (h : w.Attends routerGone) : w.dismiss.Attends true :=
  { h with senders := nofun, deaf := fun hdeaf => ⟨(h.deaf hdeaf).1, rfl⟩ }

/-- As long as there is a router, its players listen and go on. -/
theorem Attends.listens (h : w.Attends false) : w.listening = true := by
  cases hl : w.listening with
  | true => rfl
  | false => cases (h.deaf hl).2

theorem Attends.goes_on (h : w.Attends false) : w.ended = none := by
  cases he : w.ended with
  | none => rfl
  | some how =>
    have hdeaf := (h.ended how he).2
    rw [h.listens] at hdeaf
    cases hdeaf

/-- As long as there is a router, it can put an object into the mailbox or wait for a place. -/
theorem Attends.offer (h : w.Attends false) (who : ℕ) (o : Received) :
    (∃ c, w.mailbox.channel.offer who o = .taken c ∧
      Attends false { w with mailbox := { w.mailbox with channel := c } } ∧
      tally { w with mailbox := { w.mailbox with channel := c } } = w.tally + 1) ∨
    ∃ c, w.mailbox.channel.offer who o = .waiting c ∧
      Attends false { w with mailbox := { w.mailbox with channel := c } } ∧
      tally { w with mailbox := { w.mailbox with channel := c } } = w.tally := by
  have hlistens := h.listens
  have hopen := h.isOpen h.goes_on
  have hattends : ∀ c : Channel Received, c.isOpen = true →
      Attends false { w with mailbox := { w.mailbox with channel := c } } := fun c hc =>
    { h with
      isOpen := fun _ => hc
      deaf := fun hdeaf => by
        rw [hlistens] at hdeaf
        cases hdeaf }
  unfold Channel.offer
  rw [if_neg (by rw [hopen]; decide)]
  split
  · refine Or.inl ⟨_, rfl, hattends _ hopen, ?_⟩
    simp only [tally, List.length_append, List.length_singleton]
    exact Nat.add_right_comm _ _ _
  · exact Or.inr ⟨_, rfl, hattends _ hopen, rfl⟩

end Steps

end PlayWorker

end LiveMedia
