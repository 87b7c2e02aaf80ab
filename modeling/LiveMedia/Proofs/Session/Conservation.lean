import LiveMedia.Proofs.Session.Playing
import LiveMedia.Proofs.Session.Publishing

/-!
# Nothing is lost in a session that finishes

At every moment of a session the objects that a publisher has sent are all somewhere: held back by
the transport, in the hands of a publisher, on the channel, at the router, or with the player of
their medium. The end of a session empties these places one after the other. What the transport
holds back is the last to leave it, for the publisher that put it there still owes a flush.
-/

namespace LiveMedia
set_option autoImplicit false

/-- An object of a track that nobody plays. -/
def Received.isStranger (tracks : PerMedia ℕ) (o : Received) : Bool :=
  Media.all.all (o.track != tracks.get ·)

theorem Received.isStranger_iff {tracks : PerMedia ℕ} {o : Received} :
    o.isStranger tracks = true ↔ ∀ m, o.track ≠ tracks.get m := by
  unfold isStranger
  rw [List.all_eq_true]
  exact ⟨fun h m => bne_iff_ne.mp (h m m.mem_all), fun h m _ => bne_iff_ne.mpr (h m)⟩

namespace Weave

open SimulatedCodec PublishWorker PlayWorker

/-- Of a sort, the objects that are held back, in the hands of a publisher or on the channel. -/
def onItsWay (s : Weave) (f : Received → Bool) : ℕ :=
  s.session.link.held.toList.countP f +
    ((s.publisher .video).flight (s.resting (Session.seat .video))).countP f +
    ((s.publisher .audio).flight (s.resting (Session.seat .audio))).countP f +
    s.session.link.channel.queue.countP f

/-- Objects that the router has taken for a player. -/
def atRouter (s : Weave) (m : Media) : ℕ := s.session.router.held.toList.countP (·.1 == m)

/-- The order in which the tasks of a session come to their ends. -/
structure Orderly (tracks : PerMedia ℕ) (s : Weave) : Prop where
  distinct : ∀ m n, tracks.get m = tracks.get n → m = n
  tracks_eq : s.session.router.tracks = tracks
  inlet : s.session.inlet = none
  tidy : ∀ m, (s.publisher m).Tidy (tracks.get m)
  resting : ∀ m, s.resting (Session.seat m) = true → (s.publisher m).call.isSome = true
  held : ∀ o, s.session.link.held = some o →
    ∃ m, o.track = tracks.get m ∧ (s.publisher m).OwesFlush
  quiet : s.session.router.told = true ∨ s.session.router.draining = true ∨
    s.session.router.ended = true → ∀ m, (s.publisher m).isEnded = true
  isOpen : s.session.router.ended = false → s.session.link.channel.isOpen = true
  drained : s.session.router.ended = true →
    s.session.link.channel.queue = [] ∧ s.session.router.held = none
  attends : ∀ m, (s.player m).Attends s.session.router.ended

/-- Every object that was sent is in one place. -/
structure Balanced (tracks : PerMedia ℕ) (s : Weave) : Prop where
  balance : ∀ m, s.onItsWay (·.track == tracks.get m) + s.atRouter m + (s.player m).tally =
    (s.publisher m).given
  strangers : s.onItsWay (·.isStranger tracks) = 0
  routed : s.session.router.routed = (s.player .video).tally + (s.player .audio).tally
  unknown : s.session.router.unknown = 0

structure Sound (tracks : PerMedia ℕ) (s : Weave) : Prop
    extends Orderly tracks s, Balanced tracks s

/-- What has ended stays as it is. -/
structure Later (s t : Weave) : Prop where
  publisher : ∀ m, (s.publisher m).isEnded = true →
    (t.publisher m).isEnded = true ∧ (t.publisher m).result = (s.publisher m).result
  router : s.session.router.ended = true →
    t.session.router.ended = true ∧ t.session.router.routed = s.session.router.routed
  player : ∀ m, (s.player m).isEnded = true →
    (t.player m).isEnded = true ∧ (t.player m).result = (s.player m).result

variable {tracks : PerMedia ℕ} {s t u : Weave}

theorem Later.refl (s : Weave) : Later s s :=
  ⟨fun _ h => ⟨h, rfl⟩, fun h => ⟨h, rfl⟩, fun _ h => ⟨h, rfl⟩⟩

theorem Later.trans (h : Later s t) (h' : Later t u) : Later s u where
  publisher := fun m hended =>
    have hfirst := h.publisher m hended
    have hthen := h'.publisher m hfirst.1
    ⟨hthen.1, hthen.2.trans hfirst.2⟩
  router := fun hended =>
    have hfirst := h.router hended
    have hthen := h'.router hfirst.1
    ⟨hthen.1, hthen.2.trans hfirst.2⟩
  player := fun m hended =>
    have hfirst := h.player m hended
    have hthen := h'.player m hfirst.1
    ⟨hthen.1, hthen.2.trans hfirst.2⟩

/-- How a session goes on. -/
structure Onward (tracks : PerMedia ℕ) (s t : Weave) : Prop where
  sound : t.Sound tracks
  later : Later s t

theorem Onward.trans (h : s.Onward tracks t) (h' : t.Onward tracks u) : s.Onward tracks u :=
  ⟨h'.sound, h.later.trans h'.later⟩

section Publishers

/-- A publisher and the transport are as given, and all else is as before. -/
structure Replaces (s : Weave) (m : Media) (w : PublishWorker SimulatedCodec) (l : Lane)
    (t : Weave) : Prop where
  publisher : t.publisher m = w
  others : ∀ n, n ≠ m → t.publisher n = s.publisher n
  link : t.session.link = l.loopback
  resting : t.resting = l.resting
  router : t.session.router = s.session.router
  players : t.session.players = s.session.players
  inlet : t.session.inlet = s.session.inlet

variable {m : Media} {w : PublishWorker SimulatedCodec} {l : Lane} {sent : List Received}

theorem replaces_put (s : Weave) (m : Media) (w : PublishWorker SimulatedCodec) (l : Lane) :
    s.Replaces m (w.actOnPublisher .forgetEvents) l (s.put m w l) :=
  ⟨PerMedia.get_set _ m _, fun _ hne => PerMedia.get_set_of_ne _ hne _, rfl, rfl, rfl, rfl, rfl⟩

theorem replaces_update (s : Weave) (m : Media)
    (f : PublishWorker SimulatedCodec → PublishWorker SimulatedCodec) :
    s.Replaces m (f (s.publisher m)) s.lane (s.act (Session.updatePublisher m f)) :=
  ⟨PerMedia.get_set _ m _, fun _ hne => PerMedia.get_set_of_ne _ hne _, rfl, rfl, rfl, rfl, rfl⟩

theorem seat_injective : Function.Injective Session.seat := by
  intro m n h
  cases m <;> cases n <;> first | rfl | cases h

theorem Replaces.onItsWay_eq (h : s.Replaces m w l t)
    (hturn : Turn (tracks.get m) (Session.seat m) (s.publisher m) s.lane w l sent)
    (f : Received → Bool) : t.onItsWay f = s.onItsWay f + sent.countP f := by
  have hload := hturn.load f
  have hothers : ∀ n, n ≠ m → (t.publisher n).flight (t.resting (Session.seat n)) =
      (s.publisher n).flight (s.resting (Session.seat n)) := by
    intro n hne
    have hrest := hturn.others (Session.seat n) (seat_injective.ne hne)
    rw [h.others n hne, h.resting, hrest]
    rfl
  have hself : (t.publisher m).flight (t.resting (Session.seat m)) =
      w.flight (l.resting (Session.seat m)) := by
    rw [h.publisher, h.resting]
  unfold PublishWorker.load at hload
  unfold onItsWay
  rw [h.link]
  have hheld : s.lane.loopback = s.session.link := rfl
  have hresting : s.lane.resting = s.resting := rfl
  rw [hheld, hresting] at hload
  cases m with
  | video =>
    rw [hself, hothers .audio nofun]
    omega
  | audio =>
    rw [hself, hothers .video nofun]
    omega

theorem Replaces.orderly (h : s.Replaces m w l t) (hs : s.Orderly tracks)
    (hturn : Turn (tracks.get m) (Session.seat m) (s.publisher m) s.lane w l sent) :
    t.Orderly tracks where
  distinct := hs.distinct
  tracks_eq := h.router ▸ hs.tracks_eq
  inlet := h.inlet.trans hs.inlet
  tidy := fun n => by
    by_cases hn : n = m
    · subst hn
      exact h.publisher ▸ hturn.tidy
    · exact h.others n hn ▸ hs.tidy n
  resting := fun n hrest => by
    rw [h.resting] at hrest
    by_cases hn : n = m
    · subst hn
      exact h.publisher ▸ hturn.resting hrest
    · rw [hturn.others _ (seat_injective.ne hn)] at hrest
      exact h.others n hn ▸ hs.resting n hrest
  held := fun o ho => by
    rw [h.link] at ho
    rcases hturn.held o ho with ⟨hkept, howes⟩ | ⟨htrack, howes⟩
    · obtain ⟨n, htrack, hn⟩ := hs.held o hkept
      refine ⟨n, htrack, ?_⟩
      by_cases hnm : n = m
      · subst hnm
        exact h.publisher ▸ howes hn
      · exact h.others n hnm ▸ hn
    · exact ⟨m, htrack, h.publisher ▸ howes⟩
  quiet := fun hover n => by
    rw [h.router] at hover
    have hended := hs.quiet hover n
    by_cases hn : n = m
    · subst hn
      exact h.publisher ▸ (hturn.ended hended).1
    · exact h.others n hn ▸ hended
  isOpen := fun hgoes => by
    rw [h.router] at hgoes
    rw [h.link, hturn.isOpen]
    exact hs.isOpen hgoes
  drained := fun hgone => by
    -- The router goes after the publishers, and a publisher that has ended touches nothing.
    rw [h.router] at hgone ⊢
    have hsame := (hturn.ended (hs.quiet (Or.inr (Or.inr hgone)) m)).2.2
    rw [h.link, hsame]
    exact hs.drained hgone
  attends := fun n => by
    have hplayer : t.player n = s.player n := congrArg (PerMedia.get · n) h.players
    rw [h.router, hplayer]
    exact hs.attends n

theorem Replaces.balanced (h : s.Replaces m w l t) (hs : s.Sound tracks)
    (hturn : Turn (tracks.get m) (Session.seat m) (s.publisher m) s.lane w l sent) :
    t.Balanced tracks := by
  have hplayer : ∀ n, t.player n = s.player n := fun n => congrArg (PerMedia.get · n) h.players
  refine ⟨fun n => ?_, ?_, ?_, ?_⟩
  · -- What the publisher has sent is of its own track, and new on the way there.
    have hbalance := hs.balance n
    rw [h.onItsWay_eq hturn, hplayer, atRouter, h.router]
    unfold atRouter at hbalance
    by_cases hn : n = m
    · subst hn
      have hall : sent.countP (·.track == tracks.get n) = sent.length :=
        List.countP_eq_length.mpr fun o ho => beq_iff_eq.mpr (hturn.track_eq o ho)
      rw [hall, h.publisher, hturn.given, ← hbalance]
      omega
    · have hnone : sent.countP (·.track == tracks.get n) = 0 :=
        List.countP_eq_zero.mpr fun o ho heq =>
          hn (hs.distinct n m ((beq_iff_eq.mp heq).symm.trans (hturn.track_eq o ho)))
      rw [hnone, h.others n hn, ← hbalance]
      rfl
  · have hnone : sent.countP (·.isStranger tracks) = 0 :=
      List.countP_eq_zero.mpr fun o ho hstrange =>
        Received.isStranger_iff.mp hstrange m (hturn.track_eq o ho)
    rw [h.onItsWay_eq hturn, hs.strangers, hnone]
  · rw [h.router, hplayer, hplayer]
    exact hs.routed
  · rw [h.router]
    exact hs.unknown

theorem Replaces.later (h : s.Replaces m w l t)
    (hturn : Turn (tracks.get m) (Session.seat m) (s.publisher m) s.lane w l sent) : Later s t where
  publisher := fun n hended => by
    by_cases hn : n = m
    · subst hn
      rw [h.publisher]
      exact ⟨(hturn.ended hended).1, (hturn.ended hended).2.1⟩
    · rw [h.others n hn]
      exact ⟨hended, rfl⟩
  router := fun hended => ⟨(congrArg Router.ended h.router).trans hended,
    congrArg Router.routed h.router⟩
  player := fun n hended => by
    have hplayer : t.player n = s.player n := congrArg (PerMedia.get · n) h.players
    rw [hplayer]
    exact ⟨hended, rfl⟩

theorem Sound.turn (hs : s.Sound tracks) (h : s.Replaces m w l t)
    (hturn : Turn (tracks.get m) (Session.seat m) (s.publisher m) s.lane w l sent) :
    s.Onward tracks t :=
  ⟨⟨h.orderly hs.toOrderly hturn, h.balanced hs hturn⟩, h.later hturn⟩

theorem Sound.still (hs : s.Sound tracks)
    {f : PublishWorker SimulatedCodec → PublishWorker SimulatedCodec}
    (hf : Still (tracks.get m) (s.publisher m) (f (s.publisher m))) :
    s.Onward tracks (s.act (Session.updatePublisher m f)) :=
  hs.turn (replaces_update s m f) (hf.turn (hs.resting m))

theorem Sound.step_publish (hs : s.Sound tracks) (now : ℕ) :
    s.Onward tracks (s.step (.publish m now)) := by
  have hopen : (s.publisher m).isEnded = false → s.session.link.channel.isOpen = true := by
    intro hnot
    refine hs.isOpen (Bool.eq_false_iff.mpr fun hgone => ?_)
    rw [hs.quiet (Or.inr (Or.inr hgone)) m] at hnot
    cases hnot
  obtain ⟨sent, hturn⟩ := (hs.tidy m).turn_step m now (l := s.lane) (hs.resting m) hopen
  exact hs.turn (replaces_put s m _ _) (hturn.still (hturn.tidy.still_act rfl rfl rfl))

end Publishers

section Players

variable {m : Media} {w : PlayWorker SimulatedCodec}

/-- A player is as given, and all else but the events is as before. -/
structure Seats (s : Weave) (m : Media) (w : PlayWorker SimulatedCodec) (t : Weave) : Prop where
  player : t.player m = w
  others : ∀ n, n ≠ m → t.player n = s.player n
  lane : t.lane = s.lane
  router : t.session.router = s.session.router
  publishers : t.session.publishers = s.session.publishers
  inlet : t.session.inlet = s.session.inlet

theorem Sound.stays (hs : s.Sound tracks) (h : s.Seats m w t)
    (hw : Stays s.session.router.ended (s.player m) w) : s.Onward tracks t := by
  have hpublisher : ∀ n, t.publisher n = s.publisher n :=
    fun n => congrArg (PerMedia.get · n) h.publishers
  have hlink : t.session.link = s.session.link := congrArg Lane.loopback h.lane
  have hresting : t.resting = s.resting := congrArg Lane.resting h.lane
  have htally : ∀ n, (t.player n).tally = (s.player n).tally := by
    intro n
    by_cases hn : n = m
    · subst hn
      rw [h.player, hw.tally_eq]
    · rw [h.others n hn]
  have hattends : ∀ n, (t.player n).Attends t.session.router.ended := by
    intro n
    rw [h.router]
    by_cases hn : n = m
    · subst hn
      exact h.player ▸ hw.attends
    · exact h.others n hn ▸ hs.attends n
  have hway : ∀ f, t.onItsWay f = s.onItsWay f := by
    intro f
    unfold onItsWay
    rw [hpublisher, hpublisher, hlink, hresting]
  refine ⟨⟨?_, ?_⟩, ?_⟩
  · refine ⟨hs.distinct, h.router ▸ hs.tracks_eq, h.inlet.trans hs.inlet, ?_, ?_, ?_, ?_, ?_, ?_,
      hattends⟩
    all_goals
      simp only [hpublisher, hlink, hresting, h.router]
    · exact hs.tidy
    · exact hs.resting
    · exact hs.held
    · exact hs.quiet
    · exact hs.isOpen
    · exact hs.drained
  · refine ⟨fun n => ?_, ?_, ?_, ?_⟩
    · rw [hway, htally, hpublisher, atRouter, h.router]
      exact hs.balance n
    · rw [hway]
      exact hs.strangers
    · rw [h.router, htally, htally]
      exact hs.routed
    · rw [h.router]
      exact hs.unknown
  · refine ⟨fun n hended => ?_, fun hended => ⟨(congrArg Router.ended h.router).trans hended,
      congrArg Router.routed h.router⟩, fun n hended => ?_⟩
    · rw [hpublisher]
      exact ⟨hended, rfl⟩
    · by_cases hn : n = m
      · subst hn
        rw [h.player]
        exact hw.ended hended
      · rw [h.others n hn]
        exact ⟨hended, rfl⟩

theorem Sound.step_play (hs : s.Sound tracks) (m : Media) (now : ℕ) :
    s.Onward tracks (s.step (.play m now)) := by
  have hstep := (hs.attends m).stays_step decoders now
  refine hs.stays (m := m) ⟨PerMedia.get_set _ m _, fun _ hne => PerMedia.get_set_of_ne _ hne _,
    rfl, rfl, rfl, rfl⟩ (hstep.trans ?_)
  exact hstep.attends.stays_act rfl rfl

end Players

section Routing

theorem Sound.mediaOf? (hs : s.Sound tracks) {o : Received} {rest : List Received}
    (hqueue : s.session.link.channel.queue = o :: rest) :
    ∃ m, s.session.router.mediaOf? o.track = some m ∧ o.track = tracks.get m := by
  unfold Router.mediaOf?
  rw [hs.tracks_eq]
  split
  · rename_i hvideo
    exact ⟨.video, rfl, hvideo⟩
  · rename_i hvideo
    split
    · rename_i haudio
      exact ⟨.audio, rfl, haudio⟩
    · rename_i haudio
      have hnone := hs.strangers
      have hstrange : o.isStranger tracks = true :=
        Received.isStranger_iff.mpr fun m => by
          cases m with
          | video => exact hvideo
          | audio => exact haudio
      unfold onItsWay at hnone
      rw [hqueue, List.countP_cons, if_pos hstrange] at hnone
      omega

/-- Objects of a medium on the channel or beyond it. -/
def downstream (tracks : PerMedia ℕ) (s : Weave) (m : Media) : ℕ :=
  s.session.link.channel.queue.countP (·.track == tracks.get m) + s.atRouter m +
    (s.player m).tally

/-- What the router does leaves the publishers alone, and moves objects that are downstream. -/
structure Routes (tracks : PerMedia ℕ) (s t : Weave) : Prop where
  publishers : t.session.publishers = s.session.publishers
  resting : t.resting = s.resting
  held : t.session.link.held = s.session.link.held
  inlet : t.session.inlet = s.session.inlet
  tracks_eq : t.session.router.tracks = s.session.router.tracks
  unknown : t.session.router.unknown = s.session.router.unknown
  downstream : ∀ m, t.downstream tracks m = s.downstream tracks m
  queue : t.session.link.channel.queue.Sublist s.session.link.channel.queue

theorem Sound.route (hs : s.Sound tracks) (h : s.Routes tracks t)
    (hquiet : t.session.router.told = true ∨ t.session.router.draining = true ∨
      t.session.router.ended = true → ∀ m, (s.publisher m).isEnded = true)
    (hopen : t.session.router.ended = false → t.session.link.channel.isOpen = true)
    (hdrained : t.session.router.ended = true →
      t.session.link.channel.queue = [] ∧ t.session.router.held = none)
    (hattends : ∀ m, (t.player m).Attends t.session.router.ended)
    (hrouted : t.session.router.routed = (t.player .video).tally + (t.player .audio).tally) :
    t.Sound tracks := by
  have hpublisher : ∀ m, t.publisher m = s.publisher m :=
    fun m => congrArg (PerMedia.get · m) h.publishers
  refine ⟨⟨hs.distinct, h.tracks_eq.trans hs.tracks_eq, h.inlet.trans hs.inlet, ?_, ?_, ?_, ?_,
    hopen, hdrained, hattends⟩, ⟨fun m => ?_, ?_, hrouted, h.unknown.trans hs.unknown⟩⟩
  · simpa only [hpublisher] using hs.tidy
  · simpa only [hpublisher, h.resting] using hs.resting
  · simpa only [hpublisher, h.held] using hs.held
  · simpa only [hpublisher] using hquiet
  · have hbalance := hs.balance m
    have hdownstream := h.downstream m
    unfold onItsWay at hbalance ⊢
    unfold Weave.downstream at hdownstream
    rw [hpublisher, hpublisher, hpublisher, h.held, h.resting]
    omega
  · have hnone := hs.strangers
    have hfewer := h.queue.countP_le (p := (·.isStranger tracks))
    unfold onItsWay at hnone ⊢
    rw [hpublisher, hpublisher, h.held, h.resting]
    omega

/-- The router is told to stop, or sees that nothing more will come in. -/
theorem Sound.drain (hs : s.Sound tracks) (hquiet : ∀ m, (s.publisher m).isEnded = true) :
    Sound tracks { s with session := { s.session with
      router := { s.session.router with draining := true } } } :=
  hs.route ⟨rfl, rfl, rfl, rfl, rfl, rfl, fun _ => rfl, .refl _⟩ (fun _ => hquiet) hs.isOpen
    hs.drained hs.attends hs.routed

theorem Sound.take (hs : s.Sound tracks) {o : Received} {rest : List Received}
    (hqueue : s.session.link.channel.queue = o :: rest) (hheld : s.session.router.held = none)
    (hgoes : s.session.router.ended = false) :
    Sound tracks { s with session := { s.session with
      link := { s.session.link with channel := { s.session.link.channel with queue := rest } }
      router := s.session.router.take o } } := by
  obtain ⟨m, hmedia, htrack⟩ := hs.mediaOf? hqueue
  have htake : s.session.router.take o = { s.session.router with held := some (m, o) } := by
    unfold Router.take
    rw [hmedia]
  rw [htake]
  refine hs.route ⟨rfl, rfl, rfl, rfl, rfl, rfl, fun n => ?_, ?_⟩ hs.quiet hs.isOpen
    (fun hgone => ?_) hs.attends hs.routed
  · unfold downstream atRouter
    simp only [hqueue, hheld, List.countP_cons, htrack, beq_iff_eq]
    by_cases hn : m = n
    · subst hn
      simp [player]
    · have hne : ¬ tracks.get m = tracks.get n := fun heq => hn (hs.distinct m n heq)
      simp [hn, hne, player]
  · rw [hqueue]
    exact List.sublist_cons_self o rest
  · rw [show s.session.router.ended = true from hgone] at hgoes
    cases hgoes

theorem Sound.handOver_cases (hs : s.Sound tracks) (hgoes : s.session.router.ended = false)
    (m : Media) (o : Received) : ∃ w : PlayWorker SimulatedCodec, w.Attends false ∧
      (s.session.handOver m o = { s.session with
          players := s.session.players.set m w
          router := s.session.router.settle true } ∧ w.tally = (s.player m).tally + 1 ∨
        s.session.handOver m o = { s.session with players := s.session.players.set m w } ∧
          w.tally = (s.player m).tally) := by
  have hlistens : (s.player m).Attends false := hgoes ▸ hs.attends m
  unfold Session.handOver
  rcases hlistens.offer Session.routerSeat o with ⟨c, hoffer, hw, htally⟩ | ⟨c, hoffer, hw, htally⟩
  · refine ⟨_, hw, Or.inl ⟨?_, htally⟩⟩
    simp only [player] at hoffer
    simp only [hoffer]
    rfl
  · refine ⟨_, hw, Or.inr ⟨?_, htally⟩⟩
    simp only [player] at hoffer
    simp only [hoffer]
    rfl

/-- As long as there is a router, no player has ended. -/
theorem Sound.later_of_going (hs : s.Sound tracks) (hgoes : s.session.router.ended = false)
    (hpublishers : t.session.publishers = s.session.publishers) : Later s t where
  publisher := fun m hended => by
    have hpublisher : t.publisher m = s.publisher m := congrArg (PerMedia.get · m) hpublishers
    rw [hpublisher]
    exact ⟨hended, rfl⟩
  router := fun hended => by
    rw [hgoes] at hended
    cases hended
  player := fun m hended => by
    have hattends := hs.attends m
    rw [hgoes] at hattends
    rw [PlayWorker.isEnded, hattends.goes_on] at hended
    cases hended

/-- The router hands an object over, or waits in line. -/
theorem Sound.handOver (hs : s.Sound tracks) {m : Media} {o : Received}
    (hheld : s.session.router.held = some (m, o)) (hgoes : s.session.router.ended = false) :
    s.Onward tracks { s with session := s.session.handOver m o } := by
  obtain ⟨w, hw, hcases⟩ := hs.handOver_cases hgoes m o
  have hattends : ∀ n, ((s.session.players.set m w).get n).Attends s.session.router.ended := by
    intro n
    rw [hgoes]
    by_cases hn : n = m
    · subst hn
      rwa [PerMedia.get_set]
    · rw [PerMedia.get_set_of_ne _ hn]
      exact hgoes ▸ hs.attends n
  have hgone : ∀ {p : Prop}, s.session.router.ended = true → p := fun hgone => by
    rw [hgoes] at hgone
    cases hgone
  have hrouted := hs.routed
  rcases hcases with ⟨heq, htally⟩ | ⟨heq, htally⟩
  · rw [heq]
    refine ⟨hs.route ⟨rfl, rfl, rfl, rfl, rfl, rfl, fun n => ?_, .refl _⟩ hs.quiet hs.isOpen hgone
      hattends ?_, hs.later_of_going hgoes rfl⟩
    · simp only [downstream, atRouter, player, Router.settle, hheld]
      by_cases hn : n = m
      · subst hn
        rw [PerMedia.get_set, htally]
        simp [player]
        omega
      · rw [PerMedia.get_set_of_ne _ hn]
        simp [Ne.symm hn]
    · change s.session.router.routed + 1 = _
      cases m with
      | video =>
        change _ = w.tally + (s.player .audio).tally
        omega
      | audio =>
        change _ = (s.player .video).tally + w.tally
        omega
  · rw [heq]
    refine ⟨hs.route ⟨rfl, rfl, rfl, rfl, rfl, rfl, fun n => ?_, .refl _⟩ hs.quiet hs.isOpen hgone
      hattends ?_, hs.later_of_going hgoes rfl⟩
    · simp only [downstream, atRouter, player]
      by_cases hn : n = m
      · subst hn
        rw [PerMedia.get_set, htally]
        rfl
      · rw [PerMedia.get_set_of_ne _ hn]
    · cases m with
      | video =>
        change _ = w.tally + (s.player .audio).tally
        exact htally ▸ hrouted
      | audio =>
        change _ = (s.player .video).tally + w.tally
        exact htally ▸ hrouted

/-- When the channel is empty, the router goes. -/
theorem Sound.endRouter (hs : s.Sound tracks) (hqueue : s.session.link.channel.queue = [])
    (hheld : s.session.router.held = none) (hdraining : s.session.router.draining = true) :
    Sound tracks { s with session := s.session.endRouter } := by
  unfold Session.endRouter
  simp only [hs.inlet]
  refine hs.route ⟨rfl, rfl, rfl, hs.inlet.symm, rfl, rfl, fun n => ?_, ?_⟩
    (fun _ => hs.quiet (Or.inr (Or.inl hdraining))) nofun (fun _ => ⟨rfl, hheld⟩) (fun n => ?_) ?_
  · simp only [downstream, atRouter, player, PerMedia.get_map, hqueue]
    rfl
  · exact List.nil_sublist _
  · simp only [player, PerMedia.get_map]
    exact (hs.attends n).dismiss
  · exact hs.routed

/-- What the router finds on the channel. -/
theorem Orderly.inbound? (hs : s.Orderly tracks) :
    s.session.link.channel.queue = [] ∧ s.session.inbound? = none ∨
      ∃ o rest, s.session.link.channel.queue = o :: rest ∧ s.session.inbound? = some (o,
        { s.session with link := { s.session.link with
          channel := { s.session.link.channel with queue := rest } } }) := by
  unfold Session.inbound? Channel.take?
  cases hqueue : s.session.link.channel.queue with
  | nil => exact Or.inl ⟨rfl, by simp only [hs.inlet, Option.map_none]⟩
  | cons o rest => exact Or.inr ⟨o, rest, rfl, by simp only [hs.inlet, Option.map_some]⟩

theorem Orderly.quiet_of_over (hs : s.Orderly tracks) (hover : s.session.inboundIsOver = true) :
    ∀ m, (s.publisher m).isEnded = true := by
  unfold Session.inboundIsOver at hover
  simp only [hs.inlet, Bool.and_eq_true] at hover
  intro m
  cases m with
  | video => exact hover.1.2
  | audio => exact hover.2

theorem Sound.stepRouter (hs : s.Sound tracks) (hgoes : s.session.router.ended = false) :
    s.Onward tracks (s.act Session.stepRouter) := by
  have hend : s.session.endRouter.publishers = s.session.publishers := by
    unfold Session.endRouter
    simp only [hs.inlet]
  unfold act Session.stepRouter
  simp only
  split
  · rename_i m o hheld
    exact hs.handOver hheld hgoes
  · rename_i hheld
    split
    · rename_i htold
      have htold := (Bool.and_eq_true _ _ ▸ htold).1
      exact ⟨hs.drain (hs.quiet (Or.inl htold)), hs.later_of_going hgoes rfl⟩
    · rcases hs.inbound? with ⟨hqueue, hinbound⟩ | ⟨o, rest, hqueue, hinbound⟩
      · rw [hinbound]
        simp only
        split
        · rename_i hdraining
          exact ⟨hs.endRouter hqueue hheld hdraining, hs.later_of_going hgoes hend⟩
        · split
          · rename_i hover
            exact ⟨hs.drain (hs.quiet_of_over hover), hs.later_of_going hgoes rfl⟩
          · exact ⟨hs, .refl s⟩
      · rw [hinbound]
        exact ⟨hs.take hqueue hheld hgoes, hs.later_of_going hgoes rfl⟩

theorem Sound.step_route (hs : s.Sound tracks) : s.Onward tracks (s.step .route) := by
  change s.Onward tracks (if s.session.router.ended then s else s.act Session.stepRouter)
  split
  · exact ⟨hs, .refl s⟩
  · rename_i hgone
    exact hs.stepRouter (Bool.eq_false_iff.mpr hgone)

end Routing

section Runs

theorem seats_update (s : Weave) (m : Media)
    (f : PlayWorker SimulatedCodec → PlayWorker SimulatedCodec) :
    s.Seats m (f (s.player m)) (s.act (Session.updatePlayer m f)) :=
  ⟨PerMedia.get_set _ m _, fun _ hne => PerMedia.get_set_of_ne _ hne _, rfl, rfl, rfl, rfl⟩

theorem Sound.step (hs : s.Sound tracks) (move : Move) : s.Onward tracks (s.step move) := by
  cases move with
  | publish m now => exact hs.step_publish now
  | play m now => exact hs.step_play m now
  | route => exact hs.step_route
  | disturbEncoder m f => exact hs.still ((hs.tidy m).still_act rfl rfl rfl)
  | disturbDecoder m run =>
    have hstats : ((s.player m).player.actOnCodec run).stats = (s.player m).player.stats := by
      obtain ⟨_, _, h⟩ := (s.player m).player.actOnCodec_footprint run
      rw [h]
      rfl
    exact hs.stays (seats_update s m _)
      ((hs.attends m).stays_act ((s.player m).player.intakeCount_actOnCodec run) hstats)
  | look m f => exact hs.stays (seats_update s m _) ((hs.attends m).stays_act rfl rfl)
  | attach m source => exact hs.still ((hs.tidy m).still_post (.attach source))

theorem Sound.run (hs : s.Sound tracks) (moves : List Move) : s.Onward tracks (s.run moves) := by
  induction moves generalizing s with
  | nil => exact ⟨hs, .refl s⟩
  | cons move rest ih => exact (hs.step move).trans (ih (hs.step move).sound)

theorem Onward.awaits (h : s.Onward tracks t) {done : Session SimulatedCodec → Bool}
    (hwait : t.Awaits u done) : s.Onward tracks u := by
  obtain ⟨⟨moves, rfl⟩, _⟩ := hwait
  exact h.trans (h.sound.run moves)

theorem Sound.dismissPublisher (hs : s.Sound tracks) (m : Media) :
    s.Onward tracks (s.act (Session.updatePublisher m PublishWorker.dismiss)) :=
  hs.still ((hs.tidy m).still_mailbox _)

theorem Sound.tellRouter (hs : s.Sound tracks) (hquiet : ∀ m, (s.publisher m).isEnded = true) :
    s.Onward tracks (s.act Session.tellRouter) :=
  ⟨hs.route ⟨rfl, rfl, rfl, rfl, rfl, rfl, fun _ => rfl, .refl _⟩ (fun _ => hquiet) hs.isOpen
    hs.drained hs.attends hs.routed,
    ⟨fun _ hended => ⟨hended, rfl⟩, fun hended => ⟨hended, rfl⟩, fun _ hended => ⟨hended, rfl⟩⟩⟩

theorem Sound.dismissPlayer (hs : s.Sound tracks) (hgone : s.session.router.ended = true)
    (m : Media) : s.Onward tracks (s.act (Session.updatePlayer m PlayWorker.dismiss)) :=
  hs.stays (seats_update s m _) ⟨hgone ▸ (hs.attends m).dismiss, rfl, fun hended => ⟨hended, rfl⟩⟩

/-- When all have ended, every object is with its player. -/
theorem Sound.conserved (hs : s.Sound tracks) (hgone : s.session.router.ended = true)
    (encode : PerMedia PublishStats) (decode : PerMedia PlayStats)
    (hpublished : ∀ m, (s.publisher m).isEnded = true ∧
      (s.publisher m).result = .ok (encode.get m))
    (hplayed : ∀ m, (s.player m).isEnded = true ∧ (s.player m).result = .ok (decode.get m)) :
    (∀ m, (decode.get m).objectsReceived =
      (encode.get m).chunksSent + (encode.get m).endOfGroupMarkers) ∧
    (∀ m, (encode.get m).sendFailures = 0) ∧
    s.session.router.routed = decode.video.objectsReceived + decode.audio.objectsReceived := by
  have hpublisher := fun m => (hs.tidy m).stopped (hpublished m).1 (hpublished m).2
  have hplayer := fun m => (hs.attends m).stopped (hplayed m).1 (hplayed m).2
  -- An object held back would have a publisher that owes the flush, and none does any more.
  have hheld : s.session.link.held = none := by
    cases hheld : s.session.link.held with
    | none => rfl
    | some o =>
      obtain ⟨m, _, howes⟩ := hs.held o hheld
      exact absurd howes (hpublisher m).2.1
  have hflight : ∀ m resting, (s.publisher m).flight resting = [] := by
    intro m resting
    unfold flight
    rw [(hpublisher m).1]
  have hway : ∀ f, s.onItsWay f = 0 := by
    intro f
    unfold onItsWay
    rw [hheld, hflight, hflight, (hs.drained hgone).1]
    rfl
  have hrouter : ∀ m, s.atRouter m = 0 := by
    intro m
    unfold atRouter
    rw [(hs.drained hgone).2]
    rfl
  refine ⟨fun m => ?_, fun m => (hpublisher m).2.2.1, ?_⟩
  · rw [← (hpublisher m).2.2.2, ← hs.balance m, hway, hrouter, hplayer]
    omega
  · rw [hs.routed, hplayer, hplayer]
    rfl

theorem Sound.finishes (hs : s.Sound tracks) {stats : SessionStats} (h : s.Finishes stats) :
    stats.Conserved := by
  obtain ⟨s₁, s₂, s₃, s₄, s₅, hvideo, hvideoResult, haudio, haudioResult, hrouter, hvideoPlayed,
    hvideoCounts, haudioPlayed, haudioCounts⟩ := h
  -- Each stage ends some tasks for good; what they have counted is read off at the last one.
  have h₁ := (hs.dismissPublisher .video).awaits hvideo
  have h₂ := (h₁.sound.dismissPublisher .audio).awaits haudio
  have hvideo₂ := h₂.later.publisher .video hvideo.2
  have hquiet : ∀ m, (s₂.publisher m).isEnded = true := fun m => by
    cases m with
    | video => exact hvideo₂.1
    | audio => exact haudio.2
  have h₃ := (h₂.sound.tellRouter hquiet).awaits hrouter
  have h₄ := (h₃.sound.dismissPlayer hrouter.2 .video).awaits hvideoPlayed
  have hrouter₄ := h₄.later.router hrouter.2
  have h₅ := (h₄.sound.dismissPlayer hrouter₄.1 .audio).awaits haudioPlayed
  have hrouter₅ := h₅.later.router hrouter₄.1
  have hvideo₅ := (h₃.trans (h₄.trans h₅)).later.publisher .video hvideo₂.1
  have haudio₅ := (h₃.trans (h₄.trans h₅)).later.publisher .audio haudio.2
  have hvideoPlayed₅ := h₅.later.player .video hvideoPlayed.2
  have hends := h₅.sound.conserved hrouter₅.1 ⟨_, _⟩ ⟨_, _⟩
    (fun m => by
      cases m with
      | video => exact ⟨hvideo₅.1, hvideo₅.2.trans (hvideo₂.2.trans hvideoResult)⟩
      | audio => exact ⟨haudio₅.1, haudio₅.2.trans haudioResult⟩)
    (fun m => by
      cases m with
      | video => exact ⟨hvideoPlayed₅.1, hvideoPlayed₅.2.trans hvideoCounts⟩
      | audio => exact ⟨haudioPlayed.2, haudioCounts⟩)
  exact ⟨hends.1, hends.2.1, (hrouter₅.2.trans hrouter₄.2).symm.trans hends.2.2,
    h₃.sound.unknown⟩

end Runs

section Sessions

variable {settings : Settings}

theorem track_ne_of_validate (h : settings.validate = .ok ()) :
    settings.video.trackAlias ≠ settings.audio.trackAlias := by
  intro heq
  unfold Settings.validate Settings.defect? at h
  rw [if_pos heq] at h
  split at h
  · cases h
  · rename_i hdefect
    split at hdefect <;> cases hdefect

theorem sound_start (h : settings.validate = .ok ()) (encoders decoders : PerMedia SimulatedCodec)
    (capacity : ℕ) (p : Float) (chance : ℕ → Bool) (now : ℕ) :
    Sound ⟨settings.video.trackAlias, settings.audio.trackAlias⟩
      (start settings encoders decoders (.make capacity p chance) now) := by
  have hpaced : ∀ m, ((settings.media m).playSettings m).playoutInterval ≠ 0 := by
    intro m
    unfold MediaSettings.playSettings
    simp only
    omega
  refine ⟨⟨fun m n hmn => ?_, rfl, rfl, fun m => ?_, fun _ => nofun, fun _ => nofun, ?_,
    fun _ => rfl, nofun, fun m => ?_⟩, ⟨fun m => ?_, rfl, rfl, rfl⟩⟩
  · have hne := track_ne_of_validate h
    cases m with
    | video =>
      cases n with
      | video => rfl
      | audio => exact absurd hmn hne
    | audio =>
      cases n with
      | video => exact absurd hmn.symm hne
      | audio => rfl
  · cases m <;> exact ⟨rfl, rfl, rfl, rfl, fun _ => nofun, fun _ => ⟨rfl, rfl, rfl⟩⟩
  · rintro (hover | hover | hover) <;> cases hover
  · cases m with
    | video => exact ⟨rfl, hpaced .video, fun _ => rfl, fun _ => rfl, nofun, fun _ => nofun⟩
    | audio => exact ⟨rfl, hpaced .audio, fun _ => rfl, fun _ => rfl, nofun, fun _ => nofun⟩
  · cases m <;> rfl

/-- However the tasks of a session interleave, whatever streams its publishers are given and
whatever goes wrong with its codecs: when it has finished, each player has received exactly the
objects that its publisher sent, and the router has met no others. -/
theorem session_conserves (hvalid : settings.validate = .ok ())
    {encoders decoders : PerMedia SimulatedCodec} {capacity : ℕ} {p : Float} {chance : ℕ → Bool}
    {now : ℕ} {moves : List Move} {stats : SessionStats}
    (hfinish : ((start settings encoders decoders (.make capacity p chance) now).run moves).Finishes
      stats) : stats.Conserved :=
  ((sound_start hvalid encoders decoders capacity p chance now).run moves).sound.finishes hfinish

/-- Every task goes on once at each of these times. -/
def rounds (times : List ℕ) : List Move :=
  times.flatMap fun now =>
    [.publish .video now, .publish .audio now, .route, .play .video now, .play .audio now]

/-- A video stream is replaced while it is sent, over a transport that swaps neighbours and has room
for one object. -/
def replacedStream : Weave :=
  (start {} ⟨{}, {}⟩ ⟨{}, {}⟩ (.make 1 1.0) 0).run
    ([.attach .video (.ofFrames [⟨0, none, 1⟩, ⟨1, none, 1⟩]),
      .attach .audio (.ofFrames [⟨0, none, 1⟩])] ++ rounds (List.replicate 7 0) ++
      [.attach .video (.ofFrames [⟨0, none, 1⟩])])

theorem finishes_replacedStream :
    ∃ stats : SessionStats, replacedStream.Finishes stats ∧ stats.routed = 4 := by
  have hwait : ∀ {s : Weave} {done : Session SimulatedCodec → Bool} (moves : List Move),
      done (s.run moves).session = true → s.Awaits (s.run moves) done :=
    fun moves hdone => ⟨⟨moves, rfl⟩, hdone⟩
  have hpublished : ∀ {w : PublishWorker SimulatedCodec},
      w.result.isOk = true → w.result = .ok w.publisher.stats := by
    intro w hok
    unfold PublishWorker.result at hok ⊢
    split
    · rename_i hfailed
      rw [hfailed] at hok
      cases hok
    · rfl
  have hplayed : ∀ {w : PlayWorker SimulatedCodec}, w.ended ≠ some .failed →
      w.result = .ok w.player.stats := fun hended => if_neg hended
  refine ⟨_, .intro _ _ _ _ _ (hwait (rounds (List.replicate 20 0)) ?_) (hpublished ?_)
    (hwait (rounds [0]) ?_) (hpublished ?_) (hwait (rounds [0, 0]) ?_)
    (hwait (rounds [1000000, 2000000, 3000000]) ?_) (hplayed ?_)
    (hwait (rounds [4000000, 5000000]) ?_) (hplayed ?_), ?_⟩
  all_goals decide +kernel

theorem replaced_stream_conserved : ({} : Settings).validate = .ok () ∧ ∃ stats : SessionStats,
    replacedStream.Finishes stats ∧ stats.routed = 4 ∧ stats.Conserved := by
  obtain ⟨stats, hfinish, hrouted⟩ := finishes_replacedStream
  exact ⟨rfl, stats, hfinish, hrouted, session_conserves rfl hfinish⟩

end Sessions

end Weave

end LiveMedia
