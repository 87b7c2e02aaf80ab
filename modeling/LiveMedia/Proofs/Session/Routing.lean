import Mathlib.Data.List.Infix
import LiveMedia.Proofs.Session.Conservation

/-!
# What the router does with what comes in

Objects come in while the router goes on, the players take what they are sent, and at some moment
the router is told to stop. Whatever the order of all this, each object is handed to the player of
its track, behind those that came in before it, or counted as one of a track that nobody plays.
-/

namespace LiveMedia
set_option autoImplicit false

namespace Session

variable {W : Type} {s : Session W}

/-- Where objects come in. -/
def inboundChannel (s : Session W) : Channel Received :=
  match s.inlet with
  | some inlet => inlet.channel
  | none => s.link.channel

def onInbound (f : Channel Received → Channel Received) (s : Session W) : Session W :=
  match s.inlet with
  | some inlet => { s with inlet := some { inlet with channel := f inlet.channel } }
  | none => { s with link := { s.link with channel := f s.link.channel } }

/-- What has come in and is not yet with the router. -/
def inbound (s : Session W) : List Received := s.inboundChannel.queue

/-- What has been handed to a player and not yet been taken by it. -/
def pending (s : Session W) (m : Media) : List Received := (s.players.get m).mailbox.channel.queue

@[simp] theorem inboundChannel_onInbound (f : Channel Received → Channel Received)
    (s : Session W) : (s.onInbound f).inboundChannel = f s.inboundChannel := by
  unfold onInbound inboundChannel
  cases s.inlet <;> rfl

@[simp] theorem router_onInbound (f : Channel Received → Channel Received) (s : Session W) :
    (s.onInbound f).router = s.router := by
  unfold onInbound
  cases s.inlet <;> rfl

@[simp] theorem players_onInbound (f : Channel Received → Channel Received) (s : Session W) :
    (s.onInbound f).players = s.players := by
  unfold onInbound
  cases s.inlet <;> rfl

theorem inbound?_eq (s : Session W) :
    s.inbound? = s.inboundChannel.take?.map fun taken =>
      (taken.1, s.onInbound fun _ => taken.2) := by
  obtain ⟨publishers, players, router, link, inlet, events⟩ := s
  cases inlet with
  | none => rfl
  | some inlet =>
    unfold inbound? inboundChannel onInbound Mailbox.take?
    simp only
    cases inlet.channel.take? <;> rfl

theorem inbound?_eq_none (h : s.inbound? = none) : s.inbound = [] := by
  rw [inbound?_eq, Option.map_eq_none_iff] at h
  unfold inbound
  unfold Channel.take? at h
  split at h
  · assumption
  · cases h

theorem inbound?_eq_some {o : Received} {t : Session W} (h : s.inbound? = some (o, t)) :
    ∃ rest, s.inbound = o :: rest ∧ t = s.onInbound fun c => { c with queue := rest } := by
  rw [inbound?_eq, Option.map_eq_some_iff] at h
  obtain ⟨⟨a, c⟩, htake, heq⟩ := h
  obtain ⟨rfl, rfl⟩ := Prod.mk.inj heq
  unfold Channel.take? at htake
  split at htake
  · cases htake
  · rename_i rest hqueue
    obtain ⟨rfl, rfl⟩ := Prod.mk.inj (Option.some.inj htake)
    refine ⟨rest, hqueue, ?_⟩
    unfold onInbound inboundChannel
    cases s.inlet <;> rfl

theorem endRouter_eq (s : Session W) :
    s.endRouter = ({ s with
      router := { s.router with ended := true }
      players := s.players.map PlayWorker.dismiss } : Session W).onInbound Channel.close := by
  unfold endRouter onInbound
  cases s.inlet <;> rfl

end Session

/-- A worker goes on and is sent nothing. -/
structure PlayWorker.Keeps {W : Type} (w w' : PlayWorker W) : Prop where
  queue : w'.mailbox.channel.queue.length ≤ w.mailbox.channel.queue.length
  ended : w'.ended = none → w.ended = none
  isOpen : w'.ended = none → w'.mailbox.channel.isOpen = w.mailbox.channel.isOpen

namespace PlayWorker

variable {W : Type}

theorem Keeps.of_eq {w w' : PlayWorker W} (hmailbox : w'.mailbox.channel = w.mailbox.channel)
    (hended : w'.ended = w.ended) : w.Keeps w' where
  queue := Nat.le_of_eq (by rw [hmailbox])
  ended h := hended.symm.trans h
  isOpen _ := by rw [hmailbox]

theorem Keeps.refl (w : PlayWorker W) : w.Keeps w := .of_eq rfl rfl

theorem keeps_finish (w : PlayWorker W) (how : WorkerEnd) : w.Keeps (w.finish how) :=
  ⟨Nat.zero_le _, nofun, nofun⟩

theorem keeps_hear (w : PlayWorker W) (now : ℕ) : w.Keeps (w.hear now) := by
  unfold hear Mailbox.take? Channel.take?
  cases hqueue : w.mailbox.channel.queue with
  | nil => exact .of_eq rfl rfl
  | cons o rest =>
    refine ⟨?_, id, fun _ => rfl⟩
    rw [hqueue]
    exact Nat.le_succ _

theorem keeps_tick (dec : DecoderFamily W) (w : PlayWorker W) (now deadline : ℕ) :
    w.Keeps (w.tick dec now deadline) := by
  unfold tick
  simp only
  split
  · exact ⟨Nat.zero_le _, nofun, nofun⟩
  · exact .of_eq rfl rfl

theorem keeps_step (dec : DecoderFamily W) (w : PlayWorker W) (now : ℕ) :
    w.Keeps (w.step dec now) := by
  unfold step
  split
  · exact .refl w
  · unfold begin
    split
    · exact keeps_finish w _
    · exact .of_eq rfl rfl
  · split
    · exact keeps_finish w _
    · split
      · exact keeps_hear w now
      · split
        · exact keeps_tick dec w now _
        · exact .refl w

end PlayWorker

/-- A session whose router is watched. -/
structure Routing (W : Type) where
  session : Session W
  /-- All that came in, in the order in which it came. -/
  arrived : List Received
  /-- All that was put into the mailbox of each player. -/
  sent : PerMedia (List Received)

namespace Routing

variable {W : Type}

/-- What is behind the items that were there before. -/
def gained {α : Type} (before after : List α) : List α := after.drop before.length

@[simp] theorem gained_append {α : Type} (before more : List α) :
    gained before (before ++ more) = more := List.drop_left

theorem gained_eq_nil {α : Type} {before after : List α} (h : after.length ≤ before.length) :
    gained before after = [] := List.drop_eq_nil_of_le h

@[simp] theorem gained_self {α : Type} (l : List α) : gained l l = [] :=
  gained_eq_nil (Nat.le_refl _)

inductive Move (W : Type) where
  /-- Someone tries to put an object where objects come in. -/
  | deliver (who : ℕ) (o : Received)
  /-- Someone who stands in line there gives up. -/
  | withdraw (who : ℕ)
  /-- Those who may send objects from outside come and go. -/
  | senders (f : ℕ → ℕ)
  /-- The publishers go on. What they deliver comes in by moves of its own. -/
  | publish (f : PerMedia (PublishWorker W) → PerMedia (PublishWorker W))
  | route
  | tell
  | play (m : Media) (now : ℕ)
  | dismiss (m : Media)
  | cancel (m : Media)
  /-- The codec or the screen of a player change by themselves. -/
  | disturb (m : Media) (f : Player W → Player W)

/-- The channel after someone has tried to put an object into it. -/
def offered (who : ℕ) (o : Received) (c : Channel Received) : Channel Received :=
  match c.offer who o with
  | .taken c => c
  | .waiting c => c
  | .refused => c

theorem offered_queue (who : ℕ) (o : Received) (c : Channel Received) :
    (offered who o c).isOpen = c.isOpen ∧
      ∃ more, (offered who o c).queue = c.queue ++ more ∧ (c.isOpen = false → more = []) := by
  unfold offered Channel.offer
  by_cases hopen : c.isOpen = true
  · rw [if_neg (by simp [hopen])]
    by_cases hfree : c.ahead who < c.free
    · rw [if_pos hfree]
      exact ⟨rfl, [o], rfl, fun hclosed => absurd (hopen.symm.trans hclosed) nofun⟩
    · rw [if_neg hfree]
      exact ⟨rfl, [], (List.append_nil _).symm, fun _ => rfl⟩
  · rw [if_pos (by simp [hopen])]
    exact ⟨rfl, [], (List.append_nil _).symm, fun _ => rfl⟩

def act (dec : DecoderFamily W) (s : Session W) : Move W → Session W
  | .deliver who o => s.onInbound (offered who o)
  | .withdraw who => s.onInbound (·.leave who)
  | .senders f => { s with inlet := s.inlet.map fun i => { i with senders := f i.senders } }
  | .publish f => { s with publishers := f s.publishers }
  | .route => if s.router.ended then s else s.stepRouter
  | .tell => s.tellRouter
  | .play m now => s.putPlayer m ((s.players.get m).step dec now)
  | .dismiss m => s.updatePlayer m PlayWorker.dismiss
  | .cancel m => s.updatePlayer m PlayWorker.cancel
  | .disturb m f => s.updatePlayer m (.actOnPlayer f)

def start (s : Session W) : Routing W := ⟨s, s.inbound, ⟨[], []⟩⟩

/-- The session is now `t`. What came in and what was handed over is read off the channels. -/
def next (r : Routing W) (t : Session W) : Routing W where
  session := t
  arrived := r.arrived ++ gained r.session.inbound t.inbound
  sent :=
    ⟨r.sent.video ++ gained (r.session.pending .video) (t.pending .video),
      r.sent.audio ++ gained (r.session.pending .audio) (t.pending .audio)⟩

def step (dec : DecoderFamily W) (r : Routing W) (move : Move W) : Routing W :=
  r.next (act dec r.session move)

def run (dec : DecoderFamily W) (r : Routing W) (moves : List (Move W)) : Routing W :=
  moves.foldl (step dec) r

theorem sent_next (r : Routing W) (t : Session W) (m : Media) :
    (r.next t).sent.get m = r.sent.get m ++ gained (r.session.pending m) (t.pending m) := by
  cases m <;> rfl

theorem sent_next_of_keeps {r : Routing W} {t : Session W}
    (h : ∀ m, (r.session.players.get m).Keeps (t.players.get m)) (m : Media) :
    (r.next t).sent.get m = r.sent.get m := by
  have hgained : gained (r.session.pending m) (t.pending m) = [] := gained_eq_nil (h m).queue
  rw [sent_next, hgained, List.append_nil]

/-- Both players go on for as long as the router does. -/
def Attended (dec : DecoderFamily W) (r : Routing W) (moves : List (Move W)) : Prop :=
  ∀ done, done <+: moves → (r.run dec done).session.router.ended = false →
    ∀ m, ((r.run dec done).session.players.get m).ended = none

def OnTrack (tracks : PerMedia ℕ) (m : Media) (o : Received) : Bool := o.track == tracks.get m

/-- Whether some player plays the track of an object. -/
def Known (tracks : PerMedia ℕ) (o : Received) : Bool :=
  OnTrack tracks .video o || OnTrack tracks .audio o

theorem known_of_onTrack {tracks : PerMedia ℕ} {m : Media} {o : Received}
    (h : OnTrack tracks m o = true) : Known tracks o = true := by
  unfold Known
  cases m with
  | video => rw [h, Bool.true_or]
  | audio => rw [h, Bool.or_true]

/-- No object is for both players. -/
theorem onTrack_unique {tracks : PerMedia ℕ} (hdistinct : tracks.video ≠ tracks.audio)
    {m n : Media} {o : Received} (hm : OnTrack tracks m o = true)
    (hn : OnTrack tracks n o = true) : n = m := by
  have htrack : tracks.get m = tracks.get n := by
    rw [← of_decide_eq_true hm, ← of_decide_eq_true hn]
  cases m <;> cases n
  · rfl
  · exact absurd htrack.symm hdistinct
  · exact absurd htrack hdistinct
  · rfl

theorem mediaOf?_onTrack {router : Router} {o : Received} {m : Media}
    (h : router.mediaOf? o.track = some m) : OnTrack router.tracks m o = true := by
  unfold Router.mediaOf? at h
  apply decide_eq_true
  split at h
  · rename_i hvideo
    cases h
    exact hvideo
  · split at h
    · rename_i haudio
      cases h
      exact haudio
    · cases h

theorem mediaOf?_unknown {router : Router} {o : Received} (h : router.mediaOf? o.track = none) :
    Known router.tracks o = false := by
  unfold Router.mediaOf? at h
  split at h
  · cases h
  · split at h
    · cases h
    · rename_i hvideo haudio
      unfold Known OnTrack
      rw [Bool.or_eq_false_iff]
      exact ⟨decide_eq_false hvideo, decide_eq_false haudio⟩

/-- Of what arrived the router is done with the objects of `done`, and with no others: each was sent
to the player of its track and counted, or counted as unknown. -/
structure Accounts (router : Router) (arrived inbound : List Received)
    (sent : Media → List Received) (done : List Received) : Prop where
  held_onTrack : ∀ m o, router.held = some (m, o) → OnTrack router.tracks m o = true
  arrived_eq : arrived = done ++ (router.held.map Prod.snd).toList ++ inbound
  sent_eq : ∀ m, sent m = done.filter (OnTrack router.tracks m)
  routed : router.routed = done.countP (Known router.tracks)
  unknown : router.unknown = done.countP (!Known router.tracks ·)

namespace Accounts

variable {router : Router} {arrived inbound : List Received} {sent : Media → List Received}
  {done : List Received}

theorem of_flags (h : Accounts router arrived inbound sent done) (told draining ended : Bool) :
    Accounts { router with told := told, draining := draining, ended := ended }
      arrived inbound sent done :=
  ⟨h.held_onTrack, h.arrived_eq, h.sent_eq, h.routed, h.unknown⟩

theorem deliver (h : Accounts router arrived inbound sent done) (more : List Received) :
    Accounts router (arrived ++ more) (inbound ++ more) sent done :=
  { h with arrived_eq := by rw [h.arrived_eq, List.append_assoc _ inbound] }

/-- The router takes the object that came in first. -/
theorem take {o : Received} {rest : List Received}
    (h : Accounts router arrived (o :: rest) sent done) (hfree : router.held = none) :
    ∃ done, Accounts (router.take o) arrived rest sent done := by
  have harrived : arrived = done ++ [o] ++ rest := by
    rw [h.arrived_eq, hfree]
    simp
  unfold Router.take
  cases hmedia : router.mediaOf? o.track with
  | some m =>
    refine ⟨done, ?_, harrived, h.sent_eq, h.routed, h.unknown⟩
    intro n o' hheld
    cases hheld
    exact mediaOf?_onTrack hmedia
  | none =>
    have hknown : Known router.tracks o = false := mediaOf?_unknown hmedia
    refine ⟨done ++ [o], h.held_onTrack, ?_, fun m => ?_, ?_, ?_⟩
    · simp only [hfree, Option.map_none, Option.toList_none, List.append_nil]
      exact harrived
    · have hother : ¬OnTrack router.tracks m o = true := by
        intro htrack
        rw [known_of_onTrack htrack] at hknown
        cases hknown
      rw [h.sent_eq, List.filter_append, List.filter_cons_of_neg hother, List.filter_nil,
        List.append_nil]
    · rw [List.countP_append, List.countP_singleton, hknown, h.routed]
      rfl
    · rw [List.countP_append, List.countP_singleton, hknown, h.unknown]
      rfl

/-- The player of the object in hand takes it. -/
theorem settle (h : Accounts router arrived inbound sent done)
    (hdistinct : router.tracks.video ≠ router.tracks.audio) {m : Media} {o : Received}
    (hheld : router.held = some (m, o)) {sent' : Media → List Received}
    (hsent : sent' m = sent m ++ [o]) (hothers : ∀ n, n ≠ m → sent' n = sent n) :
    Accounts (router.settle true) arrived inbound sent' (done ++ [o]) := by
  have htrack := h.held_onTrack m o hheld
  have hknown := known_of_onTrack htrack
  refine ⟨nofun, ?_, fun n => ?_, ?_, ?_⟩
  · rw [h.arrived_eq, hheld, Option.map_some, Option.toList_some]
    exact (List.append_nil _).symm ▸ rfl
  · change sent' n = (done ++ [o]).filter (OnTrack router.tracks n)
    rw [List.filter_append, ← h.sent_eq]
    by_cases hn : n = m
    · rw [hn, hsent, List.filter_cons_of_pos htrack, List.filter_nil]
    · have hother : ¬OnTrack router.tracks n o = true :=
        fun hn' => hn (onTrack_unique hdistinct htrack hn')
      rw [hothers n hn, List.filter_cons_of_neg hother, List.filter_nil, List.append_nil]
  · change router.routed + 1 = (done ++ [o]).countP (Known router.tracks)
    rw [List.countP_append, List.countP_singleton, hknown, h.routed]
    rfl
  · change router.unknown = (done ++ [o]).countP (!Known router.tracks ·)
    rw [List.countP_append, List.countP_singleton, hknown, h.unknown]
    rfl

end Accounts

/-- The books of the router are right, and it hears of no player that has gone. -/
structure Balanced (tracks : PerMedia ℕ) (r : Routing W) : Prop where
  tracks_eq : r.session.router.tracks = tracks
  accounts : ∃ done, Accounts r.session.router r.arrived r.session.inbound r.sent.get done
  listening : ∀ m, (r.session.players.get m).ended = none →
    (r.session.players.get m).mailbox.channel.isOpen = true
  finished : r.session.router.ended = true → r.session.router.held = none ∧ r.session.inbound = [] ∧
    r.session.inboundChannel.isOpen = false

/-- From `s` to `t` the router does nothing that counts, and nothing comes in. -/
structure Quiet (s t : Session W) : Prop where
  router : ∃ told draining, t.router = { s.router with told := told, draining := draining }
  inbound : t.inbound = s.inbound
  inbound_open : t.inboundChannel.isOpen = s.inboundChannel.isOpen
  players : ∀ m, (s.players.get m).Keeps (t.players.get m)

namespace Balanced

variable {tracks : PerMedia ℕ} {r : Routing W} {t : Session W}

theorem listening_of_keeps (h : Balanced tracks r)
    (hplayers : ∀ m, (r.session.players.get m).Keeps (t.players.get m)) (m : Media)
    (hended : (t.players.get m).ended = none) :
    (t.players.get m).mailbox.channel.isOpen = true :=
  ((hplayers m).isOpen hended).trans (h.listening m ((hplayers m).ended hended))

theorem quiet (h : Balanced tracks r) (hq : Quiet r.session t) : Balanced tracks (r.next t) := by
  obtain ⟨told, draining, hrouter⟩ := hq.router
  obtain ⟨done, haccounts⟩ := h.accounts
  have hsent : (r.next t).sent.get = r.sent.get := funext (sent_next_of_keeps hq.players)
  have harrived : (r.next t).arrived = r.arrived := by
    change r.arrived ++ gained r.session.inbound t.inbound = r.arrived
    rw [hq.inbound, gained_self, List.append_nil]
  refine ⟨?_, ⟨done, ?_⟩, h.listening_of_keeps hq.players, ?_⟩
  · change t.router.tracks = tracks
    rw [hrouter]
    exact h.tracks_eq
  · change Accounts t.router _ t.inbound _ done
    rw [hrouter, harrived, hq.inbound, hsent]
    exact haccounts.of_flags told draining _
  · change t.router.ended = true → t.router.held = none ∧ t.inbound = [] ∧
      t.inboundChannel.isOpen = false
    rw [hrouter, hq.inbound, hq.inbound_open]
    exact h.finished

theorem updatePlayers (h : Balanced tracks r) (m : Media) {w : PlayWorker W} {events : List Event}
    (hkeeps : (r.session.players.get m).Keeps w) :
    Balanced tracks (r.next { r.session with
      players := r.session.players.set m w, events := events }) := by
  refine h.quiet ⟨⟨_, _, rfl⟩, rfl, rfl, fun n => ?_⟩
  by_cases hn : n = m
  · subst hn
    simp only [PerMedia.get_set]
    exact hkeeps
  · simp only [PerMedia.get_set_of_ne _ hn]
    exact .refl _

/-- An object comes in, or would have. -/
theorem deliver (h : Balanced tracks r) (who : ℕ) (o : Received) :
    Balanced tracks (r.next (r.session.onInbound (offered who o))) := by
  obtain ⟨hopen, more, hqueue, hclosed⟩ := offered_queue who o r.session.inboundChannel
  obtain ⟨done, haccounts⟩ := h.accounts
  generalize ht : r.session.onInbound (offered who o) = t
  have hrouter : t.router = r.session.router := by rw [← ht, Session.router_onInbound]
  have hplayers : t.players = r.session.players := by rw [← ht, Session.players_onInbound]
  have hchannel : t.inboundChannel = offered who o r.session.inboundChannel := by
    rw [← ht, Session.inboundChannel_onInbound]
  have hinbound : t.inbound = r.session.inbound ++ more := by
    unfold Session.inbound
    rw [hchannel, hqueue]
  have hkeeps : ∀ m, (r.session.players.get m).Keeps (t.players.get m) := by
    rw [hplayers]
    exact fun m => .refl _
  refine ⟨?_, ⟨done, ?_⟩, h.listening_of_keeps hkeeps, ?_⟩
  · change t.router.tracks = tracks
    rw [hrouter, h.tracks_eq]
  · change Accounts t.router (r.arrived ++ gained r.session.inbound t.inbound) t.inbound _ done
    rw [hrouter, hinbound, gained_append, funext (sent_next_of_keeps hkeeps)]
    exact haccounts.deliver more
  · change t.router.ended = true → t.router.held = none ∧ t.inbound = [] ∧
      t.inboundChannel.isOpen = false
    rw [hrouter, hinbound, hchannel, hopen]
    intro hended
    obtain ⟨hheld, hnone, hover⟩ := h.finished hended
    exact ⟨hheld, by rw [hnone, hclosed hover]; rfl, hover⟩

theorem take (h : Balanced tracks r) (hgoes : r.session.router.ended = false)
    (hfree : r.session.router.held = none) {o : Received}
    (htaken : r.session.inbound? = some (o, t)) :
    Balanced tracks (r.next { t with router := t.router.take o }) := by
  obtain ⟨rest, hqueue, ht⟩ := Session.inbound?_eq_some htaken
  obtain ⟨done, haccounts⟩ := h.accounts
  have hrouter : t.router = r.session.router := by rw [ht, Session.router_onInbound]
  have hinbound : t.inbound = rest := by
    unfold Session.inbound
    rw [ht, Session.inboundChannel_onInbound]
  have hkeeps : ∀ m, (r.session.players.get m).Keeps (t.players.get m) := by
    rw [ht, Session.players_onInbound]
    exact fun m => .refl _
  have hgained : gained r.session.inbound t.inbound = [] := by
    rw [hqueue, hinbound]
    exact gained_eq_nil (Nat.le_succ _)
  rw [hqueue] at haccounts
  obtain ⟨done', haccounts'⟩ := haccounts.take hfree
  have htake : (r.session.router.take o).tracks = r.session.router.tracks ∧
      (r.session.router.take o).ended = r.session.router.ended := by
    unfold Router.take
    split <;> exact ⟨rfl, rfl⟩
  rw [hrouter]
  refine ⟨htake.1.trans h.tracks_eq, ⟨done', ?_⟩, h.listening_of_keeps hkeeps, fun hended => ?_⟩
  · change Accounts _ (r.arrived ++ gained r.session.inbound t.inbound) t.inbound
      (r.next { t with router := r.session.router.take o }).sent.get done'
    rw [hgained, hinbound, List.append_nil,
      funext (sent_next_of_keeps (t := { t with router := r.session.router.take o }) hkeeps)]
    exact haccounts'
  · exact absurd (htake.2.symm.trans hended) (by rw [hgoes]; exact nofun)

theorem endRouter (h : Balanced tracks r) (hfree : r.session.router.held = none)
    (hempty : r.session.inbound = []) : Balanced tracks (r.next r.session.endRouter) := by
  obtain ⟨done, haccounts⟩ := h.accounts
  have hkeeps : ∀ m, (r.session.players.get m).Keeps (r.session.endRouter.players.get m) := by
    intro m
    rw [Session.endRouter_eq, Session.players_onInbound, PerMedia.get_map]
    exact .of_eq rfl rfl
  have hrouter : r.session.endRouter.router = { r.session.router with ended := true } := by
    rw [Session.endRouter_eq, Session.router_onInbound]
  have hchannel : ∃ c : Channel Received, r.session.endRouter.inboundChannel = c.close := by
    rw [Session.endRouter_eq, Session.inboundChannel_onInbound]
    exact ⟨_, rfl⟩
  obtain ⟨c, hchannel⟩ := hchannel
  have hinbound : r.session.endRouter.inbound = [] := by
    unfold Session.inbound
    rw [hchannel]
    rfl
  refine ⟨?_, ⟨done, ?_⟩, h.listening_of_keeps hkeeps, fun _ => ⟨?_, hinbound, ?_⟩⟩
  · change r.session.endRouter.router.tracks = tracks
    rw [hrouter]
    exact h.tracks_eq
  · change Accounts r.session.endRouter.router
      (r.arrived ++ gained r.session.inbound r.session.endRouter.inbound)
      r.session.endRouter.inbound _ done
    rw [hrouter, hinbound, hempty, gained_self, List.append_nil,
      funext (sent_next_of_keeps hkeeps), ← hempty]
    exact haccounts.of_flags _ _ true
  · change r.session.endRouter.router.held = none
    rw [hrouter]
    exact hfree
  · change r.session.endRouter.inboundChannel.isOpen = false
    rw [hchannel]
    rfl

/-- A player finds an object behind what its mailbox held. -/
theorem settle (h : Balanced tracks r) (hdistinct : tracks.video ≠ tracks.audio)
    (hgoes : r.session.router.ended = false) {m : Media} {o : Received}
    (hheld : r.session.router.held = some (m, o)) {w : PlayWorker W}
    (hended : w.ended = (r.session.players.get m).ended)
    (hopen : w.mailbox.channel.isOpen = (r.session.players.get m).mailbox.channel.isOpen)
    (hqueue : w.mailbox.channel.queue = r.session.pending m ++ [o]) :
    Balanced tracks (r.next { r.session with
      players := r.session.players.set m w
      router := r.session.router.settle true }) := by
  obtain ⟨done, haccounts⟩ := h.accounts
  generalize ht : ({ r.session with
    players := r.session.players.set m w
    router := r.session.router.settle true } : Session W) = t
  have hrouter : t.router = r.session.router.settle true := by rw [← ht]
  have hplayer : t.players.get m = w := by
    rw [← ht]
    exact PerMedia.get_set _ m w
  have hother : ∀ n, n ≠ m → t.players.get n = r.session.players.get n := by
    intro n hn
    rw [← ht]
    exact PerMedia.get_set_of_ne _ hn w
  have hinbound : t.inbound = r.session.inbound := by
    rw [← ht]
    rfl
  have hsent : (r.next t).sent.get m = r.sent.get m ++ [o] := by
    have hpending : t.pending m = r.session.pending m ++ [o] := by
      unfold Session.pending
      rw [hplayer, hqueue]
      rfl
    rw [sent_next, hpending, gained_append]
  have hothers : ∀ n, n ≠ m → (r.next t).sent.get n = r.sent.get n := by
    intro n hn
    have hpending : t.pending n = r.session.pending n := by
      unfold Session.pending
      rw [hother n hn]
    rw [sent_next, hpending, gained_self, List.append_nil]
  refine ⟨?_, ⟨done ++ [o], ?_⟩, fun n hgoing => ?_, fun hover => ?_⟩
  · change t.router.tracks = tracks
    rw [hrouter]
    exact h.tracks_eq
  · change Accounts t.router (r.arrived ++ gained r.session.inbound t.inbound) t.inbound _ _
    rw [hrouter, hinbound, gained_self, List.append_nil]
    exact haccounts.settle (h.tracks_eq ▸ hdistinct) hheld hsent hothers
  · change (t.players.get n).ended = none at hgoing
    change (t.players.get n).mailbox.channel.isOpen = true
    by_cases hn : n = m
    · subst hn
      rw [hplayer] at hgoing ⊢
      rw [hopen]
      exact h.listening n (hended.symm.trans hgoing)
    · rw [hother n hn] at hgoing ⊢
      exact h.listening n hgoing
  · change t.router.ended = true at hover
    rw [hrouter] at hover
    exact absurd (hover.symm.trans hgoes) nofun

theorem handOver (h : Balanced tracks r) (hdistinct : tracks.video ≠ tracks.audio)
    (hgoes : r.session.router.ended = false) {m : Media} {o : Received}
    (halive : (r.session.players.get m).ended = none)
    (hheld : r.session.router.held = some (m, o)) :
    Balanced tracks (r.next (r.session.handOver m o)) := by
  have hopen := h.listening m halive
  by_cases hfree : (r.session.players.get m).mailbox.channel.ahead Session.routerSeat <
      (r.session.players.get m).mailbox.channel.free
  · obtain ⟨channel, hoffer, hchannel⟩ : ∃ channel,
        (r.session.players.get m).mailbox.channel.offer Session.routerSeat o = .taken channel ∧
          channel.isOpen = (r.session.players.get m).mailbox.channel.isOpen ∧
          channel.queue = r.session.pending m ++ [o] := by
      unfold Channel.offer
      rw [if_neg (by simp [hopen]), if_pos hfree]
      exact ⟨_, rfl, rfl, rfl⟩
    unfold Session.handOver
    simp only [hoffer]
    exact h.settle hdistinct hgoes hheld rfl hchannel.1 hchannel.2
  · obtain ⟨channel, hoffer, hchannel⟩ : ∃ channel,
        (r.session.players.get m).mailbox.channel.offer Session.routerSeat o = .waiting channel ∧
          channel.isOpen = (r.session.players.get m).mailbox.channel.isOpen ∧
          channel.queue = (r.session.players.get m).mailbox.channel.queue := by
      unfold Channel.offer
      rw [if_neg (by simp [hopen]), if_neg hfree]
      exact ⟨_, rfl, rfl, rfl⟩
    unfold Session.handOver
    simp only [hoffer]
    exact h.updatePlayers m ⟨Nat.le_of_eq (congrArg List.length hchannel.2), id,
      fun _ => hchannel.1⟩

theorem stepRouter (h : Balanced tracks r) (hdistinct : tracks.video ≠ tracks.audio)
    (hgoes : r.session.router.ended = false)
    (halive : ∀ m, (r.session.players.get m).ended = none) :
    Balanced tracks (r.next r.session.stepRouter) := by
  have hdrain : Balanced tracks (r.next { r.session with
      router := { r.session.router with draining := true } }) :=
    h.quiet ⟨⟨_, _, rfl⟩, rfl, rfl, fun _ => .refl _⟩
  unfold Session.stepRouter
  split
  · rename_i m o hheld
    exact h.handOver hdistinct hgoes (halive m) hheld
  · rename_i hfree
    split
    · exact hdrain
    · split
      · rename_i htaken
        exact h.take hgoes hfree htaken
      · rename_i hnone
        split
        · exact h.endRouter hfree (Session.inbound?_eq_none hnone)
        · split
          · exact hdrain
          · exact h.quiet ⟨⟨_, _, rfl⟩, rfl, rfl, fun _ => .refl _⟩

theorem step (h : Balanced tracks r) (hdistinct : tracks.video ≠ tracks.audio)
    (dec : DecoderFamily W) (move : Move W)
    (halive : r.session.router.ended = false → ∀ m, (r.session.players.get m).ended = none) :
    Balanced tracks (r.step dec move) := by
  unfold Routing.step
  cases move with
  | deliver who o => exact h.deliver who o
  | withdraw who =>
    refine h.quiet ⟨⟨_, _, Session.router_onInbound _ _⟩, ?_, ?_, ?_⟩
    · change (r.session.onInbound _).inboundChannel.queue = _
      rw [Session.inboundChannel_onInbound]
      rfl
    · change (r.session.onInbound _).inboundChannel.isOpen = _
      rw [Session.inboundChannel_onInbound]
      rfl
    · change ∀ m, (r.session.players.get m).Keeps ((r.session.onInbound _).players.get m)
      rw [Session.players_onInbound]
      exact fun _ => .refl _
  | senders f =>
    have hchannel : (act dec r.session (.senders f)).inboundChannel =
        r.session.inboundChannel := by
      unfold act Session.inboundChannel
      cases r.session.inlet <;> rfl
    refine h.quiet ⟨⟨_, _, rfl⟩, ?_, ?_, fun _ => .refl _⟩
    · unfold Session.inbound
      rw [hchannel]
    · rw [hchannel]
  | publish f => exact h.quiet ⟨⟨_, _, rfl⟩, rfl, rfl, fun _ => .refl _⟩
  | route =>
    change Balanced tracks (r.next (if r.session.router.ended then r.session else _))
    cases hgoes : r.session.router.ended with
    | true => exact h.quiet ⟨⟨_, _, rfl⟩, rfl, rfl, fun _ => .refl _⟩
    | false => exact h.stepRouter hdistinct hgoes (halive hgoes)
  | tell => exact h.quiet ⟨⟨_, _, rfl⟩, rfl, rfl, fun _ => .refl _⟩
  | play m now =>
    obtain ⟨hqueue, hended, hopen⟩ := (r.session.players.get m).keeps_step dec now
    exact h.updatePlayers m ⟨hqueue, hended, hopen⟩
  | dismiss m => exact h.updatePlayers m (.of_eq rfl rfl)
  | cancel m => exact h.updatePlayers m (.of_eq rfl rfl)
  | disturb m f => exact h.updatePlayers m (.of_eq rfl rfl)

theorem run (h : Balanced tracks r) (hdistinct : tracks.video ≠ tracks.audio)
    {dec : DecoderFamily W} {moves : List (Move W)} (hattended : r.Attended dec moves) :
    Balanced tracks (r.run dec moves) := by
  induction moves generalizing r with
  | nil => exact h
  | cons move moves ih =>
    refine ih (h.step hdistinct dec move (hattended [] ⟨_, rfl⟩)) ?_
    intro before hbefore
    exact hattended (move :: before) (List.cons_prefix_cons.mpr ⟨rfl, hbefore⟩)

end Balanced

variable {settings : Settings}

theorem balanced_start (encoders decoders : PerMedia W) (link : Loopback)
    (inlet : Option (Mailbox Received)) (now : ℕ) :
    Balanced ⟨settings.video.trackAlias, settings.audio.trackAlias⟩
      (start (.new settings encoders decoders link inlet now)) where
  tracks_eq := rfl
  accounts := ⟨[], nofun, rfl, fun m => by cases m <;> rfl, rfl, rfl⟩
  listening m _ := by cases m <;> rfl
  finished := nofun

/-- Whatever comes in, with whatever tracks, and whenever the router is told to stop: once it has
stopped, each player that was there to take it has been sent the objects of its track, in the order
in which they came and each once, and the others were counted. -/
theorem routes_by_track (hvalid : settings.validate = .ok ()) (encoders decoders : PerMedia W)
    (link : Loopback) (inlet : Option (Mailbox Received)) (now : ℕ) (dec : DecoderFamily W)
    (moves : List (Move W))
    (hattended : (start (.new settings encoders decoders link inlet now)).Attended dec moves)
    (hended : ((start (.new settings encoders decoders link inlet now)).run
      dec moves).session.router.ended = true) :
    let last := (start (.new settings encoders decoders link inlet now)).run dec moves
    settings.video.trackAlias ≠ settings.audio.trackAlias ∧
      (∀ m, last.sent.get m =
        last.arrived.filter fun o => o.track = (settings.media m).trackAlias) ∧
      last.session.router.routed = last.arrived.countP (fun o =>
        o.track = settings.video.trackAlias ∨ o.track = settings.audio.trackAlias) ∧
      last.session.router.unknown = last.arrived.countP (fun o =>
        ¬(o.track = settings.video.trackAlias ∨ o.track = settings.audio.trackAlias)) := by
  intro last
  have hdistinct := Weave.track_ne_of_validate hvalid
  have hlast := (balanced_start encoders decoders link inlet now).run hdistinct hattended
  obtain ⟨done, haccounts⟩ := hlast.accounts
  obtain ⟨hheld, hempty, -⟩ := hlast.finished hended
  have harrived : last.arrived = done := by
    have := haccounts.arrived_eq
    rw [hheld, hempty] at this
    simpa using this
  have hknown : Known last.session.router.tracks = fun o => decide
      (o.track = settings.video.trackAlias ∨ o.track = settings.audio.trackAlias) := by
    funext o
    rw [hlast.tracks_eq, Bool.decide_or]
    rfl
  refine ⟨hdistinct, fun m => ?_, ?_, ?_⟩
  · rw [harrived, haccounts.sent_eq m, hlast.tracks_eq]
    cases m <;> rfl
  · rw [harrived, haccounts.routed, hknown]
  · rw [harrived, haccounts.unknown, hknown]
    exact List.countP_congr fun o _ => by simp

/-- A session that takes objects from outside, four at a time. -/
def opening : Routing SimulatedCodec :=
  start (.new {} ⟨{}, {}⟩ ⟨{}, {}⟩ (.make 1 0) (some (.empty 1 4)) 0)

def arrival (track : ℕ) : Received := ⟨track, 1, 0, 0, .empty, .endOfGroup⟩

/-- The router is told to stop while it has an object in hand and more have come in. -/
def toldInHand : List (Move SimulatedCodec) :=
  [.deliver 0 (arrival 1), .deliver 0 (arrival 99), .deliver 0 (arrival 2), .route, .tell,
    .play .video 0, .route, .play .video 0, .route, .route, .route, .route, .route]

theorem attended_toldInHand : opening.Attended SimulatedCodec.decoders toldInHand := by
  have hgoing : ∀ done ∈ toldInHand.inits,
      (opening.run SimulatedCodec.decoders done).session.players.video.ended = none ∧
        (opening.run SimulatedCodec.decoders done).session.players.audio.ended = none := by
    decide +kernel
  intro done hdone _ m
  have hboth := hgoing done ((List.mem_inits _ _).mpr hdone)
  cases m with
  | video => exact hboth.1
  | audio => exact hboth.2

theorem ended_toldInHand :
    (opening.run SimulatedCodec.decoders toldInHand).session.router.ended = true := by
  decide +kernel

theorem toldInHand_routed :
    ({} : Settings).validate = .ok () ∧
    (opening.run SimulatedCodec.decoders toldInHand).arrived =
      [arrival 1, arrival 99, arrival 2] ∧
    ∀ m, (opening.run SimulatedCodec.decoders toldInHand).sent.get m =
      (opening.run SimulatedCodec.decoders toldInHand).arrived.filter fun o =>
        o.track = (({} : Settings).media m).trackAlias := by
  have harrived : (opening.run SimulatedCodec.decoders toldInHand).arrived =
      [arrival 1, arrival 99, arrival 2] := by
    decide +kernel
  have hrouted := @routes_by_track SimulatedCodec {} rfl ⟨{}, {}⟩ ⟨{}, {}⟩ (.make 1 0)
    (some (.empty 1 4)) 0 SimulatedCodec.decoders toldInHand attended_toldInHand ended_toldInHand
  exact ⟨rfl, harrived, hrouted.2.1⟩

end Routing

end LiveMedia
