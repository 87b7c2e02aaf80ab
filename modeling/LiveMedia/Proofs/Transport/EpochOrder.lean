import LiveMedia.Proofs.Player.Accounting
import LiveMedia.Proofs.Player.RestartIsolation
import LiveMedia.Proofs.Publisher.NothingLost
import LiveMedia.Proofs.Transport.Crossing

/-!
# Streams come out one after the other

Whether a publisher is used directly or through a worker, and whether its transport reorders or not:
at the end of each stream all of it has come out. So the other end sees the streams in their order,
and a player there never meets an object of a stream that it has left behind.
-/

namespace LiveMedia
set_option autoImplicit false

variable {W : Type}

namespace Player

section Fresh

variable (dec : DecoderFamily W) {p : Player W}

/-- A player turns to the stream of an object that is not of an older one. -/
theorem epoch_receive {o : Received} (h : ∀ e, p.epoch = some e → e ≤ o.epoch) (now : ℕ) :
    (p.receive now o).epoch = some o.epoch := by
  have hintake : (p.receive now o).epoch = (p.intake.receive now o).epoch :=
    congrArg Intake.epoch (p.intake_receive now o)
  rw [hintake]
  rcases p.intake.follow?_cases o.epoch with ⟨c, hc, hlt, _⟩ | ⟨_, hf⟩ | ⟨_, _, _, hf⟩
  · exact absurd (h c hc) hlt.not_ge
  all_goals rw [Intake.receive_of_some hf, Intake.epoch_accept]

theorem booked_stale_receive {o : Received} (h : ∀ e, p.epoch = some e → e ≤ o.epoch) (now : ℕ) :
    booked .stale (p.bookings dec (.receive now o)) = [] := by
  obtain ⟨q, hq⟩ : ∃ q, p.follow? o.epoch = some q := by
    have houtcome := p.follow?_outcome o.epoch
    generalize p.follow? o.epoch = r at houtcome ⊢
    cases houtcome with
    | stale known older => exact absurd (h _ known) older.not_ge
    | _ => exact ⟨_, rfl⟩
  unfold bookings
  simp only [hq]
  rw [booked_append, booked_all, if_neg (by decide), List.nil_append]
  split
  · exact booked_single _ _ _
  · unfold bookPush
    split
    · rfl
    · exact booked_single _ _ _
    · exact booked_single _ _ _

/-- As long as what arrives is of the epoch at hand or a later one, nothing is stale. -/
theorem booked_stale {inputs : List (Input W)}
    (hsorted : (arrivals inputs).Pairwise fun a b => a.epoch ≤ b.epoch)
    (hbehind : ∀ e, p.epoch = some e → ∀ o ∈ arrivals inputs, e ≤ o.epoch) :
    booked .stale (p.books dec inputs) = [] := by
  induction inputs generalizing p with
  | nil => rfl
  | cons i rest ih =>
    rw [books, booked_append]
    cases hi : i.object? with
    | some o =>
      obtain ⟨now, rfl⟩ : ∃ now, i = .receive now o := by
        cases i with
        | receive now o' => exact ⟨now, congrArg _ (Option.some.inj hi)⟩
        | _ => cases hi
      have hfirst : ∀ e, p.epoch = some e → e ≤ o.epoch :=
        fun e he => hbehind e he o List.mem_cons_self
      obtain ⟨hlater, hrest⟩ := List.pairwise_cons.mp hsorted
      rw [booked_stale_receive dec hfirst now, List.nil_append]
      refine ih hrest fun e he o' ho' => ?_
      have hnow : some o.epoch = some e := (epoch_receive hfirst now).symm.trans he
      exact Option.some.inj hnow ▸ hlater o' ho'
    | none =>
      have hsame : arrivals (i :: rest) = arrivals rest := List.filterMap_cons_none hi
      rw [hsame] at hsorted hbehind
      have hnone : booked .stale (p.bookings dec i) = [] := by
        cases i with
        | receive now o => cases hi
        | tick now =>
          unfold bookings
          simp only
          split
          · rfl
          · exact booked_single _ _ _
        | _ => rfl
      rw [hnone, List.nil_append]
      exact ih hsorted fun e he => hbehind e ((epoch_step dec hi).symm.trans he)

end Fresh

/-- Every player that takes some of these objects, in this order, finds none of them stale. -/
def FindsNoneStale (objects : List Received) : Prop :=
  ∀ {V : Type} (dec : DecoderFamily V) (settings : PlaySettings) (codec : V) (config : CodecConfig)
    (screen : Screen) (start : ℕ) (inputs : List (Input V)), (arrivals inputs).Sublist objects →
    ((Player.new settings codec config screen start).run dec inputs).stats.staleEpochDrops = 0

theorem findsNoneStale {objects : List Received}
    (h : objects.Pairwise fun a b => a.epoch ≤ b.epoch) : FindsNoneStale objects := by
  intro V dec settings codec config screen start inputs hsome
  have haccounts := (accounts_new settings codec config screen start).run dec inputs
  rw [haccounts.tallies.stale, List.nil_append, booked_stale dec (h.sublist hsome) fun _ he =>
    absurd he (Option.some_ne_none _).symm]
  rfl

end Player

/-- Objects come out in the order of their streams. All of a stream that is over has come out, each
object once, and before those of later streams; and no player finds an object stale. -/
structure ArriveInOrder (past : ℕ → Prop) (sent out : List Received) : Prop where
  sorted : out.Pairwise fun a b => a.epoch ≤ b.epoch
  complete : ∀ k, past k → AllOut k sent out
  fresh : Player.FindsNoneStale out

theorem Stowed.arriveInOrder {epoch : ℕ} {out onway sent : List Received}
    (h : Stowed epoch out onway sent) {past : ℕ → Prop}
    (hpast : ∀ k, past k → k < epoch ∨ onway = []) : ArriveInOrder past sent out where
  sorted := h.sorted
  complete k hk := h.allOut (hpast k hk)
  fresh := Player.findsNoneStale h.sorted

/-- The objects that were handed over with these calls. -/
def handedOver (calls : List (Transmission × Bool)) : List Received :=
  (calls.map Prod.fst).filterMap Transmission.received?

theorem handedOver_concat (calls : List (Transmission × Bool)) (t : Transmission) (ok : Bool) :
    handedOver (calls ++ [(t, ok)]) = handedOver calls ++ t.received?.toList := by
  unfold handedOver
  rw [List.map_append, List.filterMap_append]
  cases h : t.received? <;> simp [h]

namespace Attended

variable {a : Attended} {epoch : ℕ} {sent : List Received}

/-- A finished call has brought out what was on its way. -/
theorem Finished.stowed {objects : List Received} {r : Attended} (h : Finished a objects r)
    (hstowed : Stowed epoch a.seen objects sent) :
    Stowed epoch r.seen r.loopback.held.toList sent := by
  rw [← List.append_nil objects] at hstowed
  rw [h.seen, h.held]
  exact hstowed.arrive

/-- A call brings objects out or holds them back. When the stream is flushed, nothing is held back
any more. -/
theorem stowed_send (h : a.Ready) (hstowed : Stowed epoch a.seen a.loopback.held.toList sent)
    {t : Transmission} (ht : ∀ o, t = .object o → o.epoch = epoch) :
    Stowed epoch (a.send t).2.seen (a.send t).2.loopback.held.toList
      (sent ++ t.received?.toList) ∧
    (a.send t).2.Ready ∧ (t = .flush → (a.send t).2.loopback.held = none) := by
  cases t with
  | header g =>
    rw [send_header h, show sent ++ (Transmission.header g).received?.toList = sent from
      List.append_nil _]
    refine ⟨?_, h.visit 0, nofun⟩
    rw [seen_visit]
    exact hstowed
  | object o =>
    have hepoch : o.received.epoch = epoch := ht o rfl
    by_cases hnext : (a.loopback.swapsNext && a.loopback.held.isNone) = true
    · rw [send_held o hnext]
      have hheld : a.loopback.held = none :=
        Option.isNone_iff_eq_none.mp (Bool.and_eq_true_iff.mp hnext).2
      have hready : ({ a with
          loopback := { a.loopback.draw with held := some o.received } } : Attended).Ready :=
        ⟨h.isOpen, h.line, h.room, h.fits⟩
      refine ⟨?_, hready.visit 0, nofun⟩
      rw [hheld] at hstowed
      rw [seen_visit]
      exact hstowed.hand hepoch (.refl _)
    · rw [Bool.not_eq_true] at hnext
      obtain ⟨r, hsend, hdone⟩ := send_object h o hnext
      rw [hsend]
      refine ⟨hdone.stowed ?_, hdone.ready, nofun⟩
      exact hstowed.hand hepoch (List.perm_append_singleton _ _).symm
  | flush =>
    obtain ⟨r, hsend, hdone⟩ := send_flush h
    rw [hsend, show sent ++ Transmission.flush.received?.toList = sent from List.append_nil _]
    exact ⟨hdone.stowed hstowed, hdone.ready, fun _ => hdone.held⟩

end Attended

namespace Broadcast

/-- A publisher in the midst of a stream, on a loopback transport with its receiver. -/
structure Shipping (epoch : ℕ)
    (b : Broadcast (Logged W EncoderCall) (Logged Attended (Transmission × Bool))) : Prop where
  stowed : Stowed epoch b.link.world.seen b.link.world.loopback.held.toList
    (handedOver b.link.calls)
  ready : b.link.world.Ready
  epoch_eq : b.publisher.epoch = epoch

namespace Shipping

variable {epoch : ℕ}
  {b b' : Broadcast (Logged W EncoderCall) (Logged Attended (Transmission × Bool))}

theorem congr (h : b.Shipping epoch) (hlink : b'.link = b.link)
    (hepoch : b'.publisher.epoch = b.publisher.epoch) : b'.Shipping epoch where
  stowed := hlink ▸ h.stowed
  ready := hlink ▸ h.ready
  epoch_eq := hepoch.trans h.epoch_eq

theorem own (h : b.Shipping epoch) : b.Shipping b.publisher.epoch := ⟨by
  rw [h.epoch_eq]
  exact h.stowed, h.ready, rfl⟩

theorem send (h : b.Shipping epoch) {t : Transmission} (ht : ∀ o, t = .object o → o.epoch = epoch) :
    (b.send Attended.link.logged t).Shipping epoch ∧
      (t = .flush → (b.send Attended.link.logged t).link.world.loopback.held = none) := by
  obtain ⟨ok, hpublisher, hlink⟩ := send_logged Attended.link b t
  have hworld : (b.send Attended.link.logged t).link.world = (b.link.world.send t).2 :=
    congrArg Logged.world hlink
  have hcalls : (b.send Attended.link.logged t).link.calls = b.link.calls ++ [(t, ok)] :=
    congrArg Logged.calls hlink
  obtain ⟨hstowed, hready, hheld⟩ := Attended.stowed_send h.ready h.stowed ht
  rw [← handedOver_concat _ t ok, ← hcalls, ← hworld] at hstowed
  rw [← hworld] at hready hheld
  refine ⟨⟨hstowed, hready, ?_⟩, hheld⟩
  rw [hpublisher]
  exact (b.publisher.epoch_settle t ok).trans h.epoch_eq

theorem sendAll (h : b.Shipping epoch) {ts : List Transmission}
    (hts : ∀ o, .object o ∈ ts → o.epoch = epoch) :
    (b.sendAll Attended.link.logged ts).Shipping epoch := by
  induction ts generalizing b with
  | nil => exact h
  | cons t rest ih =>
    exact ih (h.send fun o ho => hts o (ho ▸ List.mem_cons_self)).1
      fun o ho => hts o (List.mem_cons_of_mem t ho)

theorem handle (h : b.Shipping epoch) (c : Chunk) :
    (b.handle Attended.link.logged c).Shipping epoch := by
  have hhandled : ({ b with publisher := (b.publisher.handle b.now c).2 } :
      Broadcast (Logged W EncoderCall) (Logged Attended (Transmission × Bool))).Shipping epoch :=
    h.congr rfl (b.publisher.epoch_handle b.now c)
  exact hhandled.sendAll fun o ho => (Publisher.of_mem_handle ho).2.trans h.epoch_eq

theorem drain (h : b.Shipping epoch) : (b.drain Attended.link.logged).Shipping epoch := by
  unfold Broadcast.drain
  have hempty : ({ b with publisher := { b.publisher with outputs := [] } } :
      Broadcast (Logged W EncoderCall) (Logged Attended (Transmission × Bool))).Shipping epoch :=
    h.congr rfl rfl
  revert hempty
  generalize { b with publisher := { b.publisher with outputs := [] } } = b'
  intro h'
  generalize b.publisher.outputs = outputs
  induction outputs generalizing b' with
  | nil => exact h'
  | cons c rest ih => exact ih _ (h'.handle c)

variable (enc : EncoderFamily W)

theorem upholds (epoch : ℕ) :
    Upholds enc.logged Attended.link.logged fun _ b => Shipping (W := W) epoch b where
  submit f h := h.congr rfl (Publisher.epoch_submit enc.logged _ _ f)
  drain h := h.drain
  elapse _ h := h.congr rfl rfl

theorem finish (h : b.Shipping epoch) : (b.finish enc.logged Attended.link.logged).Shipping epoch ∧
    (b.finish enc.logged Attended.link.logged).link.world.loopback.held = none := by
  have hflushed : ({ b with publisher := b.publisher.flushEncoder enc.logged } :
      Broadcast (Logged W EncoderCall) (Logged Attended (Transmission × Bool))).Shipping epoch :=
    h.congr rfl (b.publisher.epoch_flushEncoder enc.logged)
  obtain ⟨hsent, hheld⟩ := hflushed.drain.send (t := .flush) nofun
  exact ⟨hsent.congr rfl rfl, hheld rfl⟩

end Shipping

/-- What a stream leaves on its way. When it comes to its end, that is nothing; when it is given up,
the publisher hears no more of its encoders. -/
structure Lands (result : StreamEnd ×
    Broadcast (Logged W EncoderCall) (Logged Attended (Transmission × Bool))) : Prop where
  shipping : result.2.Shipping result.2.publisher.epoch
  ended : result.1 = .ended →
    result.2.link.world.loopback.held = none ∧ result.2.publisher.broken = false
  abandoned : result.1 = .abandoned → result.2.publisher.receiving = false

theorem lands_attach (enc : EncoderFamily W) (limit : ℕ) (src : Source (Logged W EncoderCall))
    {b : Broadcast (Logged W EncoderCall) (Logged Attended (Transmission × Bool))}
    (h : b.Shipping b.publisher.epoch) (hheld : b.link.world.loopback.held = none)
    (hwhole : b.publisher.broken = false) :
    Lands (b.attach enc.logged Attended.link.logged limit src) := by
  unfold attach
  split
  · exact ⟨h, fun _ => ⟨hheld, hwhole⟩, nofun⟩
  · have hstowed := h.stowed
    rw [hheld] at hstowed
    have hbegun : ({ b with publisher := b.publisher.beginStream b.now } :
        Broadcast (Logged W EncoderCall) (Logged Attended (Transmission × Bool))).Shipping
        (b.publisher.epoch + 1) := by
      refine ⟨?_, h.ready, rfl⟩
      change Stowed _ b.link.world.seen b.link.world.loopback.held.toList _
      rw [hheld]
      exact hstowed.later (Nat.le_succ _)
    have heffect : ∀ run, Cue.effect run ∈ src.cues → ∀ {_ : ℕ} {b'}, Shipping (W := W)
        (b.publisher.epoch + 1) b' → (b'.apply run).Shipping (b.publisher.epoch + 1) :=
      fun _ _ _ _ hshipping => hshipping.congr rfl rfl
    have hrun := (Shipping.upholds enc (b.publisher.epoch + 1)).runSource limit (n := 0) heffect
      hbegun.drain fun _ : True => (broken_drain _ _).trans hwhole
    simp only
    generalize runSource enc.logged Attended.link.logged limit src _ = result at hrun ⊢
    obtain ⟨how, last⟩ := result
    obtain ⟨_, hlast, hended⟩ := hrun
    cases how with
    | ended =>
      simp only
      split
      · refine ⟨?_, nofun, fun _ => rfl⟩
        apply Shipping.own
        exact hlast.drain.congr rfl rfl
      · obtain ⟨hfinished, hnone⟩ := hlast.finish enc
        obtain ⟨_, _, _, _, _, _, _, _, _, hsame⟩ :=
          finish_footprint enc.logged Attended.link.logged last
        refine ⟨hfinished.own, fun _ => ⟨hnone, ?_⟩, nofun⟩
        rw [hsame]
        exact (hended rfl).2 trivial
    | abandoned =>
      refine ⟨?_, nofun, fun _ => rfl⟩
      apply Shipping.own
      exact hlast.congr rfl rfl
    | broken => exact ⟨hlast.own, nofun, nofun⟩

end Broadcast

namespace Annals

/-- What all the streams so far have left on their way. As long as each came to its end, that is
nothing; after that no stream begins. -/
structure Shipped (a : Annals W Attended) : Prop where
  shipping : a.broadcast.Shipping a.broadcast.publisher.epoch
  ended : (∀ how ∈ a.ends, how = .ended) →
    a.broadcast.link.world.loopback.held = none ∧ a.broadcast.publisher.broken = false
  deaf : (∃ how ∈ a.ends, how ≠ .ended) →
    a.broadcast.publisher.receiving = false ∨ .broken ∈ a.ends

theorem shipped_start (settings : PublishSettings) (codec : W) (clock : CaptureClock)
    (now capacity : ℕ) (reorderProbability : Float) (chance : ℕ → Bool) (visits : List ℕ) :
    (start settings codec clock (Attended.start capacity reorderProbability chance visits)
      now).Shipped where
  shipping := ⟨.nil, Attended.ready_start capacity reorderProbability chance visits, rfl⟩
  ended _ := ⟨rfl, rfl⟩
  deaf := fun ⟨_, hmem, _⟩ => absurd hmem List.not_mem_nil

section Steps

variable {enc : EncoderFamily W} {a : Annals W Attended}

/-- No stream begins, and nothing is sent. -/
theorem Shipped.still (h : a.Shipped) {p : Publisher (Logged W EncoderCall)}
    (hepoch : p.epoch = a.broadcast.publisher.epoch)
    (hbroken : p.broken = a.broadcast.publisher.broken)
    (hreceiving : p.receiving = a.broadcast.publisher.receiving) (now : ℕ) :
    Shipped (⟨⟨p, a.broadcast.link, now⟩, assign a.streams p.codec.calls (a.ends ++ []).length,
      a.ends ++ []⟩ : Annals W Attended) := by
  rw [List.append_nil]
  refine ⟨?_, fun hends => ?_, fun hsome => ?_⟩
  · apply Broadcast.Shipping.own
    exact h.shipping.congr rfl hepoch
  · exact ⟨(h.ended hends).1, hbroken.trans (h.ended hends).2⟩
  · exact (h.deaf hsome).imp hreceiving.trans id

theorem Shipped.attach (h : a.Shipped) (hgoes : .broken ∉ a.ends) (limit : ℕ) (src : Source W)
    {how : StreamEnd}
    {b : Broadcast (Logged W EncoderCall) (Logged Attended (Transmission × Bool))}
    (hattach : a.broadcast.attach enc.logged Attended.link.logged limit src.logged = (how, b)) :
    Shipped (⟨b, assign a.streams b.publisher.codec.calls (a.ends ++ [how]).length,
      a.ends ++ [how]⟩ : Annals W Attended) := by
  by_cases hends : ∀ how ∈ a.ends, how = .ended
  · obtain ⟨hheld, hwhole⟩ := h.ended hends
    have hlands := Broadcast.lands_attach enc limit src.logged h.shipping hheld hwhole
    rw [hattach] at hlands
    refine ⟨hlands.shipping, fun hall => ?_, fun ⟨how', hmem, hhow⟩ => ?_⟩
    · exact hlands.ended (hall how (List.mem_append_right _ (List.mem_singleton_self how)))
    · cases how with
      | ended =>
        rcases List.mem_append.mp hmem with hmem | hmem
        · exact absurd (hends how' hmem) hhow
        · exact absurd (List.mem_singleton.mp hmem) hhow
      | abandoned => exact .inl (hlands.abandoned rfl)
      | broken => exact .inr (List.mem_append_right _ (List.mem_singleton_self _))
  · push Not at hends
    -- A publisher that hears no more of its encoders sends nothing.
    have hdeaf := (h.deaf hends).resolve_right hgoes
    have hnothing : (how, b) = (.ended, a.broadcast) := by
      rw [← hattach]
      unfold Broadcast.attach
      rw [if_pos (by simp [hdeaf])]
    obtain ⟨rfl, rfl⟩ := Prod.mk.inj hnothing
    obtain ⟨how', hmem, hhow⟩ := hends
    refine ⟨h.shipping, fun hall => ?_, fun _ => .inl hdeaf⟩
    exact absurd (hall how' (List.mem_append_left _ hmem)) hhow

theorem Shipped.step (h : a.Shipped) (e : Errand W) : (a.step enc Attended.link e).Shipped := by
  unfold Annals.step
  split
  · exact h
  · rename_i hgoes
    cases e with
    | configure c =>
      obtain ⟨_, _, _, _, _, _, hconfigure⟩ :=
        a.broadcast.publisher.configure_footprint enc.logged c
      apply h.still <;> rw [hconfigure]
    | attach limit src => exact h.attach hgoes limit src rfl
    | disturb run => apply h.still <;> rfl
    | elapse us => apply h.still <;> rfl

theorem Shipped.run (h : a.Shipped) (errands : List (Errand W)) :
    (a.run enc Attended.link errands).Shipped := by
  induction errands generalizing a with
  | nil => exact h
  | cons e rest ih => exact ih (h.step e)

end Steps

end Annals

/-- A publisher on a loopback transport of its own, with simulated encoders and any faults: whether
streams are given to a worker, and end or replace each other at any point, or are attached one by
one, they come out one after the other. -/
theorem streams_arrive_in_order (media : Media) (settings : PublishSettings)
    (codec : SimulatedCodec) (clock : CaptureClock) (now capacity : ℕ)
    (reorderProbability : Float) (chance : ℕ → Bool) :
    (∀ moves : List (Crossing.Move SimulatedCodec), (∀ move ∈ moves, move.Quiet) →
      let x := (Crossing.start settings codec clock now capacity reorderProbability chance).run
        (SimulatedCodec.encoders media) moves
      ArriveInOrder (fun k => k < x.worker.publisher.epoch ∨ x.worker.atEase = true) x.sent
        x.seen) ∧
    ∀ (visits : List ℕ) (errands : List (Errand SimulatedCodec)),
      let a := (Annals.start settings codec clock
        (.start capacity reorderProbability chance visits) now).run
        (SimulatedCodec.encoders media) Attended.link errands
      ArriveInOrder
        (fun k => k < a.broadcast.publisher.epoch ∨ ∀ how ∈ a.ends, how = .ended)
        (handedOver a.calls) a.broadcast.link.world.seen := by
  constructor
  · intro moves hquiet x
    have hkept : x.Kept := (Crossing.kept_start settings codec clock now capacity
      reorderProbability chance).run (SimulatedCodec.silent_encoders media) hquiet
    exact hkept.stowed.arriveInOrder fun k hk => hk.imp_right hkept.onway_of_atEase
  · intro visits errands a
    have hshipped : a.Shipped :=
      (Annals.shipped_start settings codec clock now capacity reorderProbability chance visits).run
        errands
    refine hshipped.shipping.stowed.arriveInOrder fun k hk => hk.imp_right fun hends => ?_
    rw [(hshipped.ended hends).1]
    rfl

namespace Replaced

/-- Five frames, of which three are drawn. -/
def first : Source SimulatedCodec :=
  .ofFrames [⟨0, none, 3⟩, ⟨1, none, 3⟩, ⟨2, none, 3⟩, ⟨3, none, 3⟩, ⟨4, none, 3⟩]

/-- The worker and the receiver by turns. -/
def turns (n : ℕ) : List (Crossing.Move SimulatedCodec) :=
  (List.replicate n [.worker (.go 0), .receive]).flatten

/-- The encoder crashes in the midst of the first stream. -/
def moves : List (Crossing.Move SimulatedCodec) :=
  [.worker (.post (.configure Faulty.config)), .worker (.post (.attach first))] ++ turns 6 ++
    [.worker (.disturb Faulty.crash)] ++ turns 6 ++ [.worker (.post (.attach Faulty.second))] ++
    turns 14

/-- Where all change places, nothing is left to it. -/
def chance : ℕ → Bool := fun _ => false

/-- A channel that holds one object, after a transport that swaps neighbours. -/
def crossing : Crossing SimulatedCodec :=
  (Crossing.start Faulty.settings {} (.startingAt 0) 0 1 1.0 chance).run
    (SimulatedCodec.encoders .video) moves

theorem quiet_first : ∀ run, Cue.effect run ∈ first.cues → ∀ w, (run w).2 = [] := by
  intro run hrun
  exact absurd hrun (Source.effect_not_mem_ofFrames _ run)

theorem quiet_turns (n : ℕ) : ∀ move ∈ turns n, move.Quiet := by
  intro move hmove
  obtain ⟨turn, hturn, hmove⟩ := List.mem_flatten.mp hmove
  rw [List.eq_of_mem_replicate hturn] at hmove
  rcases List.mem_pair.mp hmove with rfl | rfl <;> trivial

theorem quiet_moves : ∀ move ∈ moves, move.Quiet := by
  unfold moves
  simp only [List.forall_mem_append, List.mem_cons, List.not_mem_nil, or_false, forall_eq_or_imp,
    forall_eq]
  exact ⟨⟨⟨⟨⟨⟨trivial, quiet_first⟩, quiet_turns 6⟩, fun _ => rfl⟩, quiet_turns 6⟩,
    Faulty.quiet_second⟩, quiet_turns 14⟩

end Replaced

open Replaced in
/-- The last object of the first stream is held back until the stream is replaced. -/
theorem replaced_stream_arrives_in_order :
    (∀ move ∈ moves, move.Quiet) ∧
    ArriveInOrder (fun k => k < crossing.worker.publisher.epoch ∨ crossing.worker.atEase = true)
      crossing.sent crossing.seen ∧
    crossing.worker.atEase = true ∧
    crossing.sent.map (fun o => (o.epoch, o.group, o.object)) =
      [(1, 0, 0), (1, 1, 0), (1, 1, 1), (2, 0, 0)] ∧
    crossing.seen.map (fun o => (o.epoch, o.group, o.object)) =
      [(1, 1, 0), (1, 0, 0), (1, 1, 1), (2, 0, 0)] := by
  have hrun : (Crossing.start Faulty.settings {} (.startingAt 0) 0 1 1.0 chance).run
    (SimulatedCodec.encoders .video) moves = crossing := rfl
  have harrive := (streams_arrive_in_order .video Faulty.settings {} (.startingAt 0) 0 1 1.0
    chance).1 moves quiet_moves
  simp only [hrun] at harrive
  refine ⟨quiet_moves, harrive, ?_, ?_, ?_⟩
  all_goals decide +kernel

end LiveMedia
