import Mathlib.Data.Prod.Lex
import Mathlib.Logic.Relation
import LiveMedia.Proofs.Publisher.StreamDemands
import LiveMedia.Transport.Carrier

/-!
# A publishing worker and its orders

The owner of a worker gives it one command after the other and then dismisses it. A command is given
when the stream before it has ended, perhaps some time later; time passes only when the worker has
to wait. What is still to come is told by the orders carried out one by one without a worker, and
no step changes it. Each step also brings the worker nearer to its end.
-/

namespace LiveMedia
set_option autoImplicit false

variable {W S : Type}

namespace PublishCommand

def isAttach : PublishCommand W → Bool
  | attach _ => true
  | configure _ => false

/-- If the command attaches a stream, that stream is plain. -/
def Plain : PublishCommand W → Prop
  | attach src => src.Plain
  | configure _ => True

/-- Commands that may stand in line: nothing comes after a stream before it has ended. -/
def Lined : List (PublishCommand W) → Prop
  | [] => True
  | .configure _ :: rest => Lined rest
  | .attach src :: rest => src.Plain ∧ rest = []

theorem Lined.concat {queue : List (PublishCommand W)} (h : Lined queue)
    (hfree : ∀ c ∈ queue, c.isAttach = false) {c : PublishCommand W} (hc : c.Plain) :
    Lined (queue ++ [c]) := by
  induction queue with
  | nil =>
    cases c with
    | configure c => trivial
    | attach src => exact ⟨hc, rfl⟩
  | cons d rest ih =>
    cases d with
    | configure d => exact ih h fun c hc => hfree c (List.mem_cons_of_mem _ hc)
    | attach src => cases hfree _ List.mem_cons_self

end PublishCommand

namespace Publisher.AtRest

variable {enc : EncoderFamily W} {p : Publisher W}

theorem configure (h : p.AtRest) (henc : enc.Silent) (c : CodecConfig) :
    (p.configure enc c).2.AtRest := by
  obtain ⟨_, _, _, _, _, _, heq⟩ := p.configure_footprint enc c
  refine ⟨(p.receiving_configure enc c).trans h.receiving,
    (outputs_configure henc h.receiving c).trans h.outputs, ?_⟩
  rw [heq]
  exact h.whole

theorem beginStream (h : p.AtRest) (now : ℕ) : (p.beginStream now).AtRest :=
  ⟨h.receiving, h.outputs, h.whole⟩

end Publisher.AtRest

namespace Broadcast

variable (enc : EncoderFamily W) (link : Link S)

/-- Carries out commands one after the other, each so many microseconds after the one before it. A
stream that does not come to its end is the last. -/
def obey (limit : ℕ) : List (ℕ × PublishCommand W) → Broadcast W S → StreamEnd × Broadcast W S
  | [], b => (.ended, b)
  | (lag, .configure c) :: rest, b =>
    obey limit rest { b with publisher := (b.publisher.configure enc c).2, now := b.now + lag }
  | (lag, .attach src) :: rest, b =>
    match attach enc link limit src { b with now := b.now + lag } with
    | (.ended, b) => obey limit rest b
    | other => other

/-- Finishes a stream that has come to its end, and goes on with the commands after it. -/
def windUp (limit : ℕ) (orders : List (ℕ × PublishCommand W)) :
    StreamEnd × Broadcast W S → StreamEnd × Broadcast W S
  | (.ended, b) => obey enc link limit orders (b.finish enc link)
  | (.abandoned, b) =>
    (.abandoned, { b with publisher := { b.publisher with receiving := false, outputs := [] } })
  | (.broken, b) => (.broken, b)

variable {enc link}

theorem atRest_finish {b : Broadcast W S} (h : b.publisher.AtRest) :
    (b.finish enc link).publisher.AtRest := by
  obtain ⟨_, _, _, _, _, _, _, _, _, heq⟩ := b.finish_footprint enc link
  rw [heq]
  exact ⟨h.receiving, rfl, h.whole⟩

theorem obey_attach (limit lag : ℕ) {src : Source W} (hsrc : src.Plain)
    (rest : List (ℕ × PublishCommand W)) {b : Broadcast W S} (hb : b.publisher.AtRest) :
    obey enc link limit ((lag, .attach src) :: rest) b =
      windUp enc link limit rest (runSource enc link limit src { b with
        publisher := b.publisher.beginStream (b.now + lag), now := b.now + lag }) := by
  have hdrain : ({ b with publisher := b.publisher.beginStream (b.now + lag), now := b.now + lag } :
      Broadcast W S).drain link = _ := drain_of_nil hb.outputs
  rw [obey, attach]
  simp only [hb.receiving, Bool.not_true, Bool.false_eq_true, if_false, hdrain, hsrc.ends]
  rcases runSource enc link limit src _ with ⟨_ | _ | _, b'⟩ <;> rfl

/-- With a limit that is late enough no stream is abandoned. -/
theorem obey_within (henc : enc.Silent) {orders : List (ℕ × PublishCommand W)}
    (horders : ∀ order ∈ orders, order.2.Plain) {b : Broadcast W S} (hb : b.publisher.AtRest) :
    ∃ least, ∀ limit, least ≤ limit → (obey enc link limit orders b).1 ≠ .abandoned := by
  induction orders generalizing b with
  | nil => exact ⟨0, fun _ _ => nofun⟩
  | cons order rest ih =>
    obtain ⟨lag, c⟩ := order
    have hrest : ∀ order ∈ rest, order.2.Plain := fun o ho => horders o (List.mem_cons_of_mem _ ho)
    cases c with
    | configure c => exact ih hrest (b := { b with publisher := _, now := _ }) (hb.configure henc c)
    | attach src =>
      have hsrc : src.Plain := horders _ List.mem_cons_self
      obtain ⟨least, ⟨how, b'⟩, hall, hkept, hended⟩ :=
        runSource_within enc link hsrc (b := { b with
          publisher := b.publisher.beginStream (b.now + lag), now := b.now + lag })
          (hb.beginStream (b.now + lag))
      cases how with
      | ended =>
        obtain ⟨least', hleast'⟩ := ih hrest (b := b'.finish enc link) (atRest_finish (hended rfl))
        refine ⟨max least least', fun limit hlimit => ?_⟩
        rw [obey_attach limit lag hsrc rest hb, hall limit (by omega)]
        exact hleast' limit (by omega)
      | abandoned => exact absurd rfl hkept
      | broken =>
        refine ⟨least, fun limit hlimit => ?_⟩
        rw [obey_attach limit lag hsrc rest hb, hall limit hlimit]
        exact nofun

def endStream (b : Broadcast W S) : Broadcast W S :=
  { b with publisher := b.publisher.endStream }

/-- Sends what is left of a stream and tells the transport that it is over. -/
def close (link : Link S) (b : Broadcast W S) : Broadcast W S :=
  ((b.drain link).send link .flush).endStream

theorem finish_eq (b : Broadcast W S) :
    b.finish enc link = close link { b with publisher := b.publisher.flushEncoder enc } := rfl

/-- Goes on with a stream after the wait that it is in. -/
def carryOn (enc : EncoderFamily W) (link : Link S) (limit : ℕ) (wait : SourceWait)
    (src : Source W) (b : Broadcast W S) : StreamEnd × Broadcast W S :=
  match wait with
  | .untilDeadline deadline => resume (runSource enc link limit src) (b.await limit deadline)
  | _ => runSource enc link limit src b

end Broadcast

namespace PublishWorker

theorem goes_of_phase {w : PublishWorker W} {phase : PublishPhase W} (hphase : w.phase = phase)
    (h : ∀ how, phase ≠ .ended how) : w.isEnded = false := by
  unfold isEnded
  rw [hphase]
  cases phase with
  | ended how => exact absurd rfl (h how)
  | _ => rfl

/-- The last stream has ended, and no other is on its way. -/
def isFree (w : PublishWorker W) : Bool :=
  match w.phase, w.source, w.calls with
  | .serving, none, [] => w.mailbox.channel.queue.all (!·.isAttach)
  | _, _, _ => false

/-- The moment that the worker waits for has not come. -/
def isWaiting (w : PublishWorker W) (now : ℕ) : Bool :=
  match w.sourceWait with
  | .untilDeadline deadline => !Timer.due now deadline
  | _ => false

/-- How far the stream at hand is from its end. -/
def stage (w : PublishWorker W) : ℕ :=
  match w.phase, w.source with
  | .serving, none => 0
  | .serving, some src => src.weight + 3
  | .draining _, _ => 2
  | .closing _, _ => 1
  | .ended _, _ => 0

/-- What goes with the phase that the worker is in. -/
def Obeying (w : PublishWorker W) : Prop :=
  match w.phase, w.source with
  | .serving, none => w.calls = [] ∧ w.publisher.outputs = [] ∧ w.listening = true
  | .serving, some src => src.Plain ∧ w.mailbox.channel.queue = []
  | .draining next, source => next.isNone ∧ source = none ∧ w.mailbox.channel.queue = []
  | .closing next, source => next.isNone ∧ source = none ∧ w.mailbox.channel.queue = [] ∧
    w.publisher.outputs = []
  | .ended _, source => source = none ∧ w.calls = []

section Obeying

variable {w : PublishWorker W}

theorem Obeying.of_ended (h : w.Obeying) (hended : w.isEnded = true) :
    w.source = none ∧ w.calls = [] := by
  unfold Obeying at h
  unfold isEnded at hended
  split at hended
  · rename_i hphase
    rw [hphase] at h
    exact h
  · exact absurd hended Bool.false_ne_true

theorem Obeying.goes (h : w.Obeying) (hcalls : w.calls ≠ []) : w.isEnded = false :=
  Bool.eq_false_iff.mpr fun hended => hcalls (h.of_ended hended).2

/-- One of the calls is made. -/
theorem Obeying.called (h : w.Obeying) (hcalls : w.calls ≠ []) {p : Publisher W}
    (houtputs : p.outputs = w.publisher.outputs) (rest : List Transmission) :
    Obeying { w with calls := rest, call := none, publisher := p } := by
  have hgoes := h.goes hcalls
  unfold Obeying at h ⊢
  cases hphase : w.phase with
  | serving =>
    cases hsource : w.source with
    | none =>
      rw [hphase, hsource] at h
      exact absurd h.1 hcalls
    | some src =>
      rw [hphase, hsource] at h
      exact h
  | draining next =>
    rw [hphase] at h
    exact h
  | closing next =>
    rw [hphase] at h
    exact ⟨h.1, h.2.1, h.2.2.1, houtputs.trans h.2.2.2⟩
  | ended how =>
    unfold isEnded at hgoes
    rw [hphase] at hgoes
    exact absurd hgoes nofun

end Obeying

end PublishWorker

structure Engagement (W S : Type) where
  worker : PublishWorker W
  link : S
  now : ℕ
  /-- The commands still to be given, each after so many microseconds. -/
  orders : List (ℕ × PublishCommand W)

namespace Engagement

def start (p : Publisher W) (s : S) (now : ℕ) (orders : List (ℕ × PublishCommand W)) :
    Engagement W S := ⟨.new p, s, now, orders⟩

def broadcast (x : Engagement W S) : Broadcast W S := ⟨x.worker.publisher, x.link, x.now⟩

def update (x : Engagement W S) (w : PublishWorker W) : Engagement W S := { x with worker := w }

/-- The commands that are not yet carried out. -/
def commands (x : Engagement W S) : List (ℕ × PublishCommand W) :=
  x.worker.mailbox.channel.queue.map (0, ·) ++ x.orders

section Steps

variable (enc : EncoderFamily W) (link : Link S)

def canGo (x : Engagement W S) : Bool := x.worker.canStep link.carrier 0 x.now x.link

def go (x : Engagement W S) : Engagement W S :=
  let ((w, s), moved) := x.worker.step enc link.carrier 0 x.now x.link
  ⟨w, s, x.now + moved.getD 0, x.orders⟩

inductive Step : Engagement W S → Engagement W S → Prop where
  | go {x : Engagement W S} (able : x.canGo link = true) : Step x (x.go enc link)
  /-- The worker has to wait, and the clock moves to the moment that it waits for. -/
  | wake {x : Engagement W S} {deadline : ℕ} (unable : x.canGo link = false)
    (waits : x.worker.deadline? = some deadline) :
    Step x { x with now := Timer.wake x.now (Timer.tick deadline) }
  | order {x : Engagement W S} {lag : ℕ} {c : PublishCommand W} {rest : List _}
    (next : x.orders = (lag, c) :: rest) (free : x.worker.isFree = true)
    (accepts : x.worker.mailbox.accepts = true) (time : lag = 0 ∨ x.canGo link = false) :
    Step x ⟨(x.worker.post c).2, x.link, x.now + lag, rest⟩
  | dismiss {x : Engagement W S} (all : x.orders = [])
    (before : x.worker.mailbox.senders ≠ 0) : Step x (x.update x.worker.dismiss)

/-- How it ends if the commands that are left are carried out without a worker. -/
def prospects (limit : ℕ) (x : Engagement W S) : StreamEnd × Broadcast W S :=
  let b := x.broadcast.sendAll link x.worker.calls
  match x.worker.phase, x.worker.source with
  | .serving, none => b.obey enc link limit x.commands
  | .serving, some src =>
    Broadcast.windUp enc link limit x.commands
      ((b.drain link).carryOn enc link limit x.worker.sourceWait src)
  | .draining _, _ => (b.close link).obey enc link limit x.commands
  | .closing _, _ =>
    b.endStream.obey enc link limit x.commands
  | .ended .stopped, _ => (.ended, b)
  | .ended .failed, _ => (.broken, b)

end Steps

/-- What is left to do for the owner. -/
def duties (x : Engagement W S) : ℕ :=
  2 * x.orders.length + x.worker.mailbox.channel.queue.length + x.worker.mailbox.senders +
    x.worker.listening.toNat + (!x.worker.isEnded).toNat

/-- What is left to do before the stream at hand goes on. -/
def chores (x : Engagement W S) : ℕ :=
  x.worker.calls.length + (x.worker.isWaiting x.now).toNat

/-- Commands count first, then what is left of the stream at hand, of its chunks and its calls. -/
def rank (x : Engagement W S) : ℕ ×ₗ ℕ ×ₗ ℕ ×ₗ ℕ :=
  toLex (x.duties, toLex (x.worker.stage, toLex (x.worker.publisher.outputs.length, x.chores)))

section Rank

variable {x y : Engagement W S}

theorem nearer_of_duties (h : y.duties < x.duties) : y.rank < x.rank :=
  Prod.Lex.toLex_lt_toLex.mpr (Or.inl h)

theorem nearer_of_stage (hduties : y.duties = x.duties) (h : y.worker.stage < x.worker.stage) :
    y.rank < x.rank :=
  Prod.Lex.toLex_lt_toLex.mpr (Or.inr ⟨hduties, Prod.Lex.toLex_lt_toLex.mpr (Or.inl h)⟩)

theorem nearer_of_outputs (hduties : y.duties = x.duties)
    (hstage : y.worker.stage = x.worker.stage)
    (h : y.worker.publisher.outputs.length < x.worker.publisher.outputs.length) :
    y.rank < x.rank :=
  Prod.Lex.toLex_lt_toLex.mpr (Or.inr ⟨hduties, Prod.Lex.toLex_lt_toLex.mpr
    (Or.inr ⟨hstage, Prod.Lex.toLex_lt_toLex.mpr (Or.inl h)⟩)⟩)

theorem nearer_of_chores (hduties : y.duties = x.duties) (hstage : y.worker.stage = x.worker.stage)
    (houtputs : y.worker.publisher.outputs = x.worker.publisher.outputs)
    (h : y.chores < x.chores) : y.rank < x.rank :=
  Prod.Lex.toLex_lt_toLex.mpr (Or.inr ⟨hduties, Prod.Lex.toLex_lt_toLex.mpr
    (Or.inr ⟨hstage, Prod.Lex.toLex_lt_toLex.mpr
      (Or.inr ⟨congrArg List.length houtputs, h⟩)⟩)⟩)

end Rank

structure InOrder (x : Engagement W S) : Prop where
  phase : x.worker.Obeying
  call : x.worker.call = none
  receiving : x.worker.publisher.receiving = true
  cancelled : x.worker.cancelled = false
  wait : x.worker.sourceWait ≠ .forever
  whole : x.worker.isEnded = false → x.worker.publisher.broken = false
  lined : PublishCommand.Lined x.worker.mailbox.channel.queue
  room : x.worker.isEnded = false → x.worker.mailbox.channel =
    { (Channel.empty Mailbox.defaultCapacity : Channel (PublishCommand W)) with
      queue := x.worker.mailbox.channel.queue }
  left : x.worker.mailbox.senders = 0 → x.orders = []
  deaf : x.worker.listening = false →
    x.worker.mailbox.senders = 0 ∧ x.worker.mailbox.channel.queue = []
  orders : ∀ order ∈ x.orders, order.2.Plain

theorem inOrder_start {p : Publisher W} (hp : p.AtRest) (s : S) (now : ℕ)
    {orders : List (ℕ × PublishCommand W)} (horders : ∀ order ∈ orders, order.2.Plain) :
    (start p s now orders).InOrder where
  phase := ⟨rfl, hp.outputs, rfl⟩
  call := rfl
  receiving := hp.receiving
  cancelled := rfl
  wait := nofun
  whole := fun _ => hp.whole
  lined := trivial
  room := fun _ => rfl
  left := nofun
  deaf := nofun
  orders := horders

/-- A step that leaves the owner and the mailbox alone keeps the order if the worker does its
part. -/
theorem InOrder.of_worker {x y : Engagement W S} (h : x.InOrder) (hgoes : x.worker.isEnded = false)
    (hmailbox : y.worker.mailbox = x.worker.mailbox)
    (hlistening : y.worker.listening = x.worker.listening) (horders : y.orders = x.orders)
    (hphase : y.worker.Obeying) (hcall : y.worker.call = none)
    (hreceiving : y.worker.publisher.receiving = true) (hcancelled : y.worker.cancelled = false)
    (hwait : y.worker.sourceWait ≠ .forever)
    (hwhole : y.worker.isEnded = false → y.worker.publisher.broken = false) : y.InOrder where
  phase := hphase
  call := hcall
  receiving := hreceiving
  cancelled := hcancelled
  wait := hwait
  whole := hwhole
  lined := hmailbox ▸ h.lined
  room := fun _ => hmailbox ▸ h.room hgoes
  left := fun hleft => horders ▸ h.left (hmailbox ▸ hleft)
  deaf := fun hdeaf => hmailbox ▸ h.deaf (hlistening ▸ hdeaf)
  orders := horders ▸ h.orders

/-- A step keeps the order and the prospects, and brings the end nearer. -/
structure Advances (enc : EncoderFamily W) (link : Link S) (x y : Engagement W S) : Prop where
  inOrder : y.InOrder
  prospects : ∀ limit, (x.prospects enc link limit).1 ≠ .abandoned →
    y.prospects enc link limit = x.prospects enc link limit
  nearer : y.rank < x.rank

section Transitions

variable {enc : EncoderFamily W} {link : Link S} {x : Engagement W S}

theorem prospects_congr {y : Engagement W S} (hphase : y.worker.phase = x.worker.phase)
    (hsource : y.worker.source = x.worker.source)
    (hwait : y.worker.sourceWait = x.worker.sourceWait) (hcommands : y.commands = x.commands)
    (hsent : y.broadcast.sendAll link y.worker.calls = x.broadcast.sendAll link x.worker.calls)
    (limit : ℕ) : y.prospects enc link limit = x.prospects enc link limit := by
  unfold prospects
  rw [hphase, hsource, hwait, hcommands, hsent]

theorem advances_called (h : x.InOrder) {t : Transmission} {rest : List Transmission}
    (hcalls : x.worker.calls = t :: rest) :
    Advances enc link x { x with
      worker := { x.worker with
        calls := rest, call := none, publisher := (x.broadcast.send link t).publisher }
      link := (x.broadcast.send link t).link } := by
  obtain ⟨cursor, stats, l, hsend⟩ := x.broadcast.send_footprint link t
  have hbusy : x.worker.calls ≠ [] := by
    rw [hcalls]
    exact nofun
  have houtputs : (x.broadcast.send link t).publisher.outputs = x.worker.publisher.outputs := by
    rw [hsend]
    rfl
  refine ⟨h.of_worker (h.phase.goes hbusy) rfl rfl rfl (h.phase.called hbusy houtputs rest) rfl ?_
    h.cancelled h.wait ?_, fun limit _ => ?_, nearer_of_chores rfl rfl houtputs ?_⟩
  · rw [hsend]
    exact h.receiving
  · intro hgoes
    rw [hsend]
    exact h.whole hgoes
  · have hsent : x.broadcast.sendAll link x.worker.calls =
        (x.broadcast.send link t).sendAll link rest := by
      rw [hcalls]
      rfl
    apply prospects_congr
    · rfl
    · rfl
    · rfl
    · rfl
    · rw [hsent]
      refine congrArg (Broadcast.sendAll link · rest) ?_
      unfold broadcast at hsend ⊢
      simp only
      rw [hsend]
  · unfold chores
    rw [hcalls]
    exact Nat.add_lt_add_right (Nat.lt_succ_self _) _

/-- What the worker has when it serves no stream. -/
theorem InOrder.idle (h : x.InOrder) (hphase : x.worker.phase = .serving)
    (hsource : x.worker.source = none) :
    x.worker.calls = [] ∧ x.worker.publisher.AtRest ∧ x.worker.listening = true := by
  have hidle := h.phase
  unfold PublishWorker.Obeying at hidle
  rw [hphase, hsource] at hidle
  exact ⟨hidle.1, ⟨h.receiving, hidle.2.1,
    h.whole (PublishWorker.goes_of_phase hphase nofun)⟩, hidle.2.2⟩

/-- What the worker has when it serves a stream. -/
theorem InOrder.busy (h : x.InOrder) (hphase : x.worker.phase = .serving) {src : Source W}
    (hsource : x.worker.source = some src) :
    src.Plain ∧ x.worker.mailbox.channel.queue = [] := by
  have hbusy := h.phase
  unfold PublishWorker.Obeying at hbusy
  rwa [hphase, hsource] at hbusy

theorem prospects_idle (hphase : x.worker.phase = .serving) (hsource : x.worker.source = none)
    (hcalls : x.worker.calls = []) (limit : ℕ) :
    x.prospects enc link limit = x.broadcast.obey enc link limit x.commands := by
  unfold prospects
  rw [hphase, hsource, hcalls]
  rfl

theorem prospects_busy (hphase : x.worker.phase = .serving) {src : Source W}
    (hsource : x.worker.source = some src) (limit : ℕ) :
    x.prospects enc link limit = Broadcast.windUp enc link limit x.commands
      (((x.broadcast.sendAll link x.worker.calls).drain link).carryOn enc link limit
        x.worker.sourceWait src) := by
  unfold prospects
  rw [hphase, hsource]

theorem prospects_draining {next : Option (Source W)} (hphase : x.worker.phase = .draining next)
    (limit : ℕ) : x.prospects enc link limit =
      ((x.broadcast.sendAll link x.worker.calls).close link).obey enc link limit x.commands := by
  unfold prospects
  rw [hphase]

theorem prospects_closing (next : Option (Source W)) (hphase : x.worker.phase = .closing next)
    (limit : ℕ) : x.prospects enc link limit =
      ((x.broadcast.sendAll link x.worker.calls).endStream).obey enc link limit x.commands := by
  unfold prospects
  rw [hphase]

theorem commands_of_queue {queue : List (PublishCommand W)}
    (h : x.worker.mailbox.channel.queue = queue) : x.commands = queue.map (0, ·) ++ x.orders := by
  rw [commands, h]

/-- The worker with what is left in its mailbox. -/
def withQueue (w : PublishWorker W) (queue : List (PublishCommand W)) : PublishWorker W :=
  { w with mailbox.channel.queue := queue }

theorem advances_configured (henc : enc.Silent) (h : x.InOrder)
    (hphase : x.worker.phase = .serving) (hsource : x.worker.source = none) {c : CodecConfig}
    {rest : List (PublishCommand W)}
    (hqueue : x.worker.mailbox.channel.queue = .configure c :: rest) :
    Advances enc link x
      (x.update ((withQueue x.worker rest).follow enc x.now (.configure c))) := by
  obtain ⟨hcalls, hrest, hlistening⟩ := h.idle hphase hsource
  have hconfigured := hrest.configure henc c
  have hlined := h.lined
  rw [hqueue] at hlined
  refine ⟨{
    phase := ?_
    call := h.call
    receiving := hconfigured.receiving
    cancelled := h.cancelled
    wait := h.wait
    whole := fun _ => hconfigured.whole
    lined := hlined
    room := fun hgoes => ?_
    left := h.left
    deaf := fun hdeaf => absurd (hlistening.symm.trans hdeaf) nofun
    orders := h.orders }, fun limit _ => ?_, ?_⟩
  · change PublishWorker.Obeying { withQueue x.worker rest with publisher := _ }
    unfold PublishWorker.Obeying
    simp only [withQueue, hphase, hsource]
    exact ⟨hcalls, hconfigured.outputs, hlistening⟩
  · exact congrArg (fun channel : Channel _ => { channel with queue := rest }) (h.room hgoes)
  · rw [prospects_idle hphase hsource hcalls, commands_of_queue hqueue]
    exact prospects_idle
      (x := x.update ((withQueue x.worker rest).follow enc x.now (.configure c)))
      hphase hsource hcalls limit
  · refine nearer_of_duties ?_
    unfold duties
    rw [hqueue, List.length_cons]
    change 2 * x.orders.length + rest.length + x.worker.mailbox.senders +
      x.worker.listening.toNat + (!x.worker.isEnded).toNat < _
    omega

theorem advances_attached (h : x.InOrder) (hphase : x.worker.phase = .serving)
    (hsource : x.worker.source = none) {src : Source W} {rest : List (PublishCommand W)}
    (hqueue : x.worker.mailbox.channel.queue = .attach src :: rest) :
    Advances enc link x (x.update ((withQueue x.worker rest).follow enc x.now (.attach src))) := by
  obtain ⟨hcalls, hrest, hlistening⟩ := h.idle hphase hsource
  have hgoes := PublishWorker.goes_of_phase hphase nofun
  have hlined := h.lined
  rw [hqueue] at hlined
  obtain ⟨hsrc, rfl⟩ := hlined
  have hfollow : (withQueue x.worker []).follow enc x.now (.attach src) =
      (withQueue x.worker []).begin x.now src := if_neg (by
    rw [show (withQueue x.worker []).source = none from hsource]
    exact Bool.false_ne_true)
  rw [hfollow]
  refine ⟨{
    phase := ⟨hsrc, rfl⟩
    call := h.call
    receiving := hrest.receiving
    cancelled := h.cancelled
    wait := nofun
    whole := fun _ => hrest.whole
    lined := trivial
    room := fun _ => ?_
    left := h.left
    deaf := fun hdeaf => absurd (hlistening.symm.trans hdeaf) nofun
    orders := h.orders }, fun limit _ => ?_, ?_⟩
  · exact congrArg (fun channel : Channel _ => { channel with queue := [] }) (h.room hgoes)
  · rw [prospects_idle hphase hsource hcalls, commands_of_queue hqueue]
    refine (prospects_busy (x := x.update ((withQueue x.worker []).begin x.now src)) rfl rfl
      limit).trans ?_
    have hsent : (x.update ((withQueue x.worker []).begin x.now src)).broadcast.sendAll link
        (x.update ((withQueue x.worker []).begin x.now src)).worker.calls =
        (x.update ((withQueue x.worker []).begin x.now src)).broadcast :=
      congrArg (Broadcast.sendAll link _) hcalls
    have hdrain : (x.update ((withQueue x.worker []).begin x.now src)).broadcast.drain link = _ :=
      Broadcast.drain_of_nil hrest.outputs
    rw [hsent, hdrain]
    exact (Broadcast.obey_attach limit 0 hsrc x.orders (b := x.broadcast) hrest).symm
  · refine nearer_of_duties ?_
    unfold duties
    rw [hqueue, hgoes]
    change 2 * x.orders.length + 0 + x.worker.mailbox.senders +
      x.worker.listening.toNat + 1 < _
    simp only [List.length_singleton, Bool.not_false, Bool.toNat_true]
    omega

theorem advances_told (h : x.InOrder) (hphase : x.worker.phase = .serving) {src : Source W}
    (hsource : x.worker.source = some src) (hlistening : x.worker.listening = true)
    (hleft : x.worker.mailbox.senders = 0) :
    Advances enc link x (x.update { x.worker with listening := false }) := by
  obtain ⟨hsrc, hqueue⟩ := h.busy hphase hsource
  refine ⟨{
    phase := ?_
    call := h.call
    receiving := h.receiving
    cancelled := h.cancelled
    wait := h.wait
    whole := h.whole
    lined := h.lined
    room := h.room
    left := h.left
    deaf := fun _ => ⟨hleft, hqueue⟩
    orders := h.orders }, fun limit _ => ?_, ?_⟩
  · unfold PublishWorker.Obeying update
    simp only [hphase, hsource]
    exact ⟨hsrc, hqueue⟩
  · apply prospects_congr <;> rfl
  · refine nearer_of_duties ?_
    unfold duties
    rw [hlistening]
    change 2 * x.orders.length + x.worker.mailbox.channel.queue.length +
      x.worker.mailbox.senders + 0 + (!x.worker.isEnded).toNat < _
    simp only [Bool.toNat_true]
    omega

/-- The worker comes to its end, and perhaps it has been told before that it is dismissed. -/
theorem advances_finished (h : x.InOrder) (hgoes : x.worker.isEnded = false) {w : PublishWorker W}
    (how : WorkerEnd) (hsenders : w.mailbox.senders = x.worker.mailbox.senders)
    (hdeaf : w.listening = false → x.worker.mailbox.senders = 0)
    (hlistening : w.listening.toNat ≤ x.worker.listening.toNat) (hcall : w.call = none)
    (hcalls : w.calls = []) (hcancelled : w.cancelled = false) (hwait : w.sourceWait ≠ .forever)
    (hreceiving : w.publisher.receiving = true)
    (hprospects : ∀ limit, prospects enc link limit ⟨w.finish how, x.link, x.now, x.orders⟩ =
      x.prospects enc link limit) :
    Advances enc link x ⟨w.finish how, x.link, x.now, x.orders⟩ := by
  refine ⟨{
    phase := ⟨rfl, hcalls⟩
    call := hcall
    receiving := hreceiving
    cancelled := hcancelled
    wait := hwait
    whole := nofun
    lined := trivial
    room := nofun
    left := fun hleft => h.left (hsenders.symm.trans hleft)
    deaf := fun hnone => ⟨hsenders.trans (hdeaf hnone), rfl⟩
    orders := h.orders }, fun limit _ => hprospects limit, nearer_of_duties ?_⟩
  unfold duties
  rw [hgoes]
  change 2 * x.orders.length + 0 + w.mailbox.senders + w.listening.toNat + 0 < _
  rw [hsenders]
  simp only [Bool.not_false, Bool.toNat_true]
  omega

theorem advances_dismissed (h : x.InOrder) (hphase : x.worker.phase = .serving)
    (hsource : x.worker.source = none) (hqueue : x.worker.mailbox.channel.queue = [])
    (hleft : x.worker.mailbox.senders = 0) :
    Advances enc link x (x.update ({ x.worker with listening := false }.finish .stopped)) := by
  obtain ⟨hcalls, -, hlistening⟩ := h.idle hphase hsource
  have hgoes := PublishWorker.goes_of_phase hphase nofun
  refine advances_finished h hgoes .stopped rfl (fun _ => hleft) (Nat.zero_le _) h.call hcalls
    h.cancelled h.wait h.receiving fun limit => ?_
  rw [prospects_idle hphase hsource hcalls, commands_of_queue hqueue, h.left hleft]
  change (StreamEnd.ended, x.broadcast.sendAll link x.worker.calls) = (.ended, x.broadcast)
  rw [hcalls]
  rfl

theorem advances_handled (h : x.InOrder) (hcalls : x.worker.calls = [])
    (hphase : x.worker.phase = .serving ∧ x.worker.source.isSome = true ∨
      ∃ next, x.worker.phase = .draining next) {c : Chunk} {rest : List Chunk}
    (houtputs : x.worker.publisher.outputs = c :: rest) :
    Advances enc link x (x.update (x.worker.handleOutput x.now c rest)) := by
  obtain ⟨_, _, _, _, _, _, _, _, hsame⟩ :=
    Publisher.handle_footprint { x.worker.publisher with outputs := rest } x.now c
  have hgoes : x.worker.isEnded = false := by
    rcases hphase with ⟨hp, _⟩ | ⟨next, hp⟩ <;> exact PublishWorker.goes_of_phase hp nofun
  -- What is sent is what the publisher sends by itself, the calls for this chunk first.
  have hsent : (x.update (x.worker.handleOutput x.now c rest)).broadcast.sendAll link
      (x.worker.handleOutput x.now c rest).calls =
        (x.broadcast.holding rest).handle link c := rfl
  have hdrain : ((x.broadcast.holding rest).handle link c).drain link =
      (x.broadcast.sendAll link x.worker.calls).drain link := by
    rw [hcalls]
    exact (Broadcast.drain_of_cons (b := x.broadcast) houtputs).symm
  refine ⟨h.of_worker hgoes rfl rfl rfl ?_ h.call ?_ h.cancelled h.wait ?_, fun limit _ => ?_, ?_⟩
  · have hbefore := h.phase
    change PublishWorker.Obeying { x.worker with
      publisher := (Publisher.handle { x.worker.publisher with outputs := rest } x.now c).2
      calls := (Publisher.handle { x.worker.publisher with outputs := rest } x.now c).1 }
    unfold PublishWorker.Obeying at hbefore ⊢
    rcases hphase with ⟨hp, hs⟩ | ⟨next, hp⟩
    · obtain ⟨src, hs⟩ := Option.isSome_iff_exists.mp hs
      simp only [hp, hs] at hbefore ⊢
      exact hbefore
    · simp only [hp] at hbefore ⊢
      exact hbefore
  · change (Publisher.handle { x.worker.publisher with outputs := rest } x.now c).2.receiving = true
    rw [hsame]
    exact h.receiving
  · intro _
    change (Publisher.handle { x.worker.publisher with outputs := rest } x.now c).2.broken = false
    rw [hsame]
    exact h.whole hgoes
  · rcases hphase with ⟨hp, hs⟩ | ⟨next, hp⟩
    · obtain ⟨src, hs⟩ := Option.isSome_iff_exists.mp hs
      rw [prospects_busy hp hs]
      refine (prospects_busy (x := x.update (x.worker.handleOutput x.now c rest)) hp hs
        limit).trans ?_
      rw [← hdrain, ← hsent]
      rfl
    · rw [prospects_draining hp]
      refine (prospects_draining (x := x.update (x.worker.handleOutput x.now c rest)) hp
        limit).trans ?_
      unfold Broadcast.close
      rw [← hdrain, ← hsent]
      rfl
  · refine nearer_of_outputs rfl rfl ?_
    change (Publisher.handle { x.worker.publisher with outputs := rest } x.now c).2.outputs.length <
      _
    rw [hsame, houtputs]
    exact Nat.lt_succ_self _

theorem advances_drained (h : x.InOrder) (hcalls : x.worker.calls = [])
    {next : Option (Source W)} (hphase : x.worker.phase = .draining next)
    (houtputs : x.worker.publisher.outputs = []) :
    Advances enc link x (x.update { x.worker with calls := [.flush], phase := .closing next }) := by
  have hgoes := PublishWorker.goes_of_phase hphase nofun
  have hbefore := h.phase
  unfold PublishWorker.Obeying at hbefore
  rw [hphase] at hbefore
  obtain ⟨hnext, hsource, hqueue⟩ := hbefore
  refine ⟨h.of_worker hgoes rfl rfl rfl ⟨hnext, hsource, hqueue, houtputs⟩ h.call h.receiving
    h.cancelled h.wait fun _ => h.whole hgoes, fun limit _ => ?_, ?_⟩
  · rw [prospects_draining hphase, hcalls]
    refine (prospects_closing next rfl limit).trans ?_
    have hdrain : (x.broadcast.sendAll link []).drain link = x.broadcast :=
      Broadcast.drain_of_nil houtputs
    unfold Broadcast.close
    rw [hdrain]
    rfl
  · refine nearer_of_stage ?_ ?_
    · unfold duties
      rw [hgoes]
      rfl
    · unfold PublishWorker.stage
      simp only [hphase]
      exact Nat.lt_succ_self 1

theorem advances_concluded (h : x.InOrder) (hcalls : x.worker.calls = [])
    {next : Option (Source W)} (hphase : x.worker.phase = .closing next) :
    Advances enc link x (x.update (x.worker.conclude x.now next)) := by
  have hgoes := PublishWorker.goes_of_phase hphase nofun
  have hbefore := h.phase
  unfold PublishWorker.Obeying at hbefore
  rw [hphase] at hbefore
  obtain ⟨hnext, hsource, hqueue, houtputs⟩ := hbefore
  obtain rfl : next = none := Option.isNone_iff_eq_none.mp hnext
  have hprospects : ∀ limit, x.prospects enc link limit =
      x.broadcast.endStream.obey enc link limit x.orders := by
    intro limit
    rw [prospects_closing none hphase, hcalls, commands_of_queue hqueue]
    rfl
  unfold PublishWorker.conclude
  simp only
  by_cases hlistening : x.worker.listening = true
  · rw [if_pos hlistening]
    refine ⟨h.of_worker hgoes rfl rfl rfl ?_ h.call h.receiving h.cancelled h.wait
      fun _ => h.whole hgoes, fun limit _ => ?_, ?_⟩
    · unfold PublishWorker.Obeying update
      simp only [hsource]
      exact ⟨hcalls, houtputs, hlistening⟩
    · rw [hprospects]
      refine (prospects_idle (x := x.update { x.worker with
        publisher := x.worker.publisher.endStream, phase := .serving }) rfl hsource hcalls
        limit).trans ?_
      exact congrArg (Broadcast.obey enc link limit · x.broadcast.endStream)
        (commands_of_queue hqueue)
    · refine nearer_of_stage ?_ ?_
      · unfold duties
        rw [hgoes]
        rfl
      · unfold PublishWorker.stage update
        simp only [hphase, hsource]
        exact Nat.one_pos
  · obtain ⟨hleft, -⟩ := h.deaf (Bool.not_eq_true _ ▸ hlistening)
    rw [if_neg hlistening]
    refine advances_finished h hgoes .stopped rfl (fun _ => hleft) (Nat.le_refl _) h.call hcalls
      h.cancelled h.wait h.receiving fun limit => ?_
    rw [hprospects, h.left hleft]
    change (StreamEnd.ended, x.broadcast.endStream.sendAll link x.worker.calls) = _
    rw [hcalls]
    rfl

variable (enc link) in
theorem prospects_asked (h : x.InOrder) (hphase : x.worker.phase = .serving) {src : Source W}
    (hsource : x.worker.source = some src) (hcalls : x.worker.calls = [])
    (houtputs : x.worker.publisher.outputs = []) (hcan : x.worker.canAsk x.now = true) :
    let answer := src.next x.now x.worker.publisher.codec
    answer.emitted = [] ∧ ∀ limit, x.prospects enc link limit =
      Broadcast.windUp enc link limit x.commands
        (Broadcast.meet enc link limit answer.supply (x.broadcast.withCodec answer.codec)) := by
  obtain ⟨hsrc, -⟩ := h.busy hphase hsource
  have hwhole := h.whole (PublishWorker.goes_of_phase hphase nofun)
  have hnext := fun limit => Broadcast.runSource_next enc link limit hsrc
    (b := x.broadcast) hwhole houtputs
  refine ⟨(hnext 0).1, fun limit => ?_⟩
  have hdrain : (x.broadcast.sendAll link []).drain link = x.broadcast :=
    Broadcast.drain_of_nil houtputs
  have hcarry : x.broadcast.carryOn enc link limit x.worker.sourceWait src =
      Broadcast.runSource enc link limit src x.broadcast := by
    unfold PublishWorker.canAsk at hcan
    rw [hsource] at hcan
    unfold Broadcast.carryOn
    rcases hwait : x.worker.sourceWait with _ | deadline | _
    · rfl
    · rw [hwait] at hcan
      have hdue : Timer.due x.broadcast.now deadline = true := (Bool.and_eq_true_iff.mp hcan).2
      simp only
      unfold Broadcast.await
      rw [if_pos hdue, Broadcast.resume]
    · rfl
  rw [prospects_busy hphase hsource, hcalls, hdrain, hcarry]
  exact congrArg _ (hnext limit).2

/-- The stream goes on with what is left of its source. -/
theorem advances_served (h : x.InOrder) (hphase : x.worker.phase = .serving) {src : Source W}
    (hsource : x.worker.source = some src) (hcalls : x.worker.calls = []) {rest : Source W}
    (hrest : rest.Plain ∧ rest.weight < src.weight) {p : Publisher W}
    (hreceiving : p.receiving = true) (hwhole : p.broken = false) (wait : SourceWait)
    (hwait : wait ≠ .forever) (now : ℕ)
    (hprospects : ∀ limit, (x.prospects enc link limit).1 ≠ .abandoned →
      Broadcast.windUp enc link limit x.commands
        (((⟨p, x.link, now⟩ : Broadcast W S).drain link).carryOn enc link limit wait rest) =
        x.prospects enc link limit) :
    Advances enc link x ⟨{ x.worker with publisher := p, source := some rest, sourceWait := wait },
      x.link, now, x.orders⟩ := by
  obtain ⟨-, hqueue⟩ := h.busy hphase hsource
  have hgoes := PublishWorker.goes_of_phase hphase nofun
  refine ⟨h.of_worker hgoes rfl rfl rfl ?_ h.call hreceiving h.cancelled hwait fun _ => hwhole,
    fun limit hkept => ?_, nearer_of_stage rfl ?_⟩
  · unfold PublishWorker.Obeying
    simp only [hphase]
    exact ⟨hrest.1, hqueue⟩
  · refine Eq.trans (prospects_busy (x := ⟨{ x.worker with
      publisher := p, source := some rest, sourceWait := wait }, x.link, now, x.orders⟩) hphase rfl
      limit) ?_
    refine Eq.trans ?_ (hprospects limit hkept)
    unfold broadcast
    simp only [hcalls]
    rfl
  · unfold PublishWorker.stage
    simp only [hphase, hsource]
    exact Nat.add_lt_add_right hrest.2 3

/-- The worker fails, and nothing comes after that. -/
theorem advances_failed (h : x.InOrder) (hgoes : x.worker.isEnded = false) {w : PublishWorker W}
    (hmailbox : w.mailbox = x.worker.mailbox)
    (hlistening : w.listening = x.worker.listening) (hcall : w.call = none) (hnone : w.calls = [])
    (hcancelled : w.cancelled = false) (hwait : w.sourceWait ≠ .forever)
    (hreceiving : w.publisher.receiving = true)
    (hprospects : ∀ limit, (.broken, ⟨w.publisher, x.link, x.now⟩) = x.prospects enc link limit) :
    Advances enc link x ⟨w.finish .failed, x.link, x.now, x.orders⟩ := by
  refine advances_finished h hgoes .failed (by rw [hmailbox])
    (fun hdeaf => (h.deaf (hlistening.symm.trans hdeaf)).1) (by rw [hlistening]) hcall hnone
    hcancelled hwait hreceiving fun limit => ?_
  rw [← hprospects]
  change (StreamEnd.broken, Broadcast.sendAll link ⟨w.publisher, x.link, x.now⟩ w.calls) = _
  rw [hnone]
  rfl

/-- The source has ended, and the encoder is flushed. -/
theorem advances_ended (h : x.InOrder) (hphase : x.worker.phase = .serving) {src : Source W}
    (hsource : x.worker.source = some src) (hcalls : x.worker.calls = []) {codec : W}
    (hprospects : ∀ limit, x.prospects enc link limit =
      Broadcast.windUp enc link limit x.commands (.ended, x.broadcast.withCodec codec)) :
    Advances enc link x ⟨PublishWorker.endSource enc { x.worker with
      publisher := { x.worker.publisher with codec := codec }, sourceWait := .over } none,
      x.link, x.now, x.orders⟩ := by
  obtain ⟨-, hqueue⟩ := h.busy hphase hsource
  have hgoes := PublishWorker.goes_of_phase hphase nofun
  obtain ⟨_, _, hflush⟩ :=
    Publisher.flushEncoder_footprint enc { x.worker.publisher with codec := codec }
  have hreceiving := (Publisher.receiving_flushEncoder enc
    { x.worker.publisher with codec := codec }).trans h.receiving
  refine ⟨h.of_worker hgoes rfl rfl rfl ⟨rfl, rfl, hqueue⟩ h.call hreceiving h.cancelled nofun
    ?_, fun limit _ => ?_, nearer_of_stage ?_ ?_⟩
  · intro _
    change (Publisher.flushEncoder enc { x.worker.publisher with codec := codec }).broken = false
    rw [hflush]
    exact h.whole hgoes
  · rw [hprospects, Broadcast.windUp, Broadcast.finish_eq]
    refine (prospects_draining (x := ⟨PublishWorker.endSource enc { x.worker with
      publisher := { x.worker.publisher with codec := codec }, sourceWait := .over } none,
      x.link, x.now, x.orders⟩) rfl limit).trans ?_
    change Broadcast.obey enc link limit x.commands
      (Broadcast.close link (Broadcast.sendAll link _ x.worker.calls)) = _
    rw [hcalls]
    rfl
  · unfold duties
    rw [hgoes]
    rfl
  · unfold PublishWorker.stage
    simp only [hphase, hsource]
    exact Nat.lt_of_lt_of_le (Nat.lt_succ_self 2) (Nat.le_add_left 3 _)

/-- The source gives a frame. -/
theorem advances_submitted (h : x.InOrder) (hphase : x.worker.phase = .serving) {src : Source W}
    (hsource : x.worker.source = some src) (hcalls : x.worker.calls = []) {codec : W} {f : Frame}
    {rest : Source W} (hrest : rest.Plain ∧ rest.weight < src.weight)
    (hprospects : ∀ limit, x.prospects enc link limit =
      Broadcast.windUp enc link limit x.commands
        (Broadcast.meet enc link limit (.frame f rest) (x.broadcast.withCodec codec))) :
    let p := Publisher.submit enc { x.worker.publisher with codec := codec } x.now f
    let w := { x.worker with publisher := p, source := some rest, sourceWait := .over }
    Advances enc link x ⟨if p.broken then w.finish .failed else w, x.link, x.now, x.orders⟩ := by
  intro p w
  have hgoes := PublishWorker.goes_of_phase hphase nofun
  have hover : SourceWait.over ≠ .forever := by decide
  have hreceiving : p.receiving = true :=
    (Publisher.receiving_submit enc _ x.now f).trans h.receiving
  have hsubmit : ((x.broadcast.withCodec codec).submit enc f).publisher = p := rfl
  cases hbroken : p.broken with
  | true =>
    rw [if_pos rfl]
    refine advances_failed h hgoes rfl rfl h.call hcalls h.cancelled hover hreceiving
      fun limit => ?_
    rw [hprospects, Broadcast.meet, if_pos (hsubmit ▸ hbroken)]
    rfl
  | false =>
    rw [if_neg Bool.false_ne_true]
    refine advances_served h hphase hsource hcalls hrest hreceiving hbroken .over hover x.now
      fun limit _ => ?_
    rw [hprospects, Broadcast.meet, if_neg (by rw [hsubmit, hbroken]; exact Bool.false_ne_true)]
    rfl

theorem advances_asked (h : x.InOrder) (hphase : x.worker.phase = .serving) {src : Source W}
    (hsource : x.worker.source = some src) (hcalls : x.worker.calls = [])
    (houtputs : x.worker.publisher.outputs = []) (hcan : x.worker.canAsk x.now = true) :
    let asked := { x.worker with sourceWait := .over }.askSource enc x.now src
    Advances enc link x ⟨asked.1, x.link, x.now + asked.2.getD 0, x.orders⟩ := by
  obtain ⟨hsrc, -⟩ := h.busy hphase hsource
  have hgoes := PublishWorker.goes_of_phase hphase nofun
  have hwhole := h.whole hgoes
  obtain ⟨hquiet, hprospects⟩ :=
    prospects_asked enc link h hphase hsource hcalls houtputs hcan
  have hleads := Source.leads_next hsrc x.now x.worker.publisher.codec
  unfold PublishWorker.askSource
  simp only
  generalize src.next x.now x.worker.publisher.codec = answer at *
  obtain ⟨supply, codec, emitted⟩ := answer
  simp only at hquiet hprospects hleads ⊢
  subst hquiet
  have hdeliver : ({ x.worker.publisher with codec := codec } : Publisher W).deliver [] =
      { x.worker.publisher with codec := codec } := by
    unfold Publisher.deliver
    rw [if_pos h.receiving, List.append_nil]
  have hover : SourceWait.over ≠ .forever := by decide
  rw [hdeliver]
  cases supply with
  | frame f rest =>
    exact advances_submitted h hphase hsource hcalls (hleads.rest rest rfl) hprospects
  | wait deadline rest =>
    have hwaits : SourceWait.untilDeadline deadline ≠ .forever := by simp
    refine advances_served h hphase hsource hcalls (hleads.rest rest rfl)
      (p := { x.worker.publisher with codec := codec }) h.receiving hwhole
      (.untilDeadline deadline) hwaits x.now fun limit _ => ?_
    rw [hprospects, Broadcast.meet_wait, Broadcast.drain_of_nil houtputs]
    rfl
  | moved us rest =>
    refine advances_served h hphase hsource hcalls (hleads.rest rest rfl)
      (p := { x.worker.publisher with codec := codec }) h.receiving hwhole .over hover
      (x.now + us) fun limit hkept => ?_
    rw [hprospects, Broadcast.meet] at hkept ⊢
    rw [Broadcast.drain_of_nil houtputs]
    split at hkept
    · exact absurd rfl hkept
    · rename_i hlimit
      rw [if_neg hlimit]
      rfl
  | stalled => exact absurd rfl hleads.ends
  | ended => exact advances_ended h hphase hsource hcalls hprospects
  | broken =>
    exact advances_failed h hgoes rfl rfl h.call hcalls h.cancelled hover h.receiving
      fun limit => (hprospects limit).symm

end Transitions

end Engagement

end LiveMedia
