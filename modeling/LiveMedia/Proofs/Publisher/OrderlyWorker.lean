import LiveMedia.Proofs.Publisher.Attachment
import LiveMedia.Proofs.Publisher.WorkerSources

/-!
# A publishing worker whose books are right

Every step of the worker keeps its books right, and where it is idle it has handled all that came
out of its encoders, unless they held something back.
-/

namespace LiveMedia
set_option autoImplicit false

variable {W S : Type}

/-- What happens to encoders is written down, and is as `Q` says. -/
def Aside (Q : EncoderCall → Prop)
    (run : Logged W EncoderCall → Logged W EncoderCall × List Chunk) : Prop :=
  ∃ plain : W → W × List Chunk, run = Logged.aside plain ∧ ∀ w, Q (.aside (plain w).2)

namespace Source

theorem only_logged {Q : EncoderCall → Prop} {src : Source W}
    (h : ∀ run, Cue.effect run ∈ src.cues → ∀ w, Q (.aside (run w).2)) :
    src.logged.Only (Aside Q) := by
  intro run hrun
  obtain ⟨plain, hmem, hrun⟩ := mem_cues_logged hrun
  exact ⟨plain, hrun, h plain hmem⟩

/-- What the source has done to encoders is written down. -/
def Supplied (Q : EncoderCall → Prop) (l : Logged W EncoderCall) (before : List Chunk)
    (answer : Answer (Logged W EncoderCall)) : Prop :=
  ∃ more, answer.codec.calls = l.calls ++ more ∧ answer.emitted = before ++ emitted more ∧
    ∀ c ∈ more, Q c ∧ c.accepted? = none ∧ c.rejects = false

/-- The source has done nothing. -/
theorem Supplied.idle {Q : EncoderCall → Prop} {l : Logged W EncoderCall} {before : List Chunk}
    (supply : Supply (Logged W EncoderCall)) : Supplied Q l before ⟨supply, l, before⟩ :=
  ⟨[], (List.append_nil _).symm, (List.append_nil _).symm, nofun⟩

theorem Supplied.effect {Q : EncoderCall → Prop} {plain : W → W × List Chunk}
    (hplain : ∀ w, Q (.aside (plain w).2)) {l : Logged W EncoderCall} {before : List Chunk}
    {answer : Answer (Logged W EncoderCall)}
    (h : Supplied Q (Logged.aside plain l).1 (before ++ (Logged.aside plain l).2) answer) :
    Supplied Q l before answer := by
  obtain ⟨more, hlog, hgave, hall⟩ := h
  refine ⟨.aside (plain l.world).2 :: more, ?_, ?_, fun c hc => ?_⟩
  · rw [hlog]
    exact List.append_assoc _ [_] more
  · rw [hgave]
    exact List.append_assoc _ _ _
  · rcases List.mem_cons.mp hc with rfl | hc
    · exact ⟨hplain _, rfl, rfl⟩
    · exact hall c hc

/-- A source that is asked acts on the encoders only as it says. -/
theorem supplied_ask {Q : EncoderCall → Prop} (now : ℕ) (ticker : Option Ticker) (stalls : Bool)
    {cues : List (Cue (Logged W EncoderCall))} (h : Only (Aside Q) ⟨cues, ticker, stalls⟩)
    (l : Logged W EncoderCall) (before : List Chunk) :
    Supplied Q l before (ask now ticker stalls cues l before) := by
  induction cues generalizing l before with
  | nil => exact .idle _
  | cons cue cues ih =>
    have hlater : Only (Aside Q) ⟨cues, ticker, stalls⟩ :=
      fun run hrun => h run (List.mem_cons_of_mem _ hrun)
    unfold ask
    cases cue with
    | frame f => exact .idle _
    | effect run =>
      obtain ⟨plain, rfl, hplain⟩ := h run List.mem_cons_self
      exact .effect hplain (ih hlater _ _)
    | advance us => exact .idle _
    | pause ms =>
      simp only
      split
      · exact ih hlater l before
      · exact .idle _
    | breakDown => exact .idle _

end Source

def PublishCommand.logged : PublishCommand W → PublishCommand (Logged W EncoderCall)
  | .configure c => .configure c
  | .attach src => .attach src.logged

namespace PublishWorker

/-- No stream is at hand, or all that came out of it is on its way. A worker that was cancelled is
not idle but gone. -/
def idle (w : PublishWorker W) : Bool :=
  match w.phase with
  | .serving => w.source.isNone
  | .draining _ => false
  | .closing _ => true
  | .ended how => how == .stopped && !w.cancelled

theorem idle_of_cancel {w : PublishWorker W} (h : w.cancel.idle = true) : w.idle = true := by
  unfold idle cancel at h
  unfold idle
  cases hphase : w.phase <;> simp_all

section Logged

variable {Q : EncoderCall → Prop} {calls : List (Transmission × Bool)} {streams : List ℕ}
  {frames : ℕ} {w w' : PublishWorker (Logged W EncoderCall)}

def log (w : PublishWorker (Logged W EncoderCall)) : List EncoderCall := w.publisher.codec.calls

theorem goes_of_serving (hphase : w.phase = .serving) : w.isEnded = false := by
  unfold isEnded
  rw [hphase]

theorem not_idle (hphase : w.phase = .serving) (hsource : w.source.isSome = true) :
    w.idle = false := by
  unfold idle
  rw [hphase]
  cases hw : w.source with
  | none =>
    rw [hw] at hsource
    cases hsource
  | some src => rfl

/-- A worker whose books are right. When it is idle nothing is left among the outputs, unless
encoders held something back. -/
structure Orderly (Q : EncoderCall → Prop) (w : PublishWorker (Logged W EncoderCall))
    (calls : List (Transmission × Bool)) (streams : List ℕ) (frames : ℕ) : Prop where
  attributed : w.publisher.books.Attributed Q calls w.calls streams frames
  call : w.call = none
  ended : w.isEnded = true → w.calls = []
  outputs : w.idle = true → Paced w.log → Settled w.log → w.publisher.outputs = []
  broken : w.publisher.broken = true → w.phase = .ended .failed

/-- Where a worker is idle, its encoders hold nothing back. -/
structure Rested (w : PublishWorker (Logged W EncoderCall)) : Prop where
  paced : Paced w.log
  settled : w.idle = true → Settled w.log

namespace Orderly

theorem whole (h : w.Orderly Q calls streams frames) (hgoes : w.isEnded = false) :
    w.publisher.broken = false := by
  cases hbroken : w.publisher.broken with
  | false => rfl
  | true =>
    unfold isEnded at hgoes
    rw [h.broken hbroken] at hgoes
    cases hgoes

/-- Nothing but a frame breaks a worker that goes on. -/
theorem unbroken (h : w.Orderly Q calls streams frames) (hgoes : w.isEnded = false) {b : Books}
    {more : List EncoderCall} (hworks : w.publisher.books.Works Q b 0 more) {P : Prop}
    (hbroken : b.broken = true) : P :=
  absurd (hbroken.symm.trans ((hworks.broken rfl).trans (h.whole hgoes))) nofun

theorem works (h : w.Orderly Q calls streams frames) (hrested : w.Rested)
    (w' : PublishWorker (Logged W EncoderCall)) {n : ℕ} {more : List EncoderCall}
    (hworks : w.publisher.books.Works Q w'.publisher.books n more)
    (hcalls : w'.calls = w.calls) (hcall : w'.call = none)
    (hended : w'.isEnded = true → w.calls = [])
    (hidle : w'.idle = true → w.idle = true ∧ accepted more = [])
    (hbroken : w'.publisher.broken = true → w'.phase = .ended .failed) :
    w'.Orderly Q calls (assign streams w'.log w'.publisher.epoch) (frames + n) where
  attributed := by
    rw [hcalls]
    exact h.attributed.works hworks
  call := hcall
  ended hgone := hcalls.trans (hended hgone)
  outputs hrest hpaced _ :=
    have ⟨hbefore, hnone⟩ := hidle hrest
    have hsettled := hrested.settled hbefore
    h.attributed.outputs_eq_nil hworks (h.outputs hbefore hrested.paced hsettled) hsettled hpaced
      hnone
  broken := hbroken

/-- The books stay as they are. -/
theorem still (h : w.Orderly Q calls streams frames) (hrested : w.Rested)
    (w' : PublishWorker (Logged W EncoderCall)) (hbooks : w'.publisher.books = w.publisher.books)
    (hcalls : w'.calls = w.calls) (hcall : w'.call = none)
    (hended : w'.isEnded = true → w.calls = []) (hidle : w'.idle = true → w.idle = true)
    (hbroken : w.publisher.broken = true → w'.phase = .ended .failed) :
    w'.Orderly Q calls (assign streams w'.log w'.publisher.epoch) frames := by
  have hworks : w.publisher.books.Works Q w'.publisher.books 0 [] := by
    rw [hbooks]
    exact .refl _
  exact h.works hrested w' hworks hcalls hcall hended (fun hrest => ⟨hidle hrest, rfl⟩)
    fun hb => hbroken ((congrArg Books.broken hbooks).symm.trans hb)

/-- A call is made. -/
theorem send (h : w.Orderly Q calls streams frames) {t : Transmission} {rest : List Transmission}
    (hcalls : w.calls = t :: rest) (ok : Bool) :
    let w' := { w with calls := rest, call := none, publisher := w.publisher.settle t ok }
    w'.Orderly Q (calls ++ [(t, ok)]) (assign streams w'.log w'.publisher.epoch) frames := by
  obtain ⟨past, present, haccounted, hstreams⟩ := h.attributed
  obtain ⟨_, _, hsame⟩ := w.publisher.settle_footprint t ok
  rw [hcalls] at haccounted
  have hsent := haccounted.send ok
  intro w'
  have hstreams' : assign streams w'.log w'.publisher.epoch = streams := by
    change assign streams (w.publisher.settle t ok).codec.calls (w.publisher.settle t ok).epoch = _
    rw [hsame]
    exact h.attributed.assign_eq
  rw [hstreams']
  refine ⟨⟨past, present, ?_, ?_⟩, rfl, fun hgone => ?_, ?_, ?_⟩
  · change (w.publisher.settle t ok).books.Accounted Q _ rest past present frames
    rw [Publisher.books_settle]
    exact hsent
  · change streams = assign _ (w.publisher.settle t ok).codec.calls (w.publisher.settle t ok).epoch
    rw [hsame]
    exact hstreams
  · exact absurd (hcalls.symm.trans (h.ended hgone)) nofun
  · change w.idle = true → Paced (w.publisher.settle t ok).codec.calls →
      Settled (w.publisher.settle t ok).codec.calls → (w.publisher.settle t ok).outputs = []
    rw [hsame]
    exact h.outputs
  · change (w.publisher.settle t ok).broken = true → w.phase = .ended .failed
    rw [hsame]
    exact h.broken

/-- The first chunk that came out is handled. -/
theorem handleOutput (h : w.Orderly Q calls streams frames)
    (hcalls : w.calls = []) (hgoes : w.isEnded = false) {c : Chunk} {rest : List Chunk}
    (houtputs : w.publisher.outputs = c :: rest) (now : ℕ) :
    let w' := w.handleOutput now c rest
    w'.Orderly Q calls (assign streams w'.log w'.publisher.epoch) frames := by
  obtain ⟨past, present, haccounted, hstreams⟩ := h.attributed
  rw [hcalls] at haccounted
  have hhandled := haccounted.handle houtputs
  have hbooks := Publisher.books_handle { w.publisher with outputs := rest } now c
  have hcalls' := (Publisher.handle_eq { w.publisher with outputs := rest } now c).1
  obtain ⟨_, _, _, _, _, _, _, _, hsame⟩ :=
    Publisher.handle_footprint { w.publisher with outputs := rest } now c
  intro w'
  have hw' : w' = { w with
      publisher := ({ w.publisher with outputs := rest }.handle now c).2
      calls := ({ w.publisher with outputs := rest }.handle now c).1 } := rfl
  have hstreams' : assign streams w'.log w'.publisher.epoch = streams := by
    rw [hw', hsame]
    exact h.attributed.assign_eq
  rw [hstreams']
  refine ⟨⟨past, present ++ [c], ?_, ?_⟩, h.call, fun hgone => ?_, fun hrest hpaced hsettled => ?_,
    ?_⟩
  · rw [hw']
    simp only
    rw [hbooks, hcalls']
    exact hhandled
  · rw [hw', hstreams]
    simp only
    rw [hsame]
    rfl
  · exact absurd (hgone.symm.trans hgoes) nofun
  · have hlog : w'.log = w.log := by
      rw [hw', hsame]
      rfl
    rw [hlog] at hpaced hsettled
    exact absurd (houtputs.symm.trans (h.outputs hrest hpaced hsettled)) nofun
  · rw [hw', hsame]
    exact h.broken

/-- All that came out of a stream that is over is on its way. -/
theorem close (h : w.Orderly Q calls streams frames) (hcalls : w.calls = [])
    {next : Option (Source (Logged W EncoderCall))} (hphase : w.phase = .draining next)
    (houtputs : w.publisher.outputs = []) :
    let w' := { w with calls := [.flush], phase := .closing next }
    w'.Orderly Q calls (assign streams w'.log w'.publisher.epoch) frames := by
  obtain ⟨past, present, haccounted, hstreams⟩ := h.attributed
  rw [hcalls] at haccounted
  refine ⟨⟨past, present, haccounted.call rfl, h.attributed.assign_eq.trans hstreams⟩, h.call,
    nofun, fun _ _ _ => houtputs, fun hbroken => ?_⟩
  exact absurd (hphase.symm.trans (h.broken hbroken)) nofun

/-- A stream takes over from the streams before it. -/
theorem begin (h : w.Orderly Q calls streams frames) (hrested : w.Rested) (hidle : w.idle = true)
    (now : ℕ) (src : Source (Logged W EncoderCall)) :
    let w' := w.begin now src
    w'.Orderly Q calls (assign streams w'.log w'.publisher.epoch) frames := by
  obtain ⟨past, present, haccounted, hstreams⟩ := h.attributed
  -- An idle worker has handled the chunk of every frame so far, so all of them are past.
  have hsettled := hrested.settled hidle
  have hstreams : streams = (withPresent past w.publisher.epoch present).map Prod.fst :=
    hstreams.trans (haccounted.streams_settled hsettled (h.outputs hidle hrested.paced hsettled))
  intro w'
  refine ⟨⟨_, [], haccounted.begin, congrArg (assign · _ _) hstreams⟩, h.call, nofun, nofun,
    fun hbroken => ?_⟩
  unfold idle at hidle
  rw [h.broken hbroken] at hidle
  cases hidle

/-- The worker stops. -/
theorem stop (h : w.Orderly Q calls streams frames) (hrested : w.Rested) (hcalls : w.calls = [])
    (hgoes : w.isEnded = false) (hidle : (w.finish .stopped).idle = true → w.idle = true) :
    (w.finish .stopped).Orderly Q calls (assign streams w.log w.publisher.epoch) frames :=
  h.still hrested (w.finish .stopped) rfl rfl h.call (fun _ => hcalls) hidle
    (h.unbroken hgoes (.refl _))

theorem mailbox (h : w.Orderly Q calls streams frames) (mailbox : Mailbox (PublishCommand _)) :
    { w with mailbox := mailbox }.Orderly Q calls streams frames :=
  ⟨h.attributed, h.call, h.ended, h.outputs, h.broken⟩

theorem conclude (h : w.Orderly Q calls streams frames) (hrested : w.Rested)
    (hcalls : w.calls = []) {next : Option (Source (Logged W EncoderCall))}
    (hphase : w.phase = .closing next) (now : ℕ) :
    let w' := w.conclude now next
    w'.Orderly Q calls (assign streams w'.log w'.publisher.epoch) frames := by
  have hidle : w.idle = true := by
    unfold idle
    rw [hphase]
  have hgoes : w.isEnded = false := by
    unfold isEnded
    rw [hphase]
  unfold PublishWorker.conclude
  cases next with
  | some src => exact h.begin hrested hidle now src
  | none =>
    simp only
    split
    · exact h.still hrested { w with publisher := w.publisher.endStream, phase := .serving } rfl rfl
        h.call (fun _ => hcalls) (fun _ => hidle) (h.unbroken hgoes (.refl _))
    · exact h.still hrested
        (PublishWorker.finish { w with publisher := w.publisher.endStream, phase := .serving }
          .stopped) rfl rfl h.call (fun _ => hcalls) (fun _ => hidle)
        (h.unbroken hgoes (.refl _))

section Encoders

variable {enc : EncoderFamily W} (hQ : ∀ call, enc.Answers call → Q call)
include hQ

theorem endSource (h : w.Orderly Q calls streams frames) (hrested : w.Rested)
    (hgoes : w.isEnded = false) (next : Option (Source (Logged W EncoderCall))) :
    let w' := w.endSource enc.logged next
    w'.Orderly Q calls (assign streams w'.log w'.publisher.epoch) frames := by
  obtain ⟨_, hworks, -⟩ := Publisher.works_flushEncoder hQ w.publisher
  exact h.works hrested (w.endSource enc.logged next) hworks rfl h.call nofun nofun
    (h.unbroken hgoes hworks)

theorem follow (h : w.Orderly Q calls streams frames) (hrested : w.Rested)
    (hphase : w.phase = .serving) (now : ℕ) (c : PublishCommand (Logged W EncoderCall)) :
    let w' := w.follow enc.logged now c
    w'.Orderly Q calls (assign streams w'.log w'.publisher.epoch) frames := by
  cases c with
  | configure c =>
    obtain ⟨_, hworks, hnone⟩ := Publisher.works_configure hQ w.publisher c
    exact h.works hrested (w.follow enc.logged now (.configure c)) hworks rfl h.call h.ended
      (fun hidle => ⟨hidle, hnone⟩) (h.unbroken (goes_of_serving hphase) hworks)
  | attach src =>
    unfold PublishWorker.follow PublishWorker.attach
    simp only
    split
    · exact h.endSource hQ hrested (goes_of_serving hphase) (some src)
    · rename_i hnone
      have hidle : w.idle = true := by
        unfold idle
        rw [hphase]
        simpa using hnone
      exact h.begin hrested hidle now src

theorem hear (h : w.Orderly Q calls streams frames) (hrested : w.Rested)
    (hphase : w.phase = .serving) (hcalls : w.calls = []) (now : ℕ) :
    let w' := w.hear enc.logged now
    w'.Orderly Q calls (assign streams w'.log w'.publisher.epoch) frames := by
  unfold PublishWorker.hear
  simp only
  split
  · rename_i command mailbox _
    exact (h.mailbox mailbox).follow hQ ⟨hrested.1, hrested.2⟩ hphase now command
  · split
    · exact h.still hrested { w with listening := false } rfl rfl h.call (fun _ => hcalls) id
        h.broken
    · rename_i hnone
      have hidle : w.idle = true := by
        unfold idle
        rw [hphase]
        simpa using hnone
      exact h.still hrested (PublishWorker.finish { w with listening := false } .stopped) rfl rfl
        h.call (fun _ => hcalls) (fun _ => hidle) (h.unbroken (goes_of_serving hphase) (.refl _))

theorem askSource (h : w.Orderly Q calls streams frames) (hrested : w.Rested)
    (hphase : w.phase = .serving) (hcalls : w.calls = []) (now : ℕ)
    {src : Source (Logged W EncoderCall)} (hsource : w.source = some src)
    (hsrc : src.Only (Aside Q)) :
    let w' := (w.askSource enc.logged now src).1
    w'.Orderly Q calls (assign streams w'.log w'.publisher.epoch)
      (frames + (src.next now w.publisher.codec).supply.frame?.toList.length) := by
  obtain ⟨more, hlog, hgave, hmore⟩ : Source.Supplied Q w.publisher.codec []
      (src.next now w.publisher.codec) := Source.supplied_ask now src.ticker src.stalls hsrc _ _
  have hgoes := goes_of_serving hphase
  have hbusy : ∀ {v : PublishWorker (Logged W EncoderCall)} {P : Prop}, v.phase = w.phase →
      v.source.isSome = true → v.idle = true → P :=
    fun hv hsome hidle =>
      absurd (hidle.symm.trans (not_idle (hv.trans hphase) hsome)) nofun
  unfold PublishWorker.askSource
  generalize src.next now w.publisher.codec = answer at *
  obtain ⟨supply, codec, gave⟩ := answer
  have hdelivered : w.publisher.books.Works Q
      ({ w.publisher with codec := codec }.deliver gave).books 0 more :=
    .of_calls hmore hlog (fun hb => (if_pos hb).trans (congrArg _ hgave)) rfl
  cases supply with
  | frame f rest =>
    obtain ⟨more', hsubmit⟩ := Publisher.works_submit hQ
      ({ w.publisher with codec := codec }.deliver gave) now f
    have hworks := hdelivered.trans hsubmit
    simp only
    split
    · exact h.works hrested _ hworks rfl h.call (fun _ => hcalls) nofun fun _ => rfl
    · rename_i hwhole
      exact h.works hrested _ hworks rfl h.call (fun _ => hcalls) (hbusy rfl rfl)
        fun hbroken => absurd hbroken hwhole
  | wait deadline rest =>
    exact h.works hrested _ hdelivered rfl h.call (fun _ => hcalls) (hbusy rfl rfl)
      (h.unbroken hgoes hdelivered)
  | moved us rest =>
    exact h.works hrested _ hdelivered rfl h.call (fun _ => hcalls) (hbusy rfl rfl)
      (h.unbroken hgoes hdelivered)
  | stalled =>
    exact h.works hrested _ hdelivered rfl h.call (fun _ => hcalls)
      (hbusy rfl (congrArg Option.isSome hsource)) (h.unbroken hgoes hdelivered)
  | ended =>
    obtain ⟨_, hflush, -⟩ := Publisher.works_flushEncoder hQ
      ({ w.publisher with codec := codec }.deliver gave)
    exact h.works hrested _ (hdelivered.trans hflush) rfl h.call (fun _ => hcalls) nofun
      (h.unbroken hgoes (hdelivered.trans hflush))
  | broken =>
    exact h.works hrested _ hdelivered rfl h.call (fun _ => hcalls) nofun fun _ => rfl

/-- A step of a worker that has no call to make. -/
theorem serve (h : w.Orderly Q calls streams frames) (hrested : w.Rested)
    (hsources : w.Sources (Aside Q)) (hphase : w.phase = .serving) (hcalls : w.calls = [])
    (now : ℕ) :
    let w' := (w.serve enc.logged now).1
    w'.Orderly Q calls (assign streams w'.log w'.publisher.epoch)
      (frames + (w.drawn? now).toList.length) := by
  have hasked : w.asked? now =
      if !w.publisher.receiving || w.cancelled then none
      else if w.listening && w.mailbox.hasNews then none
      else if w.publisher.outputs.isEmpty && w.canAsk now then w.source
      else none := by
    unfold asked?
    rw [h.call, hcalls, hphase]
  have hreceiving : w.publisher.receiving = true := by
    obtain ⟨_, _, haccounted, _⟩ := h.attributed
    exact haccounted.receiving
  have hstill : w.Orderly Q calls (assign streams w.log w.publisher.epoch) frames :=
    h.still hrested w rfl rfl h.call (fun _ => hcalls) id h.broken
  unfold drawn? PublishWorker.serve
  rw [hasked]
  split
  · rename_i hgone
    have hcancelled : w.cancelled = true := by simpa [hreceiving] using hgone
    refine h.stop hrested hcalls (goes_of_serving hphase) fun hidle => ?_
    unfold idle PublishWorker.finish at hidle
    simp [hcancelled] at hidle
  · split
    · exact h.hear hQ hrested hphase hcalls now
    · split
      · rename_i c rest houtputs
        rw [houtputs]
        exact h.handleOutput hcalls (goes_of_serving hphase) houtputs now
      · rename_i src houtputs hsource
        by_cases hask : w.canAsk now = true
        · have hsome : (if w.publisher.outputs.isEmpty && w.canAsk now then w.source else none) =
              some src := by
            rw [houtputs, hask, hsource]
            rfl
          have hasking : { w with sourceWait := .over }.Orderly Q calls streams frames :=
            ⟨h.attributed, h.call, h.ended, h.outputs, h.broken⟩
          rw [hsome, if_pos hask]
          exact hasking.askSource hQ ⟨hrested.1, hrested.2⟩ hphase hcalls now hsource
            (hsources.source src hsource)
        · rw [if_neg hask, if_neg (by simp [hask])]
          exact hstill
      · rename_i houtputs hsource
        rw [hsource]
        simp only [ite_self]
        exact hstill

/-- One step: a call, or what the phase of the worker says. -/
theorem step (link : Link S) {l : Logged S (Transmission × Bool)}
    (h : w.Orderly Q l.calls streams frames) (hrested : w.Rested)
    (hsources : w.Sources (Aside Q)) (now : ℕ) :
    let next := (w.step enc.logged link.logged.carrier 0 now l).1
    next.1.Orderly Q next.2.calls (assign streams next.1.log next.1.publisher.epoch)
      (frames + (w.drawn? now).toList.length) := by
  have hnone : w.asked? now = none → w.drawn? now = none := by
    intro hasked
    unfold drawn?
    rw [hasked]
    rfl
  unfold PublishWorker.step
  split
  · rename_i heq
    rw [h.call] at heq
    cases heq
  · rename_i t rest _ hcalls
    have hasked : w.asked? now = none := by
      unfold asked?
      rw [h.call, hcalls]
    have hsend : link.logged.carrier.send 0 t l = (.done (link.send t l.world).1,
        l.note (t, (link.send t l.world).1.isOk) (link.send t l.world).2) := rfl
    rw [hnone hasked, hsend]
    rcases link.send t l.world with ⟨result, s⟩
    cases result with
    | error e => exact h.send hcalls false
    | ok u => exact h.send hcalls true
  · rename_i hcalls
    have hasked : w.phase ≠ .serving → w.asked? now = none := by
      intro hphase
      unfold asked?
      rw [h.call, hcalls]
      split
      · rename_i heq
        exact absurd heq hphase
      · rfl
    split
    · rename_i hphase
      exact h.serve hQ hrested hsources hphase hcalls now
    · rename_i next hphase
      rw [hnone (hasked (by rw [hphase]; exact nofun))]
      split
      · rename_i c rest houtputs
        exact h.handleOutput hcalls (by unfold isEnded; rw [hphase]) houtputs now
      · rename_i houtputs
        exact h.close hcalls hphase houtputs
    · rename_i next hphase
      rw [hnone (hasked (by rw [hphase]; exact nofun))]
      exact h.conclude hrested hcalls hphase now
    · rename_i how hphase
      rw [hnone (hasked (by rw [hphase]; exact nofun))]
      exact h.still hrested w rfl rfl h.call (fun _ => hcalls) id h.broken

end Encoders

/-- The owner sends a command. -/
theorem post (h : w.Orderly Q calls streams frames) (c : PublishCommand (Logged W EncoderCall)) :
    (w.post c).2.Orderly Q calls streams frames := by
  unfold PublishWorker.post
  split
  · exact h.mailbox _
  · exact h

end Orderly

end Logged

end PublishWorker

end LiveMedia
