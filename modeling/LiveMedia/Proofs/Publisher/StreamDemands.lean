import LiveMedia.Proofs.Publisher.Attachment
import LiveMedia.Proofs.Publisher.WorkerSteps

/-!
# A stream, one demand after the other

A source that gives nothing out of turn can be asked again and again: a stream goes through the
answers, and between them it sends what has come out of the encoder.
-/

namespace LiveMedia
set_option autoImplicit false

variable {W S : Type}

namespace Source

/-- A stream that comes to its end, and whose effects give nothing out by themselves. -/
structure Plain (src : Source W) : Prop where
  ends : src.stalls = false
  quiet : ∀ run, Cue.effect run ∈ src.cues → ∀ w, (run w).2 = []

/-- The answers that a source has still to give are not more than this. -/
def weight (src : Source W) : ℕ :=
  src.cues.length + 2 * (src.ticker.map Ticker.remaining).getD 0

/-- The answer brings the source nearer to its end, and a wait that it asks for is not over. -/
structure Leads (now : ℕ) (src : Source W) (supply : Supply W) : Prop where
  rest : ∀ rest, supply.rest? = some rest → rest.Plain ∧ rest.weight < src.weight
  wait : ∀ deadline rest, supply = .wait deadline rest → Timer.due now deadline = false
  ends : supply ≠ .stalled

theorem askTicker_of_zero (now : ℕ) {t : Ticker} (h : t.remaining = 0) :
    (askTicker now (some t) false : Supply W) = .ended := by
  unfold askTicker
  simp only [h, if_true, Bool.false_eq_true, if_false]

theorem askTicker_of_due {now : ℕ} {t : Ticker} (h : t.remaining ≠ 0)
    (hdue : Timer.due now t.deadline = true) :
    (askTicker now (some t) false : Supply W) = .frame t.frame ⟨[], some t.next, false⟩ := by
  unfold askTicker
  simp only [h, if_false, hdue, if_true]

theorem askTicker_of_not_due {now : ℕ} {t : Ticker} (h : t.remaining ≠ 0)
    (hdue : Timer.due now t.deadline = false) :
    (askTicker now (some t) false : Supply W) =
      .wait t.deadline ⟨[.frame t.frame], some t.next, false⟩ := by
  unfold askTicker
  simp only [h, if_false, hdue, Bool.false_eq_true]

theorem ask_pause {now ms deadline : ℕ} (ticker : Option Ticker) (rest : List (Cue W)) (codec : W)
    (hdeadline : (now + ms * 1000) * 1000 = deadline) :
    ask now ticker false (.pause ms :: rest) codec [] =
      if Timer.due now deadline then ask now ticker false rest codec []
      else ⟨.wait deadline ⟨rest, ticker, false⟩, codec, []⟩ := by
  rw [ask]
  simp only [hdeadline]

theorem leads_askTicker (now : ℕ) (ticker : Option Ticker) :
    Leads now (⟨[], ticker, false⟩ : Source W) (askTicker now ticker false) := by
  have hplain (cues : List (Cue W)) (h : ∀ run, Cue.effect run ∉ cues) (ticker : Option Ticker) :
      Plain ⟨cues, ticker, false⟩ := ⟨rfl, fun run hrun => absurd hrun (h run)⟩
  unfold askTicker
  cases ticker with
  | none => exact ⟨nofun, nofun, nofun⟩
  | some t =>
    simp only
    split
    · exact ⟨nofun, nofun, nofun⟩
    · rename_i hsome
      have hnext : t.next.remaining = t.remaining - 1 := rfl
      split
      · refine ⟨fun rest hrest => ?_, nofun, nofun⟩
        obtain rfl := Option.some.inj hrest
        refine ⟨hplain _ (fun _ => List.not_mem_nil) _, ?_⟩
        simp only [weight, List.length_nil, Option.map_some, Option.getD_some, hnext]
        omega
      · rename_i hdue
        refine ⟨fun rest hrest => ?_, fun deadline rest heq => ?_, nofun⟩
        · obtain rfl := Option.some.inj hrest
          refine ⟨hplain _ (fun run hrun => by cases List.mem_singleton.mp hrun) _, ?_⟩
          simp only [weight, List.length_singleton, List.length_nil, Option.map_some,
            Option.getD_some, hnext]
          omega
        · cases heq
          exact Bool.eq_false_iff.mpr hdue

theorem leads_ask (now : ℕ) (ticker : Option Ticker) {cues : List (Cue W)}
    (hquiet : ∀ run, Cue.effect run ∈ cues → ∀ w, (run w).2 = []) (codec : W)
    (before : List Chunk) :
    Leads now ⟨cues, ticker, false⟩ (ask now ticker false cues codec before).supply := by
  induction cues generalizing codec before with
  | nil => exact leads_askTicker now ticker
  | cons cue cues ih =>
    have hlater : ∀ run, Cue.effect run ∈ cues → ∀ w, (run w).2 = [] :=
      fun run hrun => hquiet run (List.mem_cons_of_mem cue hrun)
    have hless : weight ⟨cues, ticker, false⟩ < weight ⟨cue :: cues, ticker, false⟩ := by
      simp only [weight, List.length_cons]
      omega
    -- The answer goes on with the rest of the script, or it is the answer of that rest.
    have hrest (rest : Source W) (h : some ⟨cues, ticker, false⟩ = some rest) :
        rest.Plain ∧ rest.weight < weight ⟨cue :: cues, ticker, false⟩ :=
      Option.some.inj h ▸ ⟨⟨rfl, hlater⟩, hless⟩
    have hsame {supply : Supply W} (h : Leads now ⟨cues, ticker, false⟩ supply) :
        Leads now ⟨cue :: cues, ticker, false⟩ supply :=
      ⟨fun rest hr => ⟨(h.rest rest hr).1, Nat.lt_trans (h.rest rest hr).2 hless⟩, h.wait, h.ends⟩
    unfold ask
    cases cue with
    | frame f => exact ⟨hrest, nofun, nofun⟩
    | effect run => exact hsame (ih hlater _ _)
    | advance us => exact ⟨hrest, nofun, nofun⟩
    | pause ms =>
      simp only
      split
      · exact hsame (ih hlater codec before)
      · rename_i hdue
        refine ⟨hrest, fun deadline rest heq => ?_, nofun⟩
        cases heq
        exact Bool.eq_false_iff.mpr hdue
    | breakDown => exact ⟨nofun, nofun, nofun⟩

theorem leads_next {src : Source W} (hsrc : src.Plain) (now : ℕ) (codec : W) :
    src.Leads now (src.next now codec).supply := by
  obtain ⟨cues, ticker, stalls⟩ := src
  obtain ⟨hends, hquiet⟩ := hsrc
  cases hends
  exact leads_ask now ticker hquiet codec []

end Source

namespace Publisher

theorem handle_outputs (p : Publisher W) (outputs : List Chunk) (now : ℕ) (c : Chunk) :
    ({ p with outputs := outputs } : Publisher W).handle now c =
      ((p.handle now c).1, { (p.handle now c).2 with outputs := outputs }) := by
  unfold handle noteLatency noteBytes endMarker? emit media
  simp only
  rcases p.pending.take c.timestamp with ⟨_ | captured, pending⟩ <;>
    rcases p.bitrate.add now (c.rebased (p.origin.getD c.timestamp)).pack.size with
      ⟨_ | sample, meter⟩ <;>
    rfl

theorem settle_outputs (p : Publisher W) (outputs : List Chunk) (t : Transmission) (ok : Bool) :
    ({ p with outputs := outputs } : Publisher W).settle t ok =
      { p.settle t ok with outputs := outputs } := by
  unfold settle
  split
  · rfl
  · split
    · rfl
    · split <;> rfl
    · rfl

end Publisher

namespace Broadcast

variable (enc : EncoderFamily W) (link : Link S)

def withCodec (codec : W) (b : Broadcast W S) : Broadcast W S :=
  { b with publisher := { b.publisher with codec := codec } }

/-- With these outputs in place of its own. -/
def holding (outputs : List Chunk) (b : Broadcast W S) : Broadcast W S :=
  { b with publisher := { b.publisher with outputs := outputs } }

variable {link}

theorem sendAll_holding (outputs : List Chunk) (b : Broadcast W S) (ts : List Transmission) :
    (b.holding outputs).sendAll link ts = (b.sendAll link ts).holding outputs := by
  induction ts generalizing b with
  | nil => rfl
  | cons t rest ih =>
    have hsend : (b.holding outputs).send link t = (b.send link t).holding outputs := by
      unfold send holding
      simp only [Publisher.settle_outputs]
      split <;> rfl
    change ((b.holding outputs).send link t).sendAll link rest = _
    rw [hsend]
    exact ih (b.send link t)

theorem handle_holding (outputs : List Chunk) (b : Broadcast W S) (c : Chunk) :
    (b.holding outputs).handle link c = (b.handle link c).holding outputs := by
  unfold handle
  rw [show (b.holding outputs).publisher.handle (b.holding outputs).now c = _ from
    b.publisher.handle_outputs outputs b.now c]
  exact sendAll_holding outputs { b with publisher := (b.publisher.handle b.now c).2 } _

/-- The first chunk is handled and its calls are made; then come the others. -/
theorem drain_of_cons {b : Broadcast W S} {c : Chunk} {rest : List Chunk}
    (h : b.publisher.outputs = c :: rest) :
    b.drain link = ((b.holding rest).handle link c).drain link := by
  have hfirst : b.drain link = rest.foldl (handle link) ((b.handle link c).holding []) := by
    unfold drain
    rw [h, List.foldl_cons, ← handle_holding]
    rfl
  rw [hfirst, handle_holding]
  unfold drain
  obtain ⟨_, _, _, _, _, _, _, _, heq⟩ := b.handle_footprint link c
  rw [heq]
  rfl

theorem outputs_drain (b : Broadcast W S) : (b.drain link).publisher.outputs = [] := by
  obtain ⟨_, _, _, _, _, _, _, _, heq⟩ := b.drain_footprint link
  rw [heq]

/-- Waits for a deadline unless it is due. -/
def await (limit deadline : ℕ) (b : Broadcast W S) : Option (Broadcast W S) × Broadcast W S :=
  if Timer.due b.now deadline then (some b, b) else b.waitFor limit deadline

/-- Goes on after a wait, unless it was given up. -/
def resume (go : Broadcast W S → StreamEnd × Broadcast W S) :
    Option (Broadcast W S) × Broadcast W S → StreamEnd × Broadcast W S
  | (none, b) => (.abandoned, b)
  | (some b, _) => go b

variable (link)

/-- The rest of a stream, by the answer that its source gives. -/
def meet (limit : ℕ) (supply : Source.Supply W) (b : Broadcast W S) : StreamEnd × Broadcast W S :=
  match supply with
  | .frame f rest =>
    let b := b.submit enc f
    if b.publisher.broken then (.broken, b) else runSource enc link limit rest (b.drain link)
  | .wait deadline rest => resume (runSource enc link limit rest) (b.await limit deadline)
  | .moved us rest =>
    if limit ≤ Timer.passed b.now then (.abandoned, b)
    else runSource enc link limit rest { b with now := b.now + us }
  | .stalled => (.abandoned, b)
  | .ended => (.ended, b)
  | .broken => (.broken, b)

variable {enc link}

/-- What has come out is sent before the ticker is looked at. -/
theorem runTicker_drain (limit remaining : ℕ) (t : Ticker) (b : Broadcast W S) :
    runTicker enc link limit remaining t b =
      if b.publisher.broken then (.broken, b)
      else runTicker enc link limit remaining t (b.drain link) := by
  have htwice : (b.drain link).drain link = b.drain link := drain_of_nil (outputs_drain b)
  cases hbroken : b.publisher.broken with
  | true => cases remaining <;> simp only [runTicker, hbroken, if_true]
  | false =>
    cases remaining <;>
      simp only [runTicker, broken_drain, htwice, hbroken, Bool.false_eq_true, if_false]

theorem runSource_frame (limit : ℕ) (f : Frame) (src : Source W) (b : Broadcast W S) :
    runSource enc link limit { src with cues := .frame f :: src.cues } b =
      meet enc link limit (.frame f src) b := by
  unfold meet runSource
  simp only
  rw [runCues]
  cases h : (b.submit enc f).publisher.broken <;> simp

/-- The ticker goes on with its next frame. -/
theorem runTicker_submit (limit : ℕ) (t : Ticker) (b : Broadcast W S) :
    runTicker enc link limit t.next.remaining t.next (b.submit enc t.frame) =
      meet enc link limit (.frame t.frame ⟨[], some t.next, false⟩) b := by
  rw [runTicker_drain]
  unfold meet runSource runCues
  rfl

theorem runTicker_succ (limit remaining : ℕ) (t : Ticker) {b : Broadcast W S}
    (hwhole : b.publisher.broken = false) (houtputs : b.publisher.outputs = []) :
    runTicker enc link limit (remaining + 1) t b =
      if Timer.due b.now t.deadline then
        runTicker enc link limit remaining t.next (b.submit enc t.frame)
      else
        resume (fun b => runTicker enc link limit remaining t.next (b.submit enc t.frame))
          (b.waitFor limit t.deadline) := by
  rw [runTicker]
  simp only [hwhole, drain_of_nil houtputs, Bool.false_eq_true, if_false]
  cases Timer.due b.now t.deadline with
  | true => rfl
  | false => rcases b.waitFor limit t.deadline with ⟨_ | b', last⟩ <;> rfl

theorem await_of_not_due (limit : ℕ) {deadline : ℕ} {b : Broadcast W S}
    (hdue : Timer.due b.now deadline = false) :
    b.await limit deadline = b.waitFor limit deadline := by
  unfold await
  rw [hdue]
  exact if_neg Bool.false_ne_true

theorem runTicker_eq (limit : ℕ) (t : Ticker) {b : Broadcast W S}
    (hwhole : b.publisher.broken = false) (houtputs : b.publisher.outputs = []) :
    runTicker enc link limit t.remaining t b =
      meet enc link limit (Source.askTicker b.now (some t) false) b := by
  by_cases hzero : t.remaining = 0
  · rw [Source.askTicker_of_zero b.now hzero, hzero]
    unfold runTicker
    rw [hwhole, drain_of_nil houtputs]
    rfl
  · have hsucc : t.remaining = t.next.remaining + 1 :=
      (Nat.succ_pred_eq_of_ne_zero hzero).symm
    rw [hsucc, runTicker_succ limit _ t hwhole houtputs]
    cases hdue : Timer.due b.now t.deadline with
    | true => rw [Source.askTicker_of_due hzero hdue, if_pos rfl, runTicker_submit]
    | false =>
      have hframe (b : Broadcast W S) :
          runSource enc link limit ⟨[.frame t.frame], some t.next, false⟩ b =
            meet enc link limit (.frame t.frame ⟨[], some t.next, false⟩) b :=
        runSource_frame limit t.frame ⟨[], some t.next, false⟩ b
      rw [Source.askTicker_of_not_due hzero hdue, if_neg (by decide), meet,
        await_of_not_due limit hdue]
      rw [funext hframe]
      simp only [runTicker_submit]

theorem apply_quiet {run : W → W × List Chunk} (hquiet : ∀ w, (run w).2 = []) {b : Broadcast W S}
    (houtputs : b.publisher.outputs = []) :
    b.apply run = b.withCodec (run b.publisher.codec).1 := by
  obtain ⟨p, s, now⟩ := b
  obtain ⟨⟩ := p
  cases houtputs
  unfold apply Publisher.actOnCodec Publisher.deliver
  simp only [hquiet, List.append_nil, ite_self]
  rfl

theorem runSource_advance (limit us : ℕ) (src : Source W) {b : Broadcast W S}
    (houtputs : b.publisher.outputs = []) :
    runSource enc link limit { src with cues := .advance us :: src.cues } b =
      meet enc link limit (.moved us src) b := by
  have hdrain : ({ b with now := b.now + us } : Broadcast W S).drain link =
      { b with now := b.now + us } := drain_of_nil houtputs
  unfold meet runSource
  simp only
  rw [runCues, hdrain]
  by_cases hlimit : limit ≤ Timer.passed b.now
  · simp only [if_pos hlimit]
  · simp only [if_neg hlimit]

theorem runCues_pause (limit ms : ℕ) (rest : List (Cue W)) {b : Broadcast W S} {deadline : ℕ}
    (hdeadline : (b.now + ms * 1000) * 1000 = deadline) (houtputs : b.publisher.outputs = []) :
    runCues enc link limit (.pause ms :: rest) b =
      resume (runCues enc link limit rest) (b.await limit deadline) := by
  rw [runCues, drain_of_nil houtputs]
  simp only [hdeadline, await]
  cases Timer.due b.now deadline with
  | true => rfl
  | false => rcases b.waitFor limit deadline with ⟨_ | b', last⟩ <;> rfl

/-- The steady pace comes after the script. -/
def goOn (enc : EncoderFamily W) (link : Link S) (limit : ℕ) (ticker : Option Ticker) :
    StreamEnd × Broadcast W S → StreamEnd × Broadcast W S
  | (.ended, b) =>
    match ticker with
    | none => (.ended, b)
    | some t => runTicker enc link limit t.remaining t b
  | other => other

theorem runSource_eq (limit : ℕ) (src : Source W) (b : Broadcast W S) :
    runSource enc link limit src b =
      goOn enc link limit src.ticker (runCues enc link limit src.cues b) := rfl

theorem goOn_resume (limit : ℕ) (ticker : Option Ticker)
    (go : Broadcast W S → StreamEnd × Broadcast W S)
    (waited : Option (Broadcast W S) × Broadcast W S) :
    goOn enc link limit ticker (resume go waited) =
      resume (fun b => goOn enc link limit ticker (go b)) waited := by
  rcases waited with ⟨_ | b, last⟩ <;> rfl

theorem meet_wait (limit deadline : ℕ) (rest : Source W) (b : Broadcast W S) :
    meet enc link limit (.wait deadline rest) b =
      resume (runSource enc link limit rest) (b.await limit deadline) := rfl

-- Each side is rewritten by a general equation: opening the definitions at a pause would make the
-- kernel count out its deadline.
theorem runSource_pause (limit ms : ℕ) (src : Source W) {b : Broadcast W S} {deadline : ℕ}
    (hdeadline : (b.now + ms * 1000) * 1000 = deadline) (houtputs : b.publisher.outputs = []) :
    runSource enc link limit { src with cues := .pause ms :: src.cues } b =
      meet enc link limit (.wait deadline src) b := by
  rw [runSource_eq, meet_wait]
  simp only
  rw [runCues_pause limit ms src.cues hdeadline houtputs, goOn_resume]
  exact congrArg (resume · _) (funext fun b => (runSource_eq limit src b).symm)

theorem runSource_nil (limit : ℕ) (ticker : Option Ticker) {b : Broadcast W S}
    (hwhole : b.publisher.broken = false) (houtputs : b.publisher.outputs = []) :
    runSource enc link limit ⟨[], ticker, false⟩ b =
      meet enc link limit (Source.askTicker b.now ticker false) b := by
  cases ticker with
  | none => rfl
  | some t => exact runTicker_eq limit t hwhole houtputs

theorem runSource_ask (limit : ℕ) (ticker : Option Ticker) {cues : List (Cue W)}
    (hquiet : ∀ run, Cue.effect run ∈ cues → ∀ w, (run w).2 = []) {b : Broadcast W S}
    (hwhole : b.publisher.broken = false) (houtputs : b.publisher.outputs = []) :
    let answer := Source.ask b.now ticker false cues b.publisher.codec []
    answer.emitted = [] ∧ runSource enc link limit ⟨cues, ticker, false⟩ b =
      meet enc link limit answer.supply (b.withCodec answer.codec) := by
  intro answer
  induction cues generalizing b with
  | nil => exact ⟨rfl, runSource_nil limit ticker hwhole houtputs⟩
  | cons cue rest ih =>
    have hlater : ∀ run, Cue.effect run ∈ rest → ∀ w, (run w).2 = [] :=
      fun run hrun => hquiet run (List.mem_cons_of_mem cue hrun)
    cases cue with
    | frame f => exact ⟨rfl, runSource_frame limit f ⟨rest, ticker, false⟩ b⟩
    | effect run =>
      have hrun := hquiet run List.mem_cons_self
      have hask : answer = Source.ask b.now ticker false rest (run b.publisher.codec).1 [] := by
        change Source.ask b.now ticker false rest _ ([] ++ (run b.publisher.codec).2) = _
        rw [hrun]
        rfl
      have hgo : runSource enc link limit ⟨.effect run :: rest, ticker, false⟩ b =
          runSource enc link limit ⟨rest, ticker, false⟩ (b.apply run) := rfl
      rw [hask, hgo, apply_quiet hrun houtputs]
      exact ih hlater (b := b.withCodec (run b.publisher.codec).1) hwhole houtputs
    | advance us => exact ⟨rfl, runSource_advance limit us ⟨rest, ticker, false⟩ houtputs⟩
    | pause ms =>
      obtain ⟨deadline, hdeadline⟩ : ∃ deadline, (b.now + ms * 1000) * 1000 = deadline := ⟨_, rfl⟩
      have hpause : runSource enc link limit ⟨.pause ms :: rest, ticker, false⟩ b = _ :=
        runSource_pause limit ms ⟨rest, ticker, false⟩ hdeadline houtputs
      have hask := Source.ask_pause ticker rest b.publisher.codec hdeadline
      change answer = _ at hask
      cases hdue : Timer.due b.now deadline with
      | true =>
        rw [hdue, if_pos rfl] at hask
        have hgo : runSource enc link limit ⟨.pause ms :: rest, ticker, false⟩ b =
            runSource enc link limit ⟨rest, ticker, false⟩ b := by
          rw [hpause, meet, await, if_pos hdue, resume]
        rw [hask, hgo]
        exact ih hlater hwhole houtputs
      | false =>
        rw [hdue, if_neg Bool.false_ne_true] at hask
        rw [hask]
        exact ⟨rfl, hpause⟩
    | breakDown => exact ⟨rfl, rfl⟩

variable (enc link) in
/-- A stream goes on with what its source answers. -/
theorem runSource_next (limit : ℕ) {src : Source W} (hsrc : src.Plain) {b : Broadcast W S}
    (hwhole : b.publisher.broken = false) (houtputs : b.publisher.outputs = []) :
    let answer := src.next b.now b.publisher.codec
    answer.emitted = [] ∧ runSource enc link limit src b =
      meet enc link limit answer.supply (b.withCodec answer.codec) := by
  obtain ⟨cues, ticker, stalls⟩ := src
  obtain ⟨hends, hquiet⟩ := hsrc
  cases hends
  exact runSource_ask limit ticker hquiet hwhole houtputs

end Broadcast

/-- Nothing is left over from a stream before, and a new one can begin. -/
structure Publisher.AtRest (p : Publisher W) : Prop where
  receiving : p.receiving = true
  outputs : p.outputs = []
  whole : p.broken = false

theorem Publisher.atRest_new (settings : PublishSettings) (codec : W) (clock : CaptureClock)
    (now : ℕ) : (new settings codec clock now).AtRest := ⟨rfl, rfl, rfl⟩

namespace Broadcast

variable {enc : EncoderFamily W} {link : Link S}

variable (link) in
theorem atRest_drain {b : Broadcast W S} (hreceiving : b.publisher.receiving = true)
    (hwhole : b.publisher.broken = false) : (b.drain link).publisher.AtRest where
  receiving := by
    obtain ⟨_, _, _, _, _, _, _, _, heq⟩ := b.drain_footprint link
    rw [heq]
    exact hreceiving
  outputs := outputs_drain b
  whole := (broken_drain link b).trans hwhole

theorem await_within {b : Broadcast W S} (limit : ℕ) {deadline : ℕ}
    (hdue : Timer.due b.now deadline = false) (htick : Timer.tick deadline ≤ limit)
    (hpassed : Timer.passed b.now < limit) :
    b.await limit deadline =
      (some { b with now := Timer.wake b.now (Timer.tick deadline) },
        { b with now := Timer.wake b.now (Timer.tick deadline) }) := by
  rw [await_of_not_due limit hdue]
  unfold waitFor
  simp only [Nat.min_eq_right htick]
  rw [if_neg (by omega)]

variable (enc link) in
/-- With a limit that is late enough a plain stream is never abandoned, and how it goes does not
depend on the limit. -/
theorem runSource_within {src : Source W} (hsrc : src.Plain) {b : Broadcast W S}
    (hb : b.publisher.AtRest) :
    ∃ least result, (∀ limit, least ≤ limit → runSource enc link limit src b = result) ∧
      result.1 ≠ .abandoned ∧ (result.1 = .ended → result.2.publisher.AtRest) := by
  induction hn : src.weight using Nat.strongRecOn generalizing src b with
  | _ n ih =>
    subst hn
    have hleads := Source.leads_next hsrc b.now b.publisher.codec
    have hnext := fun limit => (runSource_next enc link limit hsrc hb.whole hb.outputs).2
    generalize src.next b.now b.publisher.codec = answer at hleads hnext
    obtain ⟨supply, codec, _⟩ := answer
    simp only at hleads hnext
    have hrested : (b.withCodec codec).publisher.AtRest := ⟨hb.receiving, hb.outputs, hb.whole⟩
    cases supply with
    | frame f rest =>
      obtain ⟨hplain, hless⟩ := hleads.rest rest rfl
      have hreceiving :=
        ((b.withCodec codec).publisher.receiving_submit enc b.now f).trans hrested.receiving
      cases hbroken : ((b.withCodec codec).submit enc f).publisher.broken with
      | true =>
        exact ⟨0, (.broken, (b.withCodec codec).submit enc f),
          fun limit _ => (hnext limit).trans (if_pos hbroken), nofun, nofun⟩
      | false =>
        obtain ⟨least, result, hall, hrest⟩ :=
          ih rest.weight hless hplain (atRest_drain link hreceiving hbroken) rfl
        refine ⟨least, result, fun limit hlimit => ?_, hrest⟩
        rw [hnext, ← hall limit hlimit]
        exact if_neg (by rw [hbroken]; exact Bool.false_ne_true)
    | wait deadline rest =>
      obtain ⟨hplain, hless⟩ := hleads.rest rest rfl
      have hdue := hleads.wait deadline rest rfl
      obtain ⟨least, result, hall, hrest⟩ := ih rest.weight hless hplain
        (b := { b.withCodec codec with now := Timer.wake b.now (Timer.tick deadline) })
        ⟨hb.receiving, hb.outputs, hb.whole⟩ rfl
      refine ⟨max least (max (Timer.tick deadline) (Timer.passed b.now + 1)), result,
        fun limit hlimit => ?_, hrest⟩
      have hawait := await_within (b := b.withCodec codec) limit hdue (by omega)
        (show Timer.passed b.now < limit by omega)
      rw [hnext, ← hall limit (by omega), meet_wait, hawait]
      rfl
    | moved us rest =>
      obtain ⟨hplain, hless⟩ := hleads.rest rest rfl
      obtain ⟨least, result, hall, hrest⟩ := ih rest.weight hless hplain
        (b := { b.withCodec codec with now := b.now + us }) ⟨hb.receiving, hb.outputs, hb.whole⟩ rfl
      refine ⟨max least (Timer.passed b.now + 1), result, fun limit hlimit => ?_, hrest⟩
      rw [hnext, ← hall limit (by omega)]
      exact if_neg (show ¬ limit ≤ Timer.passed b.now by omega)
    | stalled => exact absurd rfl hleads.ends
    | ended =>
      exact ⟨0, (.ended, b.withCodec codec), fun limit _ => hnext limit, nofun, fun _ => hrested⟩
    | broken => exact ⟨0, (.broken, b.withCodec codec), fun limit _ => hnext limit, nofun, nofun⟩

end Broadcast

end LiveMedia
