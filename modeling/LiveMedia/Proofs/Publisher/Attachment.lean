import LiveMedia.Proofs.Publisher.Custody

/-!
# Streams that are published from beginning to end

A stream that is attached is a run of a few operations: frames are submitted, outputs are sent,
effects happen and time passes. What each of them keeps is kept by the stream.
-/

namespace LiveMedia
set_option autoImplicit false

variable {W S : Type}

def Cue.frame? : Cue W → Option Frame
  | .frame f => some f
  | _ => none

/-- The frames that a source has to give. -/
def Source.frames (src : Source W) : List Frame :=
  src.cues.filterMap Cue.frame? ++
    match src.ticker with
    | none => []
    | some t => t.frames t.remaining

namespace Source

theorem effect_not_mem_ofFrames (frames : List Frame) (run : W → W × List Chunk) :
    Cue.effect run ∉ (ofFrames frames).cues := by
  intro hmem
  obtain ⟨f, -, hf⟩ := List.mem_map.mp hmem
  cases hf

theorem mem_cues_logged {src : Source W} {run} (h : Cue.effect run ∈ src.logged.cues) :
    ∃ plain, Cue.effect plain ∈ src.cues ∧ run = Logged.aside plain := by
  obtain ⟨cue, hmem, hcue⟩ := List.mem_map.mp h
  cases cue with
  | effect plain =>
    cases hcue
    exact ⟨plain, hmem, rfl⟩
  | frame f => cases hcue
  | advance us => cases hcue
  | pause ms => cases hcue
  | breakDown => cases hcue

@[simp] theorem frames_logged (src : Source W) : src.logged.frames = src.frames := by
  have hcues : (src.cues.map Cue.logged).filterMap Cue.frame? =
      src.cues.filterMap Cue.frame? := by
    rw [List.filterMap_map]
    congr 1
    funext cue
    cases cue <;> rfl
  unfold frames logged
  simp only [hcues]

end Source

namespace Broadcast

section Footprint

variable (link : Link S)

@[simp] theorem broken_drain (b : Broadcast W S) :
    (b.drain link).publisher.broken = b.publisher.broken := by
  obtain ⟨_, _, _, _, _, _, _, _, h⟩ := drain_footprint link b
  rw [h]

theorem publisher_waitFor {b b' : Broadcast W S} {limit deadline : ℕ}
    (h : (b.waitFor limit deadline).1 = some b') : b'.publisher = b.publisher := by
  unfold waitFor at h
  split at h
  · cases h
  · cases h
    rfl

end Footprint

section Rule

variable {enc : EncoderFamily W} {link : Link S} {P : ℕ → Broadcast W S → Prop}

/-- What holds after so many frames is kept by the operations of a stream. -/
structure Upholds (enc : EncoderFamily W) (link : Link S) (P : ℕ → Broadcast W S → Prop) :
    Prop where
  submit : ∀ {n b} (f : Frame), P n b → P (n + 1) (b.submit enc f)
  drain : ∀ {n b}, P n b → P n (b.drain link)
  elapse : ∀ {n b} (us : ℕ), P n b → P n { b with now := b.now + us }

/-- It holds at the end of a stream that went through all its frames and left its publisher whole,
if it was, and for some number of frames where the stream was given up. -/
def Reaches (P : ℕ → Broadcast W S → Prop) (whole : Prop) (frames : ℕ)
    (result : StreamEnd × Broadcast W S) : Prop :=
  ∃ n, P n result.2 ∧
    (result.1 = .ended → n = frames ∧ (whole → result.2.publisher.broken = false))

variable {whole : Prop}

theorem Reaches.ended {n : ℕ} {b : Broadcast W S} (h : P n b)
    (hwhole : whole → b.publisher.broken = false) : Reaches P whole n (.ended, b) :=
  ⟨n, h, fun _ => ⟨rfl, hwhole⟩⟩

theorem Reaches.given_up {n frames : ℕ} {b : Broadcast W S} {how : StreamEnd} (h : P n b)
    (hhow : how ≠ .ended) : Reaches P whole frames (how, b) :=
  ⟨n, h, fun hended => absurd hended hhow⟩

namespace Upholds

variable (h : Upholds enc link P)
include h

theorem waitFor {n : ℕ} {b : Broadcast W S} (hb : P n b) (limit deadline : ℕ) :
    P n (b.waitFor limit deadline).2 ∧
      ∀ b', (b.waitFor limit deadline).1 = some b' → P n b' := by
  have hreached : P n (b.waitFor limit deadline).2 := by
    unfold Broadcast.waitFor
    split <;> exact h.elapse _ hb
  refine ⟨hreached, fun b' hb' => ?_⟩
  unfold Broadcast.waitFor at hb' hreached
  split at hb'
  · cases hb'
  · rename_i hwithin
    rw [if_neg hwithin] at hreached
    cases hb'
    exact hreached

theorem runTicker (limit remaining : ℕ) {n : ℕ} (t : Ticker) {b : Broadcast W S} (hb : P n b) :
    Reaches P whole (n + (t.frames remaining).length)
      (Broadcast.runTicker enc link limit remaining t b) := by
  induction remaining generalizing n t b with
  | zero =>
    unfold Broadcast.runTicker
    split
    · exact .given_up hb nofun
    · rename_i hwhole
      exact .ended (h.drain hb) fun _ =>
        (broken_drain link b).trans (Bool.eq_false_iff.mpr hwhole)
  | succ remaining ih =>
    have hcount : n + (t.frames (remaining + 1)).length =
        n + 1 + (t.next.frames remaining).length := by
      rw [show t.frames (remaining + 1) = t.frame :: t.next.frames remaining from rfl,
        List.length_cons]
      omega
    rw [hcount]
    unfold Broadcast.runTicker
    split
    · exact .given_up hb nofun
    · simp only
      split
      · exact ih t.next (h.submit t.frame (h.drain hb))
      · obtain ⟨hreached, hgoes⟩ := h.waitFor (h.drain hb) limit t.deadline
        split
        · rename_i heq
          rw [heq] at hreached
          exact .given_up hreached nofun
        · rename_i heq
          rw [heq] at hgoes
          exact ih t.next (h.submit t.frame (hgoes _ rfl))

theorem runCues (limit : ℕ) {n : ℕ} {cues : List (Cue W)}
    (heffect : ∀ run, Cue.effect run ∈ cues → ∀ {n b}, P n b → P n (b.apply run))
    {b : Broadcast W S} (hb : P n b) (hwhole : whole → b.publisher.broken = false) :
    Reaches P whole (n + (cues.filterMap Cue.frame?).length)
      (Broadcast.runCues enc link limit cues b) := by
  induction cues generalizing n b with
  | nil => exact .ended hb hwhole
  | cons cue rest ih =>
    have hlater : ∀ run, Cue.effect run ∈ rest → ∀ {n b}, P n b → P n (b.apply run) :=
      fun run hrun => heffect run (List.mem_cons_of_mem cue hrun)
    cases cue with
    | frame f =>
      have hcount : n + ((Cue.frame f :: rest).filterMap Cue.frame?).length =
          n + 1 + (rest.filterMap Cue.frame?).length := by
        rw [List.filterMap_cons_some (show Cue.frame? (Cue.frame (W := W) f) = some f from rfl),
          List.length_cons]
        omega
      rw [hcount]
      unfold Broadcast.runCues
      simp only
      split
      · exact .given_up (h.submit f hb) nofun
      · rename_i hwhole'
        exact ih hlater (h.drain (h.submit f hb)) fun _ =>
          (broken_drain link _).trans (Bool.eq_false_iff.mpr hwhole')
    | effect run => exact ih hlater (heffect run List.mem_cons_self hb) hwhole
    | advance us =>
      unfold Broadcast.runCues
      split
      · exact .given_up hb nofun
      · exact ih hlater (h.drain (h.elapse us hb)) fun hw => (broken_drain link _).trans (hwhole hw)
    | pause ms =>
      unfold Broadcast.runCues
      simp only
      split
      · exact ih hlater hb hwhole
      · obtain ⟨hreached, hgoes⟩ := h.waitFor (h.drain hb) limit ((b.now + ms * 1000) * 1000)
        split
        · rename_i heq
          rw [heq] at hreached
          exact .given_up hreached nofun
        · rename_i b' _ heq
          have hgoes := hgoes b' (congrArg Prod.fst heq)
          have hsame := publisher_waitFor (congrArg Prod.fst heq)
          refine ih hlater hgoes fun hw => ?_
          rw [hsame, broken_drain]
          exact hwhole hw
    | breakDown => exact .given_up hb nofun

theorem runSource (limit : ℕ) {n : ℕ} {src : Source W}
    (heffect : ∀ run, Cue.effect run ∈ src.cues → ∀ {n b}, P n b → P n (b.apply run))
    {b : Broadcast W S} (hb : P n b) (hwhole : whole → b.publisher.broken = false) :
    Reaches P whole (n + src.frames.length) (Broadcast.runSource enc link limit src b) := by
  have hcues := h.runCues limit heffect hb hwhole
  have hcount : ∀ (t : Ticker), src.ticker = some t → n + src.frames.length =
      n + (src.cues.filterMap Cue.frame?).length + (t.frames t.remaining).length := by
    intro t ht
    unfold Source.frames
    rw [ht, List.length_append, Nat.add_assoc]
  unfold Broadcast.runSource
  split
  · rename_i b' heq
    rw [heq] at hcues
    obtain ⟨n', hb', hn'⟩ := hcues
    obtain ⟨hn', hwhole'⟩ := hn' rfl
    split
    · rename_i hnone
      refine ⟨n', hb', fun _ => ⟨?_, hwhole'⟩⟩
      unfold Source.frames
      rw [hn', hnone, List.append_nil]
    · rename_i t ht
      rw [hcount t ht, ← hn']
      exact h.runTicker limit t.remaining t hb'
  · rename_i hother
    obtain ⟨n', hb', -⟩ := hcues
    exact .given_up hb' fun hended => hother _ (Prod.ext hended rfl)

end Upholds

end Rule

section Accounts

variable {Q : EncoderCall → Prop} {past : List (ℕ × Chunk)} {frames : ℕ}
  {b : Broadcast (Logged W EncoderCall) (Logged S (Transmission × Bool))}

/-- The calls that wait are made, while these outputs wait to be handled. -/
theorem accounted_sendAll (link : Link S)
    (b : Broadcast (Logged W EncoderCall) (Logged S (Transmission × Bool)))
    (waiting : List Transmission) {outputs present : List Chunk}
    (h : { b.publisher.books with outputs := outputs }.Accounted Q b.link.calls waiting past
      present frames) :
    { (b.sendAll link.logged waiting).publisher.books with outputs := outputs }.Accounted Q
      (b.sendAll link.logged waiting).link.calls [] past present frames := by
  induction waiting generalizing b with
  | nil => exact h
  | cons t rest ih =>
    obtain ⟨ok, hpublisher, hlink⟩ := send_logged link b t
    refine ih (b.send link.logged t) ?_
    rw [hpublisher, hlink, Publisher.books_settle]
    exact h.send ok

theorem accounted_handle (link : Link S)
    (b : Broadcast (Logged W EncoderCall) (Logged S (Transmission × Bool))) (c : Chunk)
    {rest present : List Chunk}
    (h : { b.publisher.books with outputs := c :: rest }.Accounted Q b.link.calls [] past present
      frames) :
    { (b.handle link.logged c).publisher.books with outputs := rest }.Accounted Q
      (b.handle link.logged c).link.calls [] past (present ++ [c]) frames := by
  have hhandled : { (b.publisher.handle b.now c).2.books with outputs := rest }.Accounted Q
      b.link.calls (b.publisher.handle b.now c).1 past (present ++ [c]) frames := by
    rw [(b.publisher.handle_eq b.now c).1, b.publisher.books_handle b.now c]
    exact h.handle rfl
  exact accounted_sendAll link { b with publisher := (b.publisher.handle b.now c).2 }
    (b.publisher.handle b.now c).1 hhandled

/-- All the outputs are sent. -/
theorem accounted_drain (link : Link S) {present : List Chunk}
    (h : b.publisher.books.Accounted Q b.link.calls [] past present frames) :
    ∃ present, (b.drain link.logged).publisher.books.Accounted Q
      (b.drain link.logged).link.calls [] past present frames := by
  have hall : ∀ (outputs present : List Chunk)
      (b : Broadcast (Logged W EncoderCall) (Logged S (Transmission × Bool))),
      { b.publisher.books with outputs := outputs }.Accounted Q b.link.calls [] past present
        frames →
      ∃ present, { (outputs.foldl (handle link.logged) b).publisher.books with
        outputs := [] }.Accounted Q (outputs.foldl (handle link.logged) b).link.calls [] past
          present frames := by
    intro outputs
    induction outputs with
    | nil => exact fun present b hb => ⟨present, hb⟩
    | cons c rest ih =>
      exact fun present b hb => ih _ (b.handle link.logged c) (accounted_handle link b c hb)
  obtain ⟨present, hdrained⟩ := hall b.publisher.outputs present
    { b with publisher := { b.publisher with outputs := [] } } h
  have hnone : (b.drain link.logged).publisher.outputs = [] := by
    obtain ⟨_, _, _, _, _, _, _, _, h⟩ := drain_footprint link.logged b
    rw [h]
  have hsame : { (b.drain link.logged).publisher.books with outputs := [] } =
      (b.drain link.logged).publisher.books := by
    rw [← hnone]
    rfl
  rw [← hsame]
  exact ⟨present, hdrained⟩

/-- Within the stream with this epoch, after these chunks of the streams before it. -/
structure Within (Q : EncoderCall → Prop) (epoch : ℕ) (past : List (ℕ × Chunk)) (frames : ℕ)
    (b : Broadcast (Logged W EncoderCall) (Logged S (Transmission × Bool))) : Prop where
  accounted : ∃ present,
    b.publisher.books.Accounted Q b.link.calls [] past present frames
  epoch_eq : b.publisher.epoch = epoch

namespace Within

variable {epoch : ℕ}

theorem works (h : Within Q epoch past frames b) {p : Publisher (Logged W EncoderCall)}
    {n : ℕ} {more : List EncoderCall} (hworks : b.publisher.books.Works Q p.books n more) :
    Within Q epoch past (frames + n) { b with publisher := p } where
  accounted := h.accounted.imp fun _ haccounted => haccounted.works hworks
  epoch_eq := (congrArg Numbering.epoch hworks.numbering).trans h.epoch_eq

theorem effect (h : Within Q epoch past frames b) {src : Source W}
    (hsrc : ∀ run, Cue.effect run ∈ src.cues → ∀ w, Q (.aside (run w).2)) {run}
    (hrun : Cue.effect run ∈ src.logged.cues) : Within Q epoch past frames (b.apply run) := by
  obtain ⟨plain, hmem, rfl⟩ := Source.mem_cues_logged hrun
  exact h.works (b.publisher.works_actOnCodec (hsrc plain hmem))

theorem drain (h : Within Q epoch past frames b) (link : Link S) :
    Within Q epoch past frames (b.drain link.logged) := by
  obtain ⟨present, haccounted⟩ := h.accounted
  obtain ⟨_, _, _, _, _, _, _, _, hsame⟩ := drain_footprint link.logged b
  refine ⟨accounted_drain link haccounted, ?_⟩
  rw [hsame]
  exact h.epoch_eq

/-- A call that carries no chunk. -/
theorem send (h : Within Q epoch past frames b) (link : Link S) {t : Transmission}
    (ht : t.stamp? = none) : Within Q epoch past frames (b.send link.logged t) := by
  obtain ⟨present, haccounted⟩ := h.accounted
  obtain ⟨ok, hpublisher, hlink⟩ := send_logged link b t
  obtain ⟨_, _, hsame⟩ := b.publisher.settle_footprint t ok
  refine ⟨⟨present, ?_⟩, ?_⟩
  · rw [hpublisher, hlink, Publisher.books_settle]
    exact (haccounted.call ht).send ok
  · rw [hpublisher, hsame]
    exact h.epoch_eq

end Within

/-- How a stream leaves a publisher: it has come to its end and nothing is left among the outputs,
or it broke off, or it was given up and the publisher hears no more of its encoders. -/
inductive Leaves (Q : EncoderCall → Prop) (epoch : ℕ) (past : List (ℕ × Chunk)) (frames : ℕ) :
    StreamEnd × Broadcast (Logged W EncoderCall) (Logged S (Transmission × Bool)) → Prop where
  | ended {last} (within : Within Q epoch past frames last)
    (outputs : last.publisher.outputs = []) (whole : last.publisher.broken = false) :
    Leaves Q epoch past frames (.ended, last)
  | broken {last n} (within : Within Q epoch past n last) :
    Leaves Q epoch past frames (.broken, last)
  | abandoned {last n now} (within : Within Q epoch past n last) :
    Leaves Q epoch past frames (.abandoned, { last with
      publisher := { last.publisher with receiving := false, outputs := [] }, now := now })

variable {enc : EncoderFamily W} (hQ : ∀ call, enc.Answers call → Q call)
include hQ

theorem upholds_within (link : Link S) (epoch : ℕ) (past : List (ℕ × Chunk)) :
    Upholds enc.logged link.logged (Within (W := W) (S := S) Q epoch past) where
  submit f h := by
    obtain ⟨_, hworks⟩ := Publisher.works_submit hQ _ _ f
    exact h.works hworks
  drain h := h.drain link
  elapse _ h := ⟨h.accounted, h.epoch_eq⟩

theorem Within.finish (link : Link S) {epoch : ℕ} (h : Within Q epoch past frames b)
    (hwhole : b.publisher.broken = false) :
    Leaves Q epoch past frames (.ended, b.finish enc.logged link.logged) := by
  obtain ⟨_, hflush, -⟩ := Publisher.works_flushEncoder hQ b.publisher
  have hsent := ((h.works hflush).drain link).send link (t := .flush) rfl
  obtain ⟨_, _, _, _, _, _, _, _, _, hsame⟩ := finish_footprint enc.logged link.logged b
  refine .ended ⟨hsent.accounted, hsent.epoch_eq⟩ ?_ ?_
  · rw [hsame]
  · rw [hsame]
    exact hwhole

/-- A stream takes over from the streams before it. What they left among the outputs becomes its
own. -/
theorem attach_leaves (link : Link S) (limit : ℕ) {src : Source W}
    (hsrc : ∀ run, Cue.effect run ∈ src.cues → ∀ w, Q (.aside (run w).2)) {present : List Chunk}
    (h : b.publisher.books.Accounted Q b.link.calls [] past present frames)
    (hwhole : b.publisher.broken = false) :
    Leaves Q (b.publisher.epoch + 1)
      (withPresent past b.publisher.epoch present) (frames + src.frames.length)
      (b.attach enc.logged link.logged limit src.logged) := by
  have hreceiving : b.publisher.receiving = true := h.receiving
  have hbegun : Within Q (b.publisher.epoch + 1) (withPresent past b.publisher.epoch present)
      frames { b with publisher := b.publisher.beginStream b.now } := ⟨⟨[], h.begin⟩, rfl⟩
  have hrun := (upholds_within hQ link (b.publisher.epoch + 1)
    (withPresent past b.publisher.epoch present)).runSource limit
    (fun _ hrun _ _ hd => hd.effect hsrc hrun) (hbegun.drain link)
    fun _ : True => (broken_drain _ _).trans hwhole
  rw [Source.frames_logged] at hrun
  unfold attach
  rw [if_neg (by simp [hreceiving])]
  simp only
  split
  · rename_i last heq
    rw [heq] at hrun
    obtain ⟨n, hlast, hn⟩ := hrun
    obtain ⟨rfl, hwhole'⟩ := hn rfl
    split
    · exact .abandoned (hlast.drain link)
    · exact hlast.finish hQ link (hwhole' trivial)
  · rename_i last heq
    rw [heq] at hrun
    obtain ⟨n, hlast, -⟩ := hrun
    exact .abandoned hlast
  · rename_i hended habandoned
    obtain ⟨n, hlast, -⟩ := hrun
    generalize runSource enc.logged link.logged limit src.logged _ = result at *
    obtain ⟨how, last⟩ := result
    cases how with
    | ended => exact absurd rfl (hended last)
    | abandoned => exact absurd rfl (habandoned last)
    | broken => exact .broken hlast

end Accounts

end Broadcast

end LiveMedia
