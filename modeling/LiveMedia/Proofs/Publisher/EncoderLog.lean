import Mathlib.Data.Nat.Notation
import LiveMedia.Proofs.Publisher.Numbering

/-!
# Calls on encoders

Encoders can be made to write down what they are asked and what they give out. From one state of a
publisher to a later one its log grows by the calls that were made, and its outputs by the chunks
that these gave out.
-/

namespace LiveMedia
set_option autoImplicit false

variable {W : Type}

/-- A call on a family of encoders, how it ended and what it gave out. -/
inductive EncoderCall where
  /-- A new instance, if it could be made. -/
  | create (made : Option ℕ)
  | configure (i : ℕ) (succeeded : Bool) (gave : List Chunk)
  | encode (f : Frame) (key : Bool) (i : ℕ) (succeeded : Bool) (gave : List Chunk)
  | flush (i : ℕ) (succeeded : Bool) (gave : List Chunk)
  /-- Encoders act by themselves, or something is done to them from outside. -/
  | aside (gave : List Chunk)

namespace EncoderCall

def gave : EncoderCall → List Chunk
  | create _ => []
  | configure _ _ gave => gave
  | encode _ _ _ _ gave => gave
  | flush _ _ gave => gave
  | aside gave => gave

/-- The frame that an encoder took, and whether it was asked for a key chunk. -/
def accepted? : EncoderCall → Option (Frame × Bool)
  | encode f key _ true _ => some (f, key)
  | _ => none

def rejects : EncoderCall → Bool
  | encode _ _ _ false _ => true
  | _ => false

end EncoderCall

/-- The frames that encoders took, in the order in which they took them. -/
def accepted (calls : List EncoderCall) : List (Frame × Bool) :=
  calls.filterMap EncoderCall.accepted?

/-- The chunks that encoders gave out, in the order in which they did. -/
def emitted (calls : List EncoderCall) : List Chunk := calls.flatMap EncoderCall.gave

/-- The number of encode calls that failed. -/
def rejected (calls : List EncoderCall) : ℕ := calls.countP EncoderCall.rejects

@[simp] theorem accepted_append (first second : List EncoderCall) :
    accepted (first ++ second) = accepted first ++ accepted second := List.filterMap_append

@[simp] theorem emitted_append (first second : List EncoderCall) :
    emitted (first ++ second) = emitted first ++ emitted second := List.flatMap_append

@[simp] theorem rejected_append (first second : List EncoderCall) :
    rejected (first ++ second) = rejected first + rejected second := List.countP_append

/-- One chunk comes out for each frame that was taken, not before the frame. Chunks come out in the
order of the frames, but some may be held back. -/
def Paced (calls : List EncoderCall) : Prop :=
  ∀ before, before <+: calls → (emitted before).length ≤ (accepted before).length

/-- Nothing is held back. -/
def Settled (calls : List EncoderCall) : Prop := (emitted calls).length = (accepted calls).length

theorem Paced.of_append {first second : List EncoderCall} (h : Paced (first ++ second)) :
    Paced first := fun before hbefore => h before (hbefore.trans (List.prefix_append _ _))

theorem Paced.length_le {calls : List EncoderCall} (h : Paced calls) :
    (emitted calls).length ≤ (accepted calls).length := h calls (List.prefix_refl _)

/-- When nothing is held back, nothing comes out that was not taken before. -/
theorem Paced.emitted_eq_nil {first second : List EncoderCall} (h : Paced (first ++ second))
    (hsettled : Settled first) (hnone : accepted second = []) : emitted second = [] := by
  have hlength := h.length_le
  unfold Settled at hsettled
  rw [emitted_append, accepted_append, hnone, List.append_nil, List.length_append] at hlength
  exact List.eq_nil_of_length_eq_zero (by omega)

namespace EncoderFamily

def logged (enc : EncoderFamily W) : EncoderFamily (Logged W EncoderCall) where
  supports l c := enc.supports l.world c
  create c l :=
    let (made, world) := enc.create c l.world
    (made, l.note (.create made.toOption) world)
  state l i := enc.state l.world i
  queueSize l i := enc.queueSize l.world i
  configure c i l :=
    let reply := enc.configure c i l.world
    ⟨reply.verdict, reply.emitted, l.note (.configure i reply.succeeded reply.emitted) reply.codec⟩
  encode f key i l :=
    let reply := enc.encode f key i l.world
    ⟨reply.verdict, reply.emitted,
      l.note (.encode f key i reply.succeeded reply.emitted) reply.codec⟩
  flush i l :=
    let reply := enc.flush i l.world
    ⟨reply.verdict, reply.emitted, l.note (.flush i reply.succeeded reply.emitted) reply.codec⟩

/-- The calls that the encoders of a family may answer. -/
inductive Answers (enc : EncoderFamily W) : EncoderCall → Prop where
  | create (c : CodecConfig) (w : W) : Answers enc (.create (enc.create c w).1.toOption)
  | configure (c : CodecConfig) (i : ℕ) (w : W) :
    Answers enc (.configure i (enc.configure c i w).succeeded (enc.configure c i w).emitted)
  | encode (f : Frame) (key : Bool) (i : ℕ) (w : W) :
    Answers enc (.encode f key i (enc.encode f key i w).succeeded (enc.encode f key i w).emitted)
  | flush (i : ℕ) (w : W) :
    Answers enc (.flush i (enc.flush i w).succeeded (enc.flush i w).emitted)

end EncoderFamily

/-- Something that happens to encoders, written down. -/
def Logged.aside (run : W → W × List Chunk) :
    Logged W EncoderCall → Logged W EncoderCall × List Chunk := fun l =>
  let (world, gave) := run l.world
  (l.note (.aside gave) world, gave)

def Cue.logged : Cue W → Cue (Logged W EncoderCall)
  | .frame f => .frame f
  | .effect run => .effect (Logged.aside run)
  | .advance us => .advance us
  | .pause ms => .pause ms
  | .breakDown => .breakDown

def Source.logged (src : Source W) : Source (Logged W EncoderCall) :=
  ⟨src.cues.map Cue.logged, src.ticker, src.stalls⟩

/-- The part of a publisher that says which chunks it was given and what became of them. -/
structure Books where
  log : List EncoderCall
  outputs : List Chunk
  receiving : Bool
  numbering : Numbering
  submitted : ℕ
  chunksSent : ℕ
  /-- The frames that were drawn and given up before they came to an encoder. -/
  dropped : ℕ
  broken : Bool

def Publisher.books (p : Publisher (Logged W EncoderCall)) : Books where
  log := p.codec.calls
  outputs := p.outputs
  receiving := p.receiving
  numbering := p.numbering
  submitted := p.stats.framesSubmitted
  chunksSent := p.stats.chunksSent
  dropped := p.stats.droppedBackpressure + p.stats.droppedNoCodec
  broken := p.broken

namespace Books

/-- From `b` to `b'` so many frames were drawn, and these calls were made on the encoders, each of
which is as `Q` says. -/
structure Works (Q : EncoderCall → Prop) (b b' : Books) (frames : ℕ)
    (calls : List EncoderCall) : Prop where
  log : b'.log = b.log ++ calls
  answered : ∀ c ∈ calls, Q c
  outputs : b.receiving = true → b'.outputs = b.outputs ++ emitted calls
  receiving : b'.receiving = b.receiving
  numbering : b'.numbering = b.numbering
  submitted : b'.submitted = b.submitted + (accepted calls).length
  chunksSent : b'.chunksSent = b.chunksSent
  drawn : b'.broken = false → b.broken = false ∧
    (accepted calls).length + rejected calls + b'.dropped = b.dropped + frames
  /-- Only a frame can break a publisher. -/
  broken : frames = 0 → b'.broken = b.broken

namespace Works

variable {Q : EncoderCall → Prop} {b b' b'' : Books} {n n' : ℕ} {calls calls' : List EncoderCall}

theorem refl (b : Books) : Works Q b b 0 [] where
  log := (List.append_nil _).symm
  answered := fun _ h => absurd h List.not_mem_nil
  outputs _ := (List.append_nil _).symm
  receiving := rfl
  numbering := rfl
  submitted := rfl
  chunksSent := rfl
  drawn h := ⟨h, by unfold accepted rejected; simp⟩
  broken _ := rfl

theorem trans (h : Works Q b b' n calls) (h' : Works Q b' b'' n' calls') :
    Works Q b b'' (n + n') (calls ++ calls') where
  log := by rw [h'.log, h.log, List.append_assoc]
  answered c hc := (List.mem_append.mp hc).elim (h.answered c) (h'.answered c)
  outputs hb := by
    rw [h'.outputs (h.receiving.trans hb), h.outputs hb, emitted_append, List.append_assoc]
  receiving := h'.receiving.trans h.receiving
  numbering := h'.numbering.trans h.numbering
  submitted := by
    rw [h'.submitted, h.submitted, accepted_append, List.length_append, Nat.add_assoc]
  chunksSent := h'.chunksSent.trans h.chunksSent
  drawn hbroken := by
    obtain ⟨hmid, hsecond⟩ := h'.drawn hbroken
    obtain ⟨hfirst, hdropped⟩ := h.drawn hmid
    refine ⟨hfirst, ?_⟩
    rw [accepted_append, List.length_append, rejected_append]
    omega
  broken hn := (h'.broken (by omega)).trans (h.broken (by omega))

/-- Calls that take no frame. -/
theorem of_calls (hcalls : ∀ c ∈ calls, Q c ∧ c.accepted? = none ∧ c.rejects = false)
    (hlog : b'.log = b.log ++ calls)
    (houtputs : b.receiving = true → b'.outputs = b.outputs ++ emitted calls)
    (hrest : b' = { b with log := b'.log, outputs := b'.outputs }) : Works Q b b' 0 calls := by
  have haccepted : accepted calls = [] :=
    List.filterMap_eq_nil_iff.mpr fun c hc => (hcalls c hc).2.1
  have hrejected : rejected calls = 0 :=
    List.countP_eq_zero.mpr fun c hc => by simp [(hcalls c hc).2.2]
  refine ⟨hlog, fun c hc => (hcalls c hc).1, houtputs, ?_, ?_, ?_, ?_, fun hbroken => ?_,
    fun _ => ?_⟩
  · rw [hrest]
  · rw [hrest]
  · rw [hrest, haccepted]
    rfl
  · rw [hrest]
  · rw [hrest] at hbroken ⊢
    refine ⟨hbroken, ?_⟩
    rw [haccepted, hrejected]
    exact Nat.zero_add _
  · rw [hrest]

theorem of_call {c : EncoderCall} (hQ : Q c) (haccepted : c.accepted? = none)
    (hrejects : c.rejects = false) (hlog : b'.log = b.log ++ [c])
    (houtputs : b.receiving = true → b'.outputs = b.outputs ++ c.gave)
    (hrest : b' = { b with log := b'.log, outputs := b'.outputs }) : Works Q b b' 0 [c] := by
  refine of_calls (fun c' hc' => ?_) hlog (fun hb => ?_) hrest
  · rw [List.mem_singleton.mp hc']
    exact ⟨hQ, haccepted, hrejects⟩
  · rw [houtputs hb]
    exact congrArg (b.outputs ++ ·) (List.append_nil _).symm

/-- One frame that comes to an encoder. -/
theorem of_encode {f : Frame} {key : Bool} {i : ℕ} {ok : Bool} {gave : List Chunk}
    (hQ : Q (.encode f key i ok gave)) (hlog : b'.log = b.log ++ [.encode f key i ok gave])
    (houtputs : b.receiving = true → b'.outputs = b.outputs ++ gave)
    (hrest : b' = { b with
      log := b'.log, outputs := b'.outputs, submitted := b.submitted + ok.toNat }) :
    Works Q b b' 1 [.encode f key i ok gave] where
  log := hlog
  answered c' hc' := List.mem_singleton.mp hc' ▸ hQ
  outputs hb := (houtputs hb).trans (congrArg _ (List.append_nil gave).symm)
  receiving := by rw [hrest]
  numbering := by rw [hrest]
  submitted := by
    rw [hrest]
    cases ok <;> rfl
  chunksSent := by rw [hrest]
  drawn hbroken := by
    rw [hrest] at hbroken ⊢
    refine ⟨hbroken, ?_⟩
    cases ok <;> exact Nat.add_comm _ _
  broken := nofun

end Works

end Books

namespace Publisher

section Operations

variable {enc : EncoderFamily W} {Q : EncoderCall → Prop}

theorem works_actOnCodec (p : Publisher (Logged W EncoderCall)) {run : W → W × List Chunk}
    (hQ : ∀ w, Q (.aside (run w).2)) :
    p.books.Works Q (p.actOnCodec (Logged.aside run)).books 0
      [.aside (run p.codec.world).2] :=
  .of_call (hQ _) rfl rfl rfl (fun hp => if_pos hp) rfl

variable (hQ : ∀ call, enc.Answers call → Q call)
include hQ

theorem works_configure (p : Publisher (Logged W EncoderCall)) (c : CodecConfig) :
    ∃ calls, p.books.Works Q (p.configure enc.logged c).2.books 0 calls ∧ accepted calls = [] := by
  have hcall := fun i => hQ _ (.configure c i p.codec.world)
  have houtcome := p.configure_outcome enc.logged c
  generalize p.configure enc.logged c = result at houtcome ⊢
  cases houtcome with
  | unsupported => exact ⟨[], .refl _, rfl⟩
  | stored => exact ⟨[], .refl _, rfl⟩
  | applied => exact ⟨_, .of_call (hcall _) rfl rfl rfl (fun hp => if_pos hp) rfl, rfl⟩
  | givenUp => exact ⟨_, .of_call (hcall _) rfl rfl rfl (fun hp => if_pos hp) rfl, rfl⟩

theorem works_flushEncoder (p : Publisher (Logged W EncoderCall)) :
    ∃ calls, p.books.Works Q (p.flushEncoder enc.logged).books 0 calls ∧ accepted calls = [] := by
  unfold flushEncoder
  split
  · exact ⟨[], .refl _, rfl⟩
  · rename_i i _
    exact ⟨_, .of_call (hQ _ (.flush i p.codec.world)) rfl rfl rfl (fun hp => if_pos hp) rfl, rfl⟩

theorem works_renewEncoder (p : Publisher (Logged W EncoderCall)) :
    ∃ calls, p.books.Works Q (p.renewEncoder enc.logged).books 0 calls := by
  have hcall := fun c => hQ _ (.create c p.codec.world)
  have houtcome := p.renewEncoder_outcome enc.logged
  generalize p.renewEncoder enc.logged = q at houtcome ⊢
  cases houtcome with
  | kept => exact ⟨[], .refl _⟩
  | unconfigured => exact ⟨[], .refl _⟩
  | made => exact ⟨_, .of_call (hcall _) rfl rfl rfl (fun _ => (List.append_nil _).symm) rfl⟩
  | refused => exact ⟨_, .of_call (hcall _) rfl rfl rfl (fun _ => (List.append_nil _).symm) rfl⟩

theorem works_initializeEncoder (p : Publisher (Logged W EncoderCall)) :
    ∃ calls, p.books.Works Q (p.initializeEncoder enc.logged).2.books 0 calls := by
  have hcall := fun c i => hQ _ (.configure c i p.codec.world)
  have houtcome := p.initializeEncoder_outcome enc.logged
  generalize p.initializeEncoder enc.logged = result at houtcome ⊢
  cases houtcome with
  | unready => exact ⟨[], .refl _⟩
  | ready => exact ⟨[], .refl _⟩
  | configured => exact ⟨_, .of_call (hcall _ _) rfl rfl rfl (fun hp => if_pos hp) rfl⟩
  | misfit => exact ⟨_, .of_call (hcall _ _) rfl rfl rfl (fun hp => if_pos hp) rfl⟩

theorem works_encodeWith (p : Publisher (Logged W EncoderCall)) (i now : ℕ) (f : Frame) :
    ∃ calls, p.books.Works Q (p.encodeWith enc.logged i now f).books 1 calls := by
  have hcall := hQ _ (.encode f p.wantsKeyframe i p.codec.world)
  have hlog : (enc.logged.encode f p.wantsKeyframe i p.codec).codec.calls = p.codec.calls ++
      [.encode f p.wantsKeyframe i (enc.encode f p.wantsKeyframe i p.codec.world).succeeded
        (enc.encode f p.wantsKeyframe i p.codec.world).emitted] := rfl
  have houtcome := p.encodeWith_outcome enc.logged i now f
  generalize p.encodeWith enc.logged i now f = q at houtcome ⊢
  cases houtcome with
  | broken =>
    exact ⟨[], (List.append_nil _).symm, fun _ h => absurd h List.not_mem_nil,
      fun _ => (List.append_nil _).symm, rfl, rfl, rfl, rfl, nofun, nofun⟩
  | taken htaken =>
    change (enc.encode f p.wantsKeyframe i p.codec.world).succeeded = true at htaken
    rw [htaken] at hcall hlog
    exact ⟨_, .of_encode hcall hlog (fun hp => if_pos hp) rfl⟩
  | closed hfailed =>
    change (enc.encode f p.wantsKeyframe i p.codec.world).succeeded = false at hfailed
    rw [hfailed] at hcall hlog
    exact ⟨_, .of_encode hcall hlog (fun hp => if_pos hp) rfl⟩
  | rejected hfailed =>
    change (enc.encode f p.wantsKeyframe i p.codec.world).succeeded = false at hfailed
    rw [hfailed] at hcall hlog
    exact ⟨_, .of_encode hcall hlog (fun hp => if_pos hp) rfl⟩

/-- Every frame that is drawn is taken by an encoder, rejected by it, or given up on the way. -/
theorem works_submit (p : Publisher (Logged W EncoderCall)) (now : ℕ) (f : Frame) :
    ∃ calls, p.books.Works Q (p.submit enc.logged now f).books 1 calls := by
  obtain ⟨calls, hrenew⟩ := works_renewEncoder hQ p
  obtain ⟨calls', hinit⟩ := works_initializeEncoder hQ (p.renewEncoder enc.logged)
  have hprepare : p.books.Works Q (p.prepareEncoder enc.logged).2.books 0 (calls ++ calls') :=
    hrenew.trans hinit
  have hdrop : ∀ {q q' : Books}, q' = { q with dropped := q.dropped + 1 } → q.Works Q q' 1 [] := by
    rintro q q' rfl
    exact ⟨(List.append_nil _).symm, fun _ h => absurd h List.not_mem_nil,
      fun _ => (List.append_nil _).symm, rfl, rfl, rfl, rfl, fun h => ⟨h, Nat.zero_add _⟩, nofun⟩
  have hall : ∃ calls, (p.prepareEncoder enc.logged).2.books.Works Q
      (p.submit enc.logged now f).books 1 calls := by
    have houtcome := p.submit_outcome enc.logged now f
    generalize p.submit enc.logged now f = q at houtcome ⊢
    cases houtcome with
    | homeless => exact ⟨[], hdrop rfl⟩
    | behind =>
      refine ⟨[], hdrop ?_⟩
      unfold books
      simp only [Nat.add_right_comm]
      rfl
    | offered => exact works_encodeWith hQ _ _ now f
  obtain ⟨calls'', hsubmit⟩ := hall
  exact ⟨_, hprepare.trans hsubmit⟩

end Operations

end Publisher

end LiveMedia
