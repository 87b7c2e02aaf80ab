import LiveMedia.Proofs.Publisher.Attachment

/-!
# A publisher that is used directly

Its owner configures it and attaches one stream after the other; in between, encoders may change by
themselves and time passes. What is told of it is what its encoders and its link wrote down, and in
which stream each frame was taken.
-/

namespace LiveMedia
set_option autoImplicit false

variable {W S : Type}

inductive Errand (W : Type) where
  | configure (c : CodecConfig)
  /-- A stream, given up when it would have to wait beyond the millisecond `limit`. -/
  | attach (limit : ℕ) (src : Source W)
  /-- Encoders change by themselves, as in a fault, and may give out chunks. -/
  | disturb (run : W → W × List Chunk)
  | elapse (microseconds : ℕ)

namespace Errand

/-- The frames that a stream has to give. -/
def frames : Errand W → List Frame
  | attach _ src => src.frames
  | _ => []

/-- What happens to encoders by itself is as `Q` says. -/
def Only (Q : EncoderCall → Prop) : Errand W → Prop
  | attach _ src => ∀ run, Cue.effect run ∈ src.cues → ∀ w, Q (.aside (run w).2)
  | disturb run => ∀ w, Q (.aside (run w).2)
  | _ => True

theorem only_any (e : Errand W) : e.Only fun _ => True := by
  cases e with
  | attach limit src => exact fun _ _ _ => trivial
  | disturb run => exact fun _ => trivial
  | configure c => trivial
  | elapse us => trivial

end Errand

structure Annals (W S : Type) where
  broadcast : Broadcast (Logged W EncoderCall) (Logged S (Transmission × Bool))
  /-- The number of the stream in which each frame was taken, counted from one. -/
  streams : List ℕ
  /-- How the streams ended. -/
  ends : List StreamEnd

namespace Annals

def start (settings : PublishSettings) (codec : W) (clock : CaptureClock) (s : S) (now : ℕ) :
    Annals W S :=
  ⟨⟨.new settings (.fresh codec) clock now, .fresh s, now⟩, [], []⟩

def log (a : Annals W S) : List EncoderCall := a.broadcast.publisher.codec.calls

def calls (a : Annals W S) : List (Transmission × Bool) := a.broadcast.link.calls

/-- The epochs and payloads of the objects that carry chunks, sent or not. -/
def sent (a : Annals W S) : List (ℕ × ByteArray) := stamps (a.calls.map Prod.fst)

section Run

variable (enc : EncoderFamily W) (link : Link S)

def perform (b : Broadcast (Logged W EncoderCall) (Logged S (Transmission × Bool))) :
    Errand W →
      Option StreamEnd × Broadcast (Logged W EncoderCall) (Logged S (Transmission × Bool))
  | .configure c => (none, { b with publisher := (b.publisher.configure enc.logged c).2 })
  | .attach limit src =>
    let (how, b) := b.attach enc.logged link.logged limit src.logged
    (some how, b)
  | .disturb run => (none, b.apply (Logged.aside run))
  | .elapse us => (none, { b with now := b.now + us })

/-- Nothing follows a stream that broke off. -/
def step (a : Annals W S) (e : Errand W) : Annals W S :=
  if .broken ∈ a.ends then a
  else
    let (how, b) := perform enc link a.broadcast e
    let ends := a.ends ++ how.toList
    ⟨b, assign a.streams b.publisher.codec.calls ends.length, ends⟩

def run (a : Annals W S) (errands : List (Errand W)) : Annals W S := errands.foldl (step enc link) a

end Run

/-- All streams so far came to their end. -/
structure Going (Q : EncoderCall → Prop) (a : Annals W S) (frames : ℕ) : Prop where
  ends : ∀ how ∈ a.ends, how = .ended
  epoch : a.broadcast.publisher.epoch = a.ends.length
  whole : a.broadcast.publisher.broken = false
  attributed : a.broadcast.publisher.books.Attributed Q a.calls [] a.streams frames
  outputs : Paced a.log → Settled a.log → a.broadcast.publisher.outputs = []

/-- What was sent is right as far as it goes. -/
def Right (a : Annals W S) : Prop :=
  Paced a.log → ∃ handled, handled <+: a.streams.zip (emitted a.log) ∧ a.sent = attributed handled

/-- A stream did not come to its end, and nothing is sent any more. -/
structure Over (a : Annals W S) : Prop where
  ends : ∃ how ∈ a.ends, how ≠ .ended
  deaf : a.broadcast.publisher.receiving = false ∨ .broken ∈ a.ends
  right : a.Right

theorem Going.right {Q : EncoderCall → Prop} {a : Annals W S} {frames : ℕ}
    (h : a.Going Q frames) : a.Right := by
  intro hpaced
  obtain ⟨past, present, haccounted, hstreams⟩ := h.attributed
  rw [hstreams]
  exact haccounted.right hpaced

section Steps

variable {enc : EncoderFamily W} {Q : EncoderCall → Prop} {link : Link S} {a : Annals W S}
  {frames : ℕ}

/-- Encoders were asked for something other than taking a frame. -/
theorem Going.works (h : a.Going Q frames) (hpaced : Paced a.log) (hsettled : Settled a.log)
    {p : Publisher (Logged W EncoderCall)} {more : List EncoderCall}
    (hworks : a.broadcast.publisher.books.Works Q p.books 0 more) (hnone : accepted more = [])
    (now : ℕ) :
    Going Q ⟨⟨p, a.broadcast.link, now⟩, assign a.streams p.codec.calls (a.ends ++ []).length,
      a.ends ++ []⟩ frames := by
  have hepoch : p.epoch = a.broadcast.publisher.epoch := congrArg Numbering.epoch hworks.numbering
  rw [List.append_nil]
  refine ⟨h.ends, hepoch.trans h.epoch, (hworks.broken rfl).trans h.whole, ?_, ?_⟩
  · rw [← h.epoch, ← hepoch]
    exact h.attributed.works hworks
  · intro hpaced' _
    exact h.attributed.outputs_eq_nil hworks (h.outputs hpaced hsettled) hsettled hpaced' hnone

theorem Going.attach (hQ : ∀ call, enc.Answers call → Q call) (h : a.Going Q frames)
    (hpaced : Paced a.log) (hsettled : Settled a.log) (limit : ℕ) {src : Source W}
    (hsrc : ∀ run, Cue.effect run ∈ src.cues → ∀ w, Q (.aside (run w).2))
    {how : StreamEnd} {b : Broadcast (Logged W EncoderCall) (Logged S (Transmission × Bool))}
    (hattach : a.broadcast.attach enc.logged link.logged limit src.logged = (how, b)) :
    let next : Annals W S :=
      ⟨b, assign a.streams b.publisher.codec.calls (a.ends ++ [how]).length, a.ends ++ [how]⟩
    next.Going Q (frames + src.frames.length) ∨ next.Over := by
  obtain ⟨past, present, haccounted, hstreams⟩ := h.attributed
  have hstreams : a.streams = (withPresent past a.broadcast.publisher.epoch present).map Prod.fst :=
    hstreams.trans (haccounted.streams_settled hsettled (h.outputs hpaced hsettled))
  have hleaves := Broadcast.attach_leaves hQ link limit hsrc haccounted h.whole
  have hcount : (a.ends ++ [how]).length = a.broadcast.publisher.epoch + 1 := by
    rw [List.length_append, ← h.epoch, List.length_singleton]
  rw [hattach] at hleaves
  generalize withPresent past a.broadcast.publisher.epoch present = past' at hstreams hleaves
  have hends : ∀ how, how ≠ StreamEnd.ended → ∃ how' ∈ a.ends ++ [how], how' ≠ .ended :=
    fun how hhow => ⟨how, List.mem_append_right _ (List.mem_singleton_self how), hhow⟩
  have hright : ∀ {n} {last : Broadcast (Logged W EncoderCall) (Logged S (Transmission × Bool))},
      last.Within Q (a.broadcast.publisher.epoch + 1) past' n →
      Right ⟨last, assign a.streams last.publisher.codec.calls (a.ends ++ [how]).length,
        a.ends ++ [how]⟩ := by
    intro n last hwithin hpaced'
    obtain ⟨present, haccounted⟩ := hwithin.accounted
    have hright := haccounted.right hpaced'
    rw [hcount, ← hwithin.epoch_eq, hstreams]
    exact hright
  intro next
  cases hleaves with
  | ended hwithin houtputs hwhole =>
    obtain ⟨present, haccounted⟩ := hwithin.accounted
    refine .inl ⟨fun how hhow => ?_, hwithin.epoch_eq.trans hcount.symm, hwhole,
      ⟨past', present, haccounted, ?_⟩, fun _ _ => houtputs⟩
    · exact (List.mem_append.mp hhow).elim (h.ends how) List.mem_singleton.mp
    · change assign a.streams _ (a.ends ++ [StreamEnd.ended]).length = assign _ _ b.publisher.epoch
      rw [hstreams, hcount, hwithin.epoch_eq]
      rfl
  | broken hwithin =>
    exact .inr ⟨hends _ nofun, .inr (List.mem_append_right _ (List.mem_singleton_self _)),
      hright hwithin⟩
  | abandoned hwithin =>
    have hlast := hright hwithin
    exact .inr ⟨hends _ nofun, .inl rfl, hlast⟩

/-- Once nothing is sent any more, what was sent stays right. -/
theorem Over.works (h : a.Over) (hdeaf : a.broadcast.publisher.receiving = false)
    {p : Publisher (Logged W EncoderCall)} {more : List EncoderCall}
    (hworks : a.broadcast.publisher.books.Works Q p.books 0 more) (now : ℕ)
    (ends : List StreamEnd) :
    Over ⟨⟨p, a.broadcast.link, now⟩, assign a.streams p.codec.calls (a.ends ++ ends).length,
      a.ends ++ ends⟩ where
  ends := by
    obtain ⟨how, hmem, hhow⟩ := h.ends
    exact ⟨how, List.mem_append_left _ hmem, hhow⟩
  deaf := .inl (hworks.receiving.trans hdeaf)
  right := by
    intro hpaced
    have hlog : p.codec.calls = a.log ++ more := hworks.log
    change Paced p.codec.calls at hpaced
    rw [hlog] at hpaced
    obtain ⟨handled, hprefix, hsent⟩ := h.right hpaced.of_append
    refine ⟨handled, hprefix.trans (zip_prefix_zip (List.prefix_append _ _) ?_), hsent⟩
    change emitted a.log <+: emitted p.codec.calls
    rw [hlog, emitted_append]
    exact List.prefix_append _ _

theorem Over.step (h : a.Over) (e : Errand W) : (a.step enc link e).Over := by
  have hany : ∀ call, enc.Answers call → True := fun _ _ => trivial
  unfold Annals.step
  split
  · exact h
  · rename_i hgoes
    have hdeaf := h.deaf.resolve_right hgoes
    cases e with
    | configure c =>
      obtain ⟨_, hworks, -⟩ := Publisher.works_configure hany a.broadcast.publisher c
      exact h.works hdeaf hworks _ _
    | attach limit src =>
      have hattach : a.broadcast.attach enc.logged link.logged limit src.logged =
          (.ended, a.broadcast) := by
        unfold Broadcast.attach
        rw [if_pos (by simp [hdeaf])]
      unfold perform
      simp only [hattach]
      exact h.works (Q := fun _ => True) hdeaf (.refl _) _ _
    | disturb run =>
      exact h.works (Q := fun _ => True) hdeaf
        (a.broadcast.publisher.works_actOnCodec fun _ => trivial) _ _
    | elapse us => exact h.works (Q := fun _ => True) hdeaf (.refl _) _ _

/-- One errand while all streams come to their end. -/
theorem Going.step (hQ : ∀ call, enc.Answers call → Q call) (h : a.Going Q frames)
    (hpaced : Paced a.log) (hsettled : Settled a.log) {e : Errand W} (he : e.Only Q) :
    (a.step enc link e).Going Q (frames + e.frames.length) ∨ (a.step enc link e).Over := by
  have hgoes : ¬StreamEnd.broken ∈ a.ends := fun hbroken => nomatch h.ends _ hbroken
  unfold Annals.step
  rw [if_neg hgoes]
  cases e with
  | configure c =>
    obtain ⟨_, hworks, hnone⟩ := Publisher.works_configure hQ a.broadcast.publisher c
    exact .inl (h.works hpaced hsettled hworks hnone _)
  | attach limit src => exact h.attach hQ hpaced hsettled limit he rfl
  | disturb run =>
    exact .inl (h.works hpaced hsettled (a.broadcast.publisher.works_actOnCodec he) rfl _)
  | elapse us => exact .inl (h.works hpaced hsettled (.refl _) rfl _)

theorem Over.run (h : a.Over) (errands : List (Errand W)) : (a.run enc link errands).Over := by
  induction errands generalizing a with
  | nil => exact h
  | cons e rest ih => exact ih (h.step e)

/-- Where nothing is held back before the next errand, a publisher that is going stays so until a
stream does not come to its end. -/
theorem Going.run (hQ : ∀ call, enc.Answers call → Q call) (h : a.Going Q frames)
    {errands : List (Errand W)}
    (hrested : ∀ done, done <+: errands → done ≠ errands → ∀ n,
      (a.run enc link done).Going Q n →
        Paced (a.run enc link done).log ∧ Settled (a.run enc link done).log)
    (honly : ∀ e ∈ errands, e.Only Q) :
    (a.run enc link errands).Going Q (frames + (errands.flatMap Errand.frames).length) ∨
      (a.run enc link errands).Over := by
  induction errands generalizing a frames with
  | nil => exact .inl h
  | cons e rest ih =>
    obtain ⟨hpaced, hsettled⟩ := hrested [] List.nil_prefix nofun frames h
    have hstep :
        (a.step enc link e).Going Q (frames + e.frames.length) ∨ (a.step enc link e).Over :=
      h.step hQ hpaced hsettled (honly e List.mem_cons_self)
    rcases hstep with hgoing | hover
    · rw [List.flatMap_cons, List.length_append, ← Nat.add_assoc]
      refine ih hgoing (fun done hdone hne n hn => ?_)
        fun e' he' => honly e' (List.mem_cons_of_mem _ he')
      exact hrested (e :: done) (List.cons_prefix_cons.mpr ⟨rfl, hdone⟩)
        (fun heq => hne (List.cons.inj heq).2) n hn
    · exact .inr (hover.run rest)

theorem going_start (settings : PublishSettings) (codec : W) (clock : CaptureClock) (s : S)
    (now : ℕ) : (start settings codec clock s now).Going Q 0 where
  ends := fun _ h => absurd h List.not_mem_nil
  epoch := rfl
  whole := rfl
  attributed := Publisher.attributed_new settings codec clock now
  outputs _ _ := rfl

end Steps

end Annals

end LiveMedia
