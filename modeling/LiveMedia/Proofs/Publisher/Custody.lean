import LiveMedia.Proofs.Publisher.EncoderLog

/-!
# What becomes of chunks

Every chunk that came out of an encoder is either still among the outputs or was handed to the
transport in one object, under the epoch of the stream in which it was handled and on a time line
that starts with the first chunk handled there.
-/

namespace LiveMedia
set_option autoImplicit false

variable {W S : Type}

/-- The epoch and the payload of an object that carries a chunk. -/
def Transmission.stamp? : Transmission → Option (ℕ × ByteArray)
  | .object o => if o.status.isNone then some (o.epoch, o.payload) else none
  | _ => none

def stamps (ts : List Transmission) : List (ℕ × ByteArray) := ts.filterMap Transmission.stamp?

@[simp] theorem stamps_append (first second : List Transmission) :
    stamps (first ++ second) = stamps first ++ stamps second := List.filterMap_append

/-- A call that carried a chunk, and succeeded. -/
def delivers (call : Transmission × Bool) : Bool := call.2 && call.1.stamp?.isSome

/-- A call that carried a chunk, and failed. -/
def loses (call : Transmission × Bool) : Bool := !call.2 && call.1.stamp?.isSome

theorem length_stamps (calls : List (Transmission × Bool)) :
    (stamps (calls.map Prod.fst)).length = calls.countP delivers + calls.countP loses := by
  induction calls with
  | nil => rfl
  | cons call rest ih =>
    obtain ⟨t, ok⟩ := call
    have hfirst : (stamps [t]).length =
        (if delivers (t, ok) then 1 else 0) + if loses (t, ok) then 1 else 0 := by
      unfold stamps delivers loses
      cases hstamp : t.stamp? <;> cases ok <;> simp [hstamp]
    rw [List.map_cons, ← List.singleton_append, stamps_append, List.length_append, ih, hfirst,
      List.countP_cons, List.countP_cons]
    omega

/-- Where the time line of an epoch starts, given the chunks that were handled in each epoch. -/
def originOf (handled : List (ℕ × Chunk)) (epoch : ℕ) : Option Int64 :=
  (handled.find? (·.1 == epoch)).map (·.2.timestamp)

/-- The epoch and the payload under which a chunk goes out when the time line of each epoch starts
with the first of its chunks. -/
def stampIn (handled : List (ℕ × Chunk)) (x : ℕ × Chunk) : ℕ × ByteArray :=
  (x.1, (x.2.rebased ((originOf handled x.1).getD x.2.timestamp)).pack)

def attributed (handled : List (ℕ × Chunk)) : List (ℕ × ByteArray) :=
  handled.map (stampIn handled)

theorem map_fst_attributed (handled : List (ℕ × Chunk)) :
    (attributed handled).map Prod.fst = handled.map Prod.fst := by
  unfold attributed
  rw [List.map_map]
  rfl

/-- The chunks that come later do not move the time line. -/
theorem stampIn_append {handled : List (ℕ × Chunk)} {x : ℕ × Chunk} (h : x ∈ handled)
    (more : List (ℕ × Chunk)) : stampIn (handled ++ more) x = stampIn handled x := by
  have hsome : (handled.find? (·.1 == x.1)).isSome := by
    rw [List.find?_isSome]
    exact ⟨x, h, beq_self_eq_true _⟩
  unfold stampIn originOf
  rw [List.find?_append, Option.or_of_isSome hsome]

theorem attributed_append (handled more : List (ℕ × Chunk)) :
    attributed (handled ++ more) = attributed handled ++ more.map (stampIn (handled ++ more)) := by
  unfold attributed
  rw [List.map_append, List.map_congr_left fun x hx => stampIn_append hx more]

theorem attributed_mono {first second : List (ℕ × Chunk)} (h : first <+: second) :
    attributed first <+: attributed second := by
  obtain ⟨more, rfl⟩ := h
  rw [attributed_append]
  exact List.prefix_append _ _

theorem stampIn_concat (handled : List (ℕ × Chunk)) (epoch : ℕ) (c : Chunk) :
    stampIn (handled ++ [(epoch, c)]) (epoch, c) =
      (epoch, (c.rebased ((originOf handled epoch).getD c.timestamp)).pack) := by
  have horigin : (originOf (handled ++ [(epoch, c)]) epoch).getD c.timestamp =
      (originOf handled epoch).getD c.timestamp := by
    unfold originOf
    rw [List.find?_append]
    cases handled.find? (·.1 == epoch) <;> simp
  change (epoch, (c.rebased ((originOf (handled ++ [(epoch, c)]) epoch).getD c.timestamp)).pack) = _
  rw [horigin]

/-- The chunks of earlier streams and of the one at hand. -/
def withPresent (past : List (ℕ × Chunk)) (epoch : ℕ) (present : List Chunk) : List (ℕ × Chunk) :=
  past ++ present.map (Prod.mk epoch)

theorem originOf_withPresent {past : List (ℕ × Chunk)} {epoch : ℕ}
    (hpast : ∀ x ∈ past, x.1 < epoch) (present : List Chunk) :
    originOf (withPresent past epoch present) epoch = present.head?.map (·.timestamp) := by
  have hnone : past.find? (·.1 == epoch) = none := by
    rw [List.find?_eq_none]
    intro x hx
    have := hpast x hx
    simp
    omega
  unfold originOf withPresent
  rw [List.find?_append, hnone]
  cases present <;> simp

theorem withPresent_concat (past : List (ℕ × Chunk)) (epoch : ℕ) (present : List Chunk)
    (c : Chunk) : withPresent past epoch (present ++ [c]) =
      withPresent past epoch present ++ [(epoch, c)] := by
  unfold withPresent
  rw [List.map_append, List.append_assoc]
  rfl

theorem map_fst_withPresent (past : List (ℕ × Chunk)) (epoch : ℕ) (present : List Chunk) :
    (withPresent past epoch present).map Prod.fst =
      past.map Prod.fst ++ List.replicate present.length epoch := by
  unfold withPresent
  rw [List.map_append, List.map_map]
  congr 1
  exact List.map_const'

theorem map_snd_withPresent (past : List (ℕ × Chunk)) (epoch : ℕ) (present : List Chunk) :
    (withPresent past epoch present).map Prod.snd = past.map Prod.snd ++ present := by
  unfold withPresent
  rw [List.map_append, List.map_map]
  congr 1
  exact List.map_id' present

theorem zip_withPresent (past : List (ℕ × Chunk)) (epoch : ℕ) (present : List Chunk) :
    (past.map Prod.fst ++ List.replicate present.length epoch).zip
      (past.map Prod.snd ++ present) = withPresent past epoch present := by
  rw [← map_fst_withPresent, ← map_snd_withPresent past epoch, List.zip_map']
  exact List.map_id' _

namespace Numbering

theorem stamps_transmissions (n : Numbering) (c : Chunk) : stamps (n.transmissions c) =
    [(n.epoch, (c.rebased (n.origin.getD c.timestamp)).pack)] := by
  have hheader : stamps (if (n.next c).cursor.headerSent then []
      else [.header ⟨n.settings.track, (n.cursor.advance c.isKey).1.group,
        (n.cursor.advance c.isKey).1.subgroup, n.settings.media.groupPriority⟩]) = [] := by
    split <;> rfl
  have hmarker : stamps (((n.cursor.advance c.isKey).1.closed.bind n.endMarker?).toList.map
      .object) = [] := by
    cases (n.cursor.advance c.isKey).1.closed with
    | none => rfl
    | some g =>
      unfold endMarker?
      simp only [Option.bind_some]
      split <;> rfl
  unfold transmissions
  simp only [stamps_append, hheader, List.nil_append]
  exact congrArg (List.cons _) hmarker

end Numbering

namespace Publisher

theorem books_handle (p : Publisher (Logged W EncoderCall)) (now : ℕ) (c : Chunk) :
    (p.handle now c).2.books = { p.books with numbering := p.numbering.next c } := by
  obtain ⟨_, hnumbering⟩ := p.handle_eq now c
  have hrest : (p.handle now c).2.books =
      { p.books with numbering := (p.handle now c).2.numbering } := by
    obtain ⟨_, _, _, _, _, _, _, _, h⟩ := handle_footprint p now c
    rw [h]
    rfl
  rw [hrest, hnumbering]

theorem books_settle (p : Publisher (Logged W EncoderCall)) (t : Transmission) (ok : Bool) :
    (p.settle t ok).books = { p.books with
      numbering := p.numbering.settle (t, ok)
      chunksSent := p.stats.chunksSent + (delivers (t, ok)).toNat } := by
  have hrest : (p.settle t ok).books = { p.books with
      numbering := (p.settle t ok).numbering
      chunksSent := p.stats.chunksSent + (delivers (t, ok)).toNat } := by
    unfold settle
    cases ok with
    | false => rfl
    | true =>
      cases t with
      | header h => rfl
      | flush => rfl
      | object o =>
        simp only [Bool.not_true, Bool.false_eq_true, if_false]
        split
        · rename_i hnormal
          simp [books, delivers, Transmission.stamp?, hnormal, numbering]
        · rename_i hmarked
          simp [books, delivers, Transmission.stamp?, hmarked, numbering]
  rw [hrest, numbering_settle]

end Publisher

namespace Books

/-- The chunks that came out are those that were handled in earlier streams, those that were
handled in the stream at hand, and the outputs, in this order; they went out, or are among the calls
that wait, each as it belongs to the stream that handled it. -/
structure Accounted (Q : EncoderCall → Prop) (b : Books) (calls : List (Transmission × Bool))
    (waiting : List Transmission) (past : List (ℕ × Chunk)) (present : List Chunk)
    (frames : ℕ) : Prop where
  answered : ∀ c ∈ b.log, Q c
  receiving : b.receiving = true
  earlier : ∀ x ∈ past, x.1 < b.numbering.epoch
  origin : b.numbering.origin = present.head?.map (·.timestamp)
  held : past.map Prod.snd ++ present ++ b.outputs = emitted b.log
  stamped : stamps (calls.map Prod.fst) ++ stamps waiting =
    attributed (withPresent past b.numbering.epoch present)
  submitted : b.submitted = (accepted b.log).length
  chunksSent : b.chunksSent = calls.countP delivers
  drawn : b.broken = false → (accepted b.log).length + rejected b.log + b.dropped = frames

namespace Accounted

variable {Q : EncoderCall → Prop} {b b' : Books} {calls : List (Transmission × Bool)}
  {waiting : List Transmission} {past : List (ℕ × Chunk)} {present : List Chunk} {frames : ℕ}

theorem works (h : b.Accounted Q calls waiting past present frames) {n : ℕ}
    {more : List EncoderCall} (hw : b.Works Q b' n more) :
    b'.Accounted Q calls waiting past present (frames + n) where
  answered c hc := by
    rw [hw.log] at hc
    exact (List.mem_append.mp hc).elim (h.answered c) (hw.answered c)
  receiving := hw.receiving.trans h.receiving
  earlier := hw.numbering ▸ h.earlier
  origin := hw.numbering ▸ h.origin
  held := by
    rw [hw.outputs h.receiving, hw.log, emitted_append, ← h.held]
    simp only [List.append_assoc]
  stamped := hw.numbering ▸ h.stamped
  submitted := by rw [hw.submitted, hw.log, accepted_append, List.length_append, h.submitted]
  chunksSent := hw.chunksSent.trans h.chunksSent
  drawn hbroken := by
    obtain ⟨hbefore, hmore⟩ := hw.drawn hbroken
    have := h.drawn hbefore
    rw [hw.log, accepted_append, List.length_append, rejected_append]
    omega

theorem begin (h : b.Accounted Q calls waiting past present frames) :
    { b with numbering := b.numbering.begun }.Accounted Q calls waiting
      (withPresent past b.numbering.epoch present) [] frames where
  answered := h.answered
  receiving := h.receiving
  earlier x hx := by
    change x.1 < b.numbering.epoch + 1
    rcases List.mem_append.mp hx with hx | hx
    · exact Nat.lt_succ_of_lt (h.earlier x hx)
    · obtain ⟨_, _, rfl⟩ := List.mem_map.mp hx
      exact Nat.lt_succ_self _
  origin := rfl
  held := by
    rw [List.append_nil, map_snd_withPresent]
    exact h.held
  stamped := by
    rw [h.stamped]
    unfold withPresent
    rw [List.map_nil, List.append_nil]
  submitted := h.submitted
  chunksSent := h.chunksSent
  drawn := h.drawn

theorem handle (h : b.Accounted Q calls [] past present frames) {c : Chunk} {rest : List Chunk}
    (houtputs : b.outputs = c :: rest) :
    { b with outputs := rest, numbering := b.numbering.next c }.Accounted Q calls
      (b.numbering.transmissions c) past (present ++ [c]) frames where
  answered := h.answered
  receiving := h.receiving
  earlier := h.earlier
  origin := by
    change some (b.numbering.origin.getD c.timestamp) = _
    rw [h.origin]
    cases present <;> rfl
  held := by
    rw [← h.held, houtputs]
    simp
  stamped := by
    have horigin : originOf (withPresent past b.numbering.epoch present) b.numbering.epoch =
        b.numbering.origin := (originOf_withPresent h.earlier present).trans h.origin.symm
    have hbefore := h.stamped
    unfold stamps at hbefore
    rw [List.filterMap_nil, List.append_nil] at hbefore
    change stamps _ ++ stamps _ = attributed (withPresent past b.numbering.epoch (present ++ [c]))
    rw [withPresent_concat, attributed_append, List.map_singleton, stampIn_concat, horigin,
      Numbering.stamps_transmissions, ← hbefore]
    rfl
  submitted := h.submitted
  chunksSent := h.chunksSent
  drawn := h.drawn

theorem send {t : Transmission} (h : b.Accounted Q calls (t :: waiting) past present frames)
    (ok : Bool) :
    { b with
      numbering := b.numbering.settle (t, ok)
      chunksSent := b.chunksSent + (delivers (t, ok)).toNat }.Accounted Q
      (calls ++ [(t, ok)]) waiting past present frames where
  answered := h.answered
  receiving := h.receiving
  earlier := h.earlier
  origin := h.origin
  held := h.held
  stamped := by
    refine Eq.trans ?_ h.stamped
    rw [List.map_append, stamps_append, List.append_assoc]
    congr 1
    exact (stamps_append [t] waiting).symm
  submitted := h.submitted
  chunksSent := by
    change b.chunksSent + _ = _
    rw [h.chunksSent, List.countP_append, List.countP_singleton]
    cases delivers (t, ok) <;> rfl
  drawn := h.drawn

/-- A call that carries no chunk. -/
theorem call (h : b.Accounted Q calls [] past present frames) {t : Transmission}
    (ht : t.stamp? = none) : b.Accounted Q calls [t] past present frames :=
  { h with
    stamped := by
      have hnone : stamps [t] = [] := by
        unfold stamps
        rw [List.filterMap_cons_none ht, List.filterMap_nil]
      rw [hnone]
      exact h.stamped }

end Accounted

end Books

/-- The stream of each frame that encoders took, where the frames that are not yet assigned to one
belong to the stream at hand. -/
def assign (streams : List ℕ) (calls : List EncoderCall) (epoch : ℕ) : List ℕ :=
  streams ++ List.replicate ((accepted calls).length - streams.length) epoch

theorem length_assign {streams : List ℕ} {calls : List EncoderCall}
    (h : streams.length ≤ (accepted calls).length) (epoch : ℕ) :
    (assign streams calls epoch).length = (accepted calls).length := by
  unfold assign
  rw [List.length_append, List.length_replicate]
  omega

theorem assign_assign (streams : List ℕ) {first second : List EncoderCall} (h : first <+: second)
    (epoch : ℕ) :
    assign (assign streams first epoch) second epoch = assign streams second epoch := by
  obtain ⟨more, rfl⟩ := h
  unfold assign
  rw [List.append_assoc, List.replicate_append_replicate]
  congr 2
  simp only [List.length_append, List.length_replicate, accepted_append]
  omega

theorem zip_prefix_zip {α β : Type} {as as' : List α} {bs bs' : List β} (ha : as <+: as')
    (hb : bs <+: bs') : as.zip bs <+: as'.zip bs' := by
  induction as generalizing as' bs bs' with
  | nil => exact List.nil_prefix
  | cons a as ih =>
    cases bs with
    | nil => exact List.nil_prefix
    | cons b bs =>
      obtain ⟨more, rfl⟩ := ha
      obtain ⟨more', rfl⟩ := hb
      exact List.cons_prefix_cons.mpr ⟨rfl, ih (List.prefix_append _ _) (List.prefix_append _ _)⟩

namespace Books

/-- Each chunk was handled in the stream of its frame. -/
def Attributed (Q : EncoderCall → Prop) (b : Books) (calls : List (Transmission × Bool))
    (waiting : List Transmission) (streams : List ℕ) (frames : ℕ) : Prop :=
  ∃ past present, b.Accounted Q calls waiting past present frames ∧
    streams = assign (past.map Prod.fst) b.log b.numbering.epoch

variable {Q : EncoderCall → Prop} {b : Books} {calls : List (Transmission × Bool)}
  {waiting : List Transmission} {past : List (ℕ × Chunk)} {present : List Chunk} {frames : ℕ}
  {streams : List ℕ}

/-- The frames that were taken so far are assigned already. -/
theorem Attributed.assign_eq (h : b.Attributed Q calls waiting streams frames) :
    assign streams b.log b.numbering.epoch = streams := by
  obtain ⟨past, present, -, hstreams⟩ := h
  rw [hstreams]
  exact assign_assign _ (List.prefix_refl _) _

/-- Work on encoders assigns the frames that they take to the stream at hand. -/
theorem Attributed.works {b' : Books} {n : ℕ} {more : List EncoderCall}
    (h : b.Attributed Q calls waiting streams frames) (hworks : b.Works Q b' n more) :
    b'.Attributed Q calls waiting (assign streams b'.log b'.numbering.epoch) (frames + n) := by
  obtain ⟨past, present, haccounted, hstreams⟩ := h
  refine ⟨past, present, haccounted.works hworks, ?_⟩
  rw [hstreams, hworks.numbering]
  exact assign_assign _ ⟨more, hworks.log.symm⟩ _

/-- Where nothing is held back, nothing comes out unless another frame is taken. -/
theorem Attributed.outputs_eq_nil {b' : Books} {n : ℕ} {more : List EncoderCall}
    (h : b.Attributed Q calls waiting streams frames) (hworks : b.Works Q b' n more)
    (houtputs : b.outputs = []) (hsettled : Settled b.log) (hpaced : Paced b'.log)
    (hnone : accepted more = []) : b'.outputs = [] := by
  obtain ⟨_, _, haccounted, _⟩ := h
  rw [hworks.log] at hpaced
  rw [hworks.outputs haccounted.receiving, houtputs, hpaced.emitted_eq_nil hsettled hnone]
  rfl

/-- What was handled is the first part of what came out, each chunk with the stream of its frame. -/
theorem Accounted.withPresent_initial (h : b.Accounted Q calls waiting past present frames)
    (hpaced : Paced b.log) : withPresent past b.numbering.epoch present <+:
      (assign (past.map Prod.fst) b.log b.numbering.epoch).zip (emitted b.log) := by
  have hlength := hpaced.length_le
  rw [← h.held] at hlength ⊢
  simp only [List.length_append, List.length_map] at hlength
  have hstreams : past.map Prod.fst ++ List.replicate present.length b.numbering.epoch <+:
      assign (past.map Prod.fst) b.log b.numbering.epoch := by
    unfold assign
    rw [List.prefix_append_right_inj, List.length_map]
    refine ⟨List.replicate ((accepted b.log).length - past.length - present.length)
      b.numbering.epoch, ?_⟩
    rw [List.replicate_append_replicate]
    congr 1
    omega
  rw [← zip_withPresent]
  exact zip_prefix_zip hstreams (List.prefix_append _ _)

theorem Accounted.right (h : b.Accounted Q calls [] past present frames) (hpaced : Paced b.log) :
    ∃ handled, handled <+:
        (assign (past.map Prod.fst) b.log b.numbering.epoch).zip (emitted b.log) ∧
      stamps (calls.map Prod.fst) = attributed handled := by
  have hsent := h.stamped
  rw [show stamps [] = [] from rfl, List.append_nil] at hsent
  exact ⟨_, h.withPresent_initial hpaced, hsent⟩

/-- When nothing is held back and nothing is left among the outputs, every frame that was taken has
its chunk handled. -/
theorem Accounted.streams_settled (h : b.Accounted Q calls waiting past present frames)
    (hsettled : Settled b.log) (houtputs : b.outputs = []) :
    assign (past.map Prod.fst) b.log b.numbering.epoch =
      (withPresent past b.numbering.epoch present).map Prod.fst := by
  have hlength : past.length + present.length = (accepted b.log).length := by
    rw [← hsettled, ← h.held, houtputs]
    simp
  unfold assign
  rw [map_fst_withPresent, List.length_map, ← hlength, Nat.add_sub_cancel_left]

/-- When nothing is held back and nothing is left among the outputs, every chunk went out in the
stream of its frame. -/
theorem Accounted.complete (h : b.Accounted Q calls [] past present frames)
    (hsettled : Settled b.log) (houtputs : b.outputs = []) : stamps (calls.map Prod.fst) =
      attributed ((assign (past.map Prod.fst) b.log b.numbering.epoch).zip (emitted b.log)) := by
  have hall : (assign (past.map Prod.fst) b.log b.numbering.epoch).zip (emitted b.log) =
      withPresent past b.numbering.epoch present := by
    rw [h.streams_settled hsettled houtputs, ← h.held, houtputs, List.append_nil,
      map_fst_withPresent, zip_withPresent]
  have hsent := h.stamped
  rw [show stamps [] = [] from rfl, List.append_nil] at hsent
  rw [hall]
  exact hsent

end Books

/-- The books of a new publisher. -/
theorem Publisher.attributed_new {Q : EncoderCall → Prop} (settings : PublishSettings) (codec : W)
    (clock : CaptureClock) (now : ℕ) :
    (Publisher.new settings (.fresh codec) clock now).books.Attributed Q [] [] [] 0 :=
  ⟨[], [],
    { answered := fun _ h => absurd h List.not_mem_nil
      receiving := rfl
      earlier := fun _ h => absurd h List.not_mem_nil
      origin := rfl
      held := rfl
      stamped := rfl
      submitted := rfl
      chunksSent := rfl
      drawn := fun _ => rfl }, rfl⟩

end LiveMedia
