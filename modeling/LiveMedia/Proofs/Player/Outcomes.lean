import LiveMedia.Player.Basic

/-!
# What a player does with what comes to it

All that can happen when an object arrives, when a decoder is made, when one is looked for, and when
a chunk is given to it.
-/

namespace LiveMedia
set_option autoImplicit false

variable {W : Type}

namespace Player

section Receiving

/-- What comes of an object's epoch: a player of that stream, or none. -/
inductive FollowOutcome (p : Player W) (epoch : Nat) : Option (Player W) → Prop where
  | first (fresh : p.epoch = none) : FollowOutcome p epoch (some { p with epoch := some epoch })
  | stale {current : Nat} (known : p.epoch = some current) (older : epoch < current) :
      FollowOutcome p epoch none
  | same (known : p.epoch = some epoch) : FollowOutcome p epoch (some p)
  | newer {current : Nat} (known : p.epoch = some current) (later : current < epoch) :
      FollowOutcome p epoch (some { p.restart with epoch := some epoch })

theorem follow?_outcome (p : Player W) (epoch : Nat) :
    FollowOutcome p epoch (p.follow? epoch) := by
  unfold follow?
  cases hepoch : p.epoch with
  | none => exact .first hepoch
  | some current =>
    rcases Nat.lt_trichotomy epoch current with hlt | rfl | hgt
    · simp only [hlt, if_true]
      exact .stale hepoch hlt
    · simp only [Nat.lt_irrefl, if_true, if_false]
      exact .same hepoch
    · simp only [Nat.lt_asymm hgt, Nat.ne_of_gt hgt, if_false]
      exact .newer hepoch hgt

/-- The number of objects received has no part in it. -/
theorem follow?_counted (p : Player W) (epoch n : Nat) :
    follow? { p with counts.objectsReceived := n } epoch =
      (p.follow? epoch).map fun q => { q with counts.objectsReceived := n } := by
  have houtcome := p.follow?_outcome epoch
  generalize p.follow? epoch = r at houtcome ⊢
  cases houtcome with
  | first fresh => simp [follow?, fresh]
  | stale known older => simp [follow?, known, older]
  | same known => simp [follow?, known]
  | newer known later =>
    simp [follow?, known, Nat.lt_asymm later, Nat.ne_of_gt later, restart]

theorem noteBytes_footprint (p : Player W) (now bytes : Nat) :
    ∃ bitrate events, p.noteBytes now bytes = { p with bitrate := bitrate, events := events } := by
  unfold noteBytes
  split
  · exact ⟨_, p.events, rfl⟩
  · exact ⟨_, _, rfl⟩

/-- What an object that arrives makes of a player. -/
inductive ReceiveOutcome (p : Player W) (now : Nat) (o : Received) : Player W → Prop where
  | stale (replaced : p.follow? o.epoch = none) : ReceiveOutcome p now o
      { p with
        counts.objectsReceived := p.counts.objectsReceived + 1
        counts.staleEpochDrops := p.counts.staleEpochDrops + 1 }
  | control {q : Player W} (follows : p.follow? o.epoch = some q)
      (unwanted : (o.isControl && q.media.discardsControl) = true) : ReceiveOutcome p now o
      { q with
        counts.objectsReceived := p.counts.objectsReceived + 1
        counts.controlObjectsDropped := q.counts.controlObjectsDropped + 1 }
  | buffered {q : Player W} (follows : p.follow? o.epoch = some q)
      (wanted : (o.isControl && q.media.discardsControl) = false) (bitrate : BitrateMeter)
      (events : List Event) : ReceiveOutcome p now o
      { q with
        counts.objectsReceived := p.counts.objectsReceived + 1
        bitrate := bitrate
        events := events
        buffer := (q.buffer.push now ⟨o.group, o.object⟩ o).2 }

theorem receive_outcome (p : Player W) (now : Nat) (o : Received) :
    ReceiveOutcome p now o (p.receive now o) := by
  unfold receive
  simp only
  rw [follow?_counted]
  cases hfollow : p.follow? o.epoch with
  | none => exact .stale hfollow
  | some q =>
    have hmedia : Player.media
        { q with counts.objectsReceived := p.counts.objectsReceived + 1 } = q.media := rfl
    simp only [Option.map_some, hmedia]
    cases hdrop : o.isControl && q.media.discardsControl with
    | true => exact .control hfollow hdrop
    | false =>
      obtain ⟨bitrate, events, hn⟩ := noteBytes_footprint
        { q with counts.objectsReceived := p.counts.objectsReceived + 1 } now o.payload.size
      simp only [Bool.false_eq_true, if_false, hn]
      exact .buffered hfollow hdrop bitrate events

end Receiving

/-- Pictures change nothing but the queue that they are put into. -/
theorem deliver_eq (p : Player W) (i : Nat) (pictures : List Picture) :
    p.deliver i pictures = { p with outputs := (p.deliver i pictures).outputs } := by
  unfold deliver
  split
  · split <;> rfl
  · rfl

variable (dec : DecoderFamily W)

def renewed (p : Player W) (i : Nat) (codec : W) : Player W :=
  { p with codec := codec, decoder := some i, outputs := some ⟨i, []⟩, timestamps := [] }

/-- A chunk that its decoder takes leaves its time stamp, and one that it refuses ends the decoding
until the next key chunk. -/
theorem decodeWith_cases (p : Player W) (i : Nat) (c : Chunk) {reply : Reply W Picture}
    (hreply : dec.decode c i p.codec = reply) :
    (reply.succeeded = true ∧ p.decodeWith dec i c = { p with
      codec := reply.codec
      outputs := (deliver { p with codec := reply.codec } i reply.emitted).outputs
      timestamps := p.timestamps ++ [c.timestamp]
      counts.chunksDecoded := p.counts.chunksDecoded + 1 }) ∨
    (reply.succeeded = false ∧ p.decodeWith dec i c = { p with
      codec := reply.codec
      outputs := (deliver { p with codec := reply.codec } i reply.emitted).outputs
      decoding := false }) := by
  unfold decodeWith
  rw [hreply]
  simp only
  rw [deliver_eq]
  cases reply.succeeded with
  | true => exact Or.inl ⟨rfl, rfl⟩
  | false => exact Or.inr ⟨rfl, rfl⟩

/-- What setting up a decoder makes of the codecs. -/
inductive SetUp (config : CodecConfig) (i : Nat) (codec : W) : W → Prop where
  | ready (state : dec.state codec i ≠ .uninitialized) : SetUp config i codec codec
  | configured (state : dec.state codec i = .uninitialized)
      (fits : (dec.configure config i codec).succeeded = true) :
      SetUp config i codec (dec.configure config i codec).codec

/-- What comes of the wish for a decoder. -/
inductive CreateOutcome (p : Player W) : Option Nat × Player W → Prop where
  | refused {e : CodecFault} {codec : W} (made : dec.create p.config p.codec = (.error e, codec)) :
      CreateOutcome p (none, { p with codec := codec })
  | unfit {i : Nat} {codec : W} (made : dec.create p.config p.codec = (.ok i, codec))
      (state : dec.state codec i = .uninitialized)
      (failed : (dec.configure p.config i codec).succeeded = false) :
      CreateOutcome p (none, { p with codec := (dec.configure p.config i codec).codec })
  | created {i : Nat} {codec codec' : W} (made : dec.create p.config p.codec = (.ok i, codec))
      (setup : SetUp dec p.config i codec codec') :
      CreateOutcome p (some i, p.renewed i codec')

theorem createDecoder?_outcome (p : Player W) : CreateOutcome dec p (p.createDecoder? dec) := by
  unfold createDecoder? initializeDecoder
  rcases hcreate : dec.create p.config p.codec with ⟨made, codec⟩
  cases made with
  | error e => exact .refused hcreate
  | ok i =>
    by_cases hstate : dec.state codec i = .uninitialized
    · simp only [hstate, if_true]
      cases hfit : (dec.configure p.config i codec).succeeded with
      | false => exact .unfit hcreate hstate hfit
      | true => exact .created hcreate (.configured hstate hfit)
    · simp only [hstate, if_false]
      exact .created hcreate (.ready hstate)

/-- The decoders given up so far, with the one at hand. -/
def resets (p : Player W) : Nat := p.counts.codecResets + if p.decoder.isSome then 1 else 0

/-- What becomes of a player with a chunk to decode. A new decoder is made for a key chunk only. -/
inductive DecodeOutcome (p : Player W) (c : Chunk) : Player W → Prop where
  | waits (state : p.decoding = false) (kind : c.kind = .delta) : DecodeOutcome p c
      { p with counts.keyframeWaitDiscards := p.counts.keyframeWaitDiscards + 1 }
  | kept {i : Nat} (state : p.decoding = true ∨ c.kind = .key)
      (current : p.openDecoder dec = some i) : DecodeOutcome p c
      (decodeWith dec { p with decoding := true } i c)
  | lost (state : p.decoding = true) (kind : c.kind = .delta)
      (shut : p.openDecoder dec = none) : DecodeOutcome p c
      { p with
        decoder := none
        decoding := false
        counts.codecResets := p.resets
        counts.keyframeWaitDiscards := p.counts.keyframeWaitDiscards + 1 }
  | refused (kind : c.kind = .key) (shut : p.openDecoder dec = none) {e : CodecFault} {codec : W}
      (made : dec.create p.config p.codec = (.error e, codec)) : DecodeOutcome p c
      { p with
        codec := codec
        decoder := none
        decoding := false
        counts.codecResets := p.resets }
  | unfit (kind : c.kind = .key) (shut : p.openDecoder dec = none) {i : Nat} {codec : W}
      (made : dec.create p.config p.codec = (.ok i, codec))
      (state : dec.state codec i = .uninitialized)
      (failed : (dec.configure p.config i codec).succeeded = false) : DecodeOutcome p c
      { p with
        codec := (dec.configure p.config i codec).codec
        decoder := none
        decoding := false
        counts.codecResets := p.resets }
  | renewed (kind : c.kind = .key) (shut : p.openDecoder dec = none) {i : Nat}
      {codec codec' : W} (made : dec.create p.config p.codec = (.ok i, codec))
      (setup : SetUp dec p.config i codec codec') : DecodeOutcome p c
      (decodeWith dec
        (Player.renewed { p with decoding := true, counts.codecResets := p.resets } i codec') i c)

theorem decode_outcome (p : Player W) (c : Chunk) : DecodeOutcome dec p c (p.decode dec c) := by
  have hdelta : c.kind = .delta → c.isKey = false := by
    intro hkind
    rw [Chunk.isKey, hkind]
    rfl
  unfold decode
  by_cases hwait : (!p.decoding && !c.isKey) = true
  · rw [if_pos hwait]
    rw [Bool.and_eq_true, Bool.not_eq_true', Bool.not_eq_true'] at hwait
    cases hkind : c.kind with
    | delta => exact .waits hwait.1 hkind
    | key => cases hwait.2.symm.trans ((Chunk.isKey_iff c).mpr hkind)
  · rw [if_neg hwait]
    have hopen : openDecoder dec { p with decoding := true } = p.openDecoder dec := rfl
    have hshut : (if p.decoder.isSome then { p with
          decoder := none, decoding := true, counts.codecResets := p.counts.codecResets + 1 }
        else { p with decoding := true }) =
        { p with decoder := none, decoding := true, counts.codecResets := p.resets } := by
      unfold resets
      by_cases hd : p.decoder.isSome = true
      · rw [if_pos hd, if_pos hd]
      · rw [if_neg hd, if_neg hd, Nat.add_zero, ← Option.not_isSome_iff_eq_none.mp hd]
    unfold decoderFor
    rw [hopen]
    cases hkind : c.kind with
    | delta =>
      have hstate : p.decoding = true := by
        rw [hdelta hkind, Bool.not_false, Bool.and_true, Bool.not_eq_true'] at hwait
        exact Bool.of_not_eq_false hwait
      cases hcurrent : p.openDecoder dec with
      | some i => exact .kept (Or.inl hstate) hcurrent
      | none =>
        simp only [hshut, hdelta hkind, Bool.not_false, if_true]
        exact .lost hstate hkind hcurrent
    | key =>
      cases hcurrent : p.openDecoder dec with
      | some i => exact .kept (Or.inr hkind) hcurrent
      | none =>
        have hkey : c.isKey = true := (Chunk.isKey_iff c).mpr hkind
        simp only [hshut, hkey, Bool.not_true, Bool.false_eq_true, if_false]
        have houtcome := createDecoder?_outcome dec
          { p with decoder := none, decoding := true, counts.codecResets := p.resets }
        generalize createDecoder? dec
          { p with decoder := none, decoding := true, counts.codecResets := p.resets } = r
          at houtcome ⊢
        cases houtcome with
        | refused made => exact .refused hkind hcurrent made
        | unfit made state failed => exact .unfit hkind hcurrent made state failed
        | created made setup => exact .renewed hkind hcurrent made setup

end Player

end LiveMedia
