import LiveMedia.Proofs.Publisher.Dealings
import LiveMedia.Proofs.Publisher.Footprint

/-!
# What a publisher recalls of its encoders

The state of a publisher says no more about its encoder than the history of their dealings: which
configuration is in force and which one the encoder has, how many frames of the stream came to an
encoder, and whether the encoder has taken one. An encoder that is closed is not spoken of, and it
is given up before the next frame.
-/

namespace LiveMedia
set_option autoImplicit false

variable {V W S : Type}

namespace Dealing

/-- An encode call is made under the configuration in force. It asks for a key chunk when its turn
has come in the stream, and as long as its encoder has taken none of the frames of the stream. -/
def Warranted (interval : ℕ) (before : List Dealing) : Dealing → Prop
  | encode _ key i _ =>
    (∃ c, inForce before = some c ∧ configOf before i = some c) ∧
      (key = true ↔ interval ∣ encodes (thisStream before) ∨ ¬ Proven (thisStream before) i)
  | _ => True

end Dealing

namespace Publisher

open Dealing

/-- What the publisher knows about the encoder numbered `i` is true of this history. -/
structure Knows (p : Publisher V) (h : List Dealing) (i : ℕ) : Prop where
  applied : ∃ c, p.config = some c ∧ configOf h i = some c
  forced : p.forceKeyframe = true ↔ ¬ Proven (thisStream h) i

structure Recalls (interval : ℕ) (p : Publisher V) (h : List Dealing) (service : Option ℕ) :
    Prop where
  settings : p.settings.keyframeInterval = interval
  config : p.config = inForce h
  encodes : p.frameIndex = encodes (thisStream h)
  knows : ∀ i, service = some i → p.Knows h i
  warranted : Each (Warranted interval) h

namespace Knows

variable {p : Publisher V} {q : Publisher W} {h : List Dealing} {i : ℕ} {c : CodecConfig}

theorem congr (hp : p.Knows h i) (hconfig : q.config = p.config)
    (hforced : q.forceKeyframe = p.forceKeyframe) : q.Knows h i where
  applied := by
    rw [hconfig]
    exact hp.applied
  forced := by
    rw [hforced]
    exact hp.forced

theorem made (hconfig : p.config = some c) (hforced : p.forceKeyframe = true) :
    p.Knows (h ++ [.create c (some i)]) i := by
  refine ⟨⟨c, hconfig, ?_⟩, iff_of_true hforced ?_⟩
  · simp [configOf_concat, applied?]
  · rw [thisStream_concat rfl, proven_concat]
    simp [tried?]

theorem configured (hp : p.forceKeyframe = true ↔ ¬ Proven (thisStream h) i)
    (hconfig : p.config = some c) : p.Knows (h ++ [.configure c i true]) i := by
  refine ⟨⟨c, hconfig, ?_⟩, hp.trans (not_congr ?_)⟩
  · simp [configOf_concat, applied?]
  · rw [thisStream_concat rfl, proven_concat]
    rfl

theorem took (happlied : ∃ c, p.config = some c ∧ configOf h i = some c)
    (hforced : p.forceKeyframe = false) (f : Frame) (key : Bool) :
    p.Knows (h ++ [.encode f key i true]) i := by
  obtain ⟨c, hconfig, happlied⟩ := happlied
  refine ⟨⟨c, hconfig, ?_⟩, iff_of_false (by simp [hforced]) (not_not_intro ?_)⟩
  · rw [configOf_concat]
    exact happlied
  · rw [thisStream_concat rfl, proven_concat]
    simp [tried?]

/-- An entry that neither gives the encoder a configuration nor says whether it took a frame. -/
theorem concat (hp : p.Knows h i) {d : Dealing} (hstarts : d.isBegin = false)
    (happlied : d.applied? i = none) (htried : d.tried? i = none) : p.Knows (h ++ [d]) i := by
  obtain ⟨c, hconfig, hc⟩ := hp.applied
  refine ⟨⟨c, hconfig, ?_⟩, hp.forced.trans (not_congr ?_)⟩
  · rw [configOf_concat, happlied]
    exact hc
  · rw [thisStream_concat hstarts, proven_concat, htried, Option.none_or]
    rfl

end Knows

namespace Recalls

variable {interval : ℕ} {p : Publisher V} {q : Publisher W} {h : List Dealing}
  {service service' : Option ℕ}

theorem mono (hp : p.Recalls interval h service)
    (hless : ∀ i, service' = some i → service = some i) : p.Recalls interval h service' :=
  ⟨hp.settings, hp.config, hp.encodes, fun i hi => hp.knows i (hless i hi), hp.warranted⟩

theorem congr (hp : p.Recalls interval h service) (hsettings : q.settings = p.settings)
    (hconfig : q.config = p.config) (hforced : q.forceKeyframe = p.forceKeyframe)
    (hindex : q.frameIndex = p.frameIndex) : q.Recalls interval h service where
  settings := (congrArg _ hsettings).trans hp.settings
  config := hconfig.trans hp.config
  encodes := hindex.trans hp.encodes
  knows i hi := (hp.knows i hi).congr hconfig hforced
  warranted := hp.warranted

theorem none (hp : p.Recalls interval h service) : p.Recalls interval h none := hp.mono nofun

/-- An entry that neither begins a stream nor puts a configuration into force. -/
theorem concat (hp : p.Recalls interval h service) {d : Dealing} (hstarts : d.isBegin = false)
    (hsupported : d.supported? = Option.none) (hsettings : q.settings = p.settings)
    (hconfig : q.config = p.config) (hindex : q.frameIndex = p.frameIndex + d.isEncode.toNat)
    (hknows : ∀ i, service' = some i → q.Knows (h ++ [d]) i)
    (hwarranted : Warranted interval h d) : q.Recalls interval (h ++ [d]) service' where
  settings := (congrArg _ hsettings).trans hp.settings
  config := by
    rw [inForce_concat, hsupported, hconfig]
    exact hp.config
  encodes := by rw [thisStream_concat hstarts, encodes_concat, hindex, hp.encodes]
  knows := hknows
  warranted := hp.warranted.concat hwarranted

theorem asked (hp : p.Recalls interval h service) (c : CodecConfig) :
    ({ p with config := some c } : Publisher V).Recalls interval (h ++ [.asked c true])
      Option.none where
  settings := hp.settings
  config := by
    rw [inForce_concat]
    rfl
  encodes := by
    rw [thisStream_concat rfl, encodes_concat]
    exact hp.encodes
  knows := nofun
  warranted := hp.warranted.concat trivial

end Recalls

section Operations

variable {interval : ℕ} {enc : EncoderFamily W} {p : Publisher (Logged W Dealing)}

theorem encoder_of_openEncoder {p : Publisher W} {i : ℕ} (h : p.openEncoder enc = some i) :
    p.encoder = some i ∧ enc.state p.codec i ≠ .closed := by
  unfold openEncoder at h
  rw [Option.filter_eq_some_iff] at h
  exact ⟨h.1, by simpa using h.2⟩

theorem closed_of_openEncoder_eq_none {p : Publisher W} (h : p.openEncoder enc = none) {i : ℕ}
    (hi : p.encoder = some i) : enc.state p.codec i = .closed := by
  unfold openEncoder at h
  rw [Option.filter_eq_none_iff] at h
  simpa using h i hi

theorem recalls_renewEncoder (hp : p.Recalls interval p.codec.calls (p.openEncoder enc.recorded)) :
    (p.renewEncoder enc.recorded).Recalls interval (p.renewEncoder enc.recorded).codec.calls
      (p.renewEncoder enc.recorded).encoder := by
  have hlog : ∀ c, (enc.recorded.create c p.codec).2.calls =
      p.codec.calls ++ [.create c (enc.recorded.create c p.codec).1.toOption] := fun _ => rfl
  have houtcome := p.renewEncoder_outcome enc.recorded
  generalize p.renewEncoder enc.recorded = q at houtcome ⊢
  cases houtcome with
  | kept hopen =>
    rw [hopen] at hp
    exact hp.mono fun j hj => by rw [← hj, (encoder_of_openEncoder hopen).1]
  | unconfigured => exact hp.none.congr rfl rfl rfl rfl
  | @made c i _ _ hset hmade =>
    simp only [hlog, hmade]
    refine hp.concat rfl rfl rfl rfl rfl (fun j hj => ?_) trivial
    obtain rfl := Option.some.inj hj
    exact .made hset rfl
  | @refused c =>
    simp only [hlog]
    exact hp.concat rfl rfl rfl rfl rfl nofun trivial

theorem recalls_initializeEncoder (hp : p.Recalls interval p.codec.calls p.encoder) :
    (p.initializeEncoder enc.recorded).2.Recalls interval
      (p.initializeEncoder enc.recorded).2.codec.calls
      (p.initializeEncoder enc.recorded).2.encoder := by
  have houtcome := p.initializeEncoder_outcome enc.recorded
  generalize p.initializeEncoder enc.recorded = result at houtcome ⊢
  cases houtcome with
  | unready => exact hp
  | ready => exact hp
  | @configured i c hencoder hset hfits =>
    change (enc.configure c i p.codec.world).succeeded = true at hfits
    refine hp.concat (d := .configure c i (enc.configure c i p.codec.world).succeeded)
      rfl rfl rfl rfl rfl (fun j hj => ?_) trivial
    rw [hfits]
    obtain rfl : i = j := Option.some.inj (hencoder.symm.trans hj)
    exact .configured (hp.knows i hencoder).forced hset
  | misfit => exact hp.concat rfl rfl rfl rfl rfl nofun trivial

theorem recalls_encodeWith {i : ℕ} (hencoder : p.encoder = some i)
    (hp : p.Recalls interval p.codec.calls p.encoder) (now : ℕ) (f : Frame) :
    (p.encodeWith enc.recorded i now f).Recalls interval
      (p.encodeWith enc.recorded i now f).codec.calls
      ((p.encodeWith enc.recorded i now f).openEncoder enc.recorded) := by
  have hknows := hp.knows i hencoder
  have hwarranted (ok : Bool) : Warranted interval p.codec.calls
      (.encode f p.wantsKeyframe i ok) := by
    obtain ⟨⟨c, hconfig, happlied⟩, hforced⟩ := hknows
    refine ⟨⟨c, hp.config.symm.trans hconfig, happlied⟩, ?_⟩
    rw [← hforced, ← hp.encodes, ← hp.settings, Nat.dvd_iff_mod_eq_zero]
    unfold wantsKeyframe
    simp [or_comm]
  have hsame : ∀ {q : Publisher (Logged W Dealing)} {j : ℕ},
      q.openEncoder enc.recorded = some j → q.encoder = p.encoder → i = j := fun hj hq =>
    Option.some.inj (hencoder.symm.trans (hq.symm.trans (encoder_of_openEncoder hj).1))
  have hlog : (enc.recorded.encode f p.wantsKeyframe i p.codec).codec.calls = p.codec.calls ++
      [.encode f p.wantsKeyframe i
        (enc.recorded.encode f p.wantsKeyframe i p.codec).succeeded] := rfl
  have houtcome := p.encodeWith_outcome enc.recorded i now f
  generalize p.encodeWith enc.recorded i now f = q at houtcome ⊢
  cases houtcome with
  | broken => exact hp.mono (fun j hj => (encoder_of_openEncoder hj).1) |>.congr rfl rfl rfl rfl
  | taken htaken =>
    rw [htaken] at hlog
    refine hlog ▸ hp.concat rfl rfl rfl rfl rfl (fun j hj => ?_) (hwarranted true)
    obtain rfl := hsame hj rfl
    refine .took ?_ rfl f p.wantsKeyframe
    exact hknows.applied
  | closed hfailed hclosed =>
    rw [hfailed] at hlog
    refine hlog ▸ hp.concat rfl rfl rfl rfl rfl (fun j hj => ?_) (hwarranted false)
    obtain rfl := hsame hj rfl
    exact absurd hclosed (encoder_of_openEncoder hj).2
  | rejected hfailed =>
    rw [hfailed] at hlog
    have hrefused := hknows.concat (d := .encode f p.wantsKeyframe i false) rfl rfl rfl
    refine hlog ▸ hp.concat rfl rfl rfl rfl rfl (fun j hj => ?_) (hwarranted false)
    obtain rfl := hsame hj rfl
    exact ⟨hrefused.applied, hrefused.forced⟩

theorem recalls_submit (hp : p.Recalls interval p.codec.calls (p.openEncoder enc.recorded))
    (now : ℕ) (f : Frame) :
    (p.submit enc.recorded now f).Recalls interval (p.submit enc.recorded now f).codec.calls
      ((p.submit enc.recorded now f).openEncoder enc.recorded) := by
  have hprepared : (p.prepareEncoder enc.recorded).2.Recalls interval
      (p.prepareEncoder enc.recorded).2.codec.calls (p.prepareEncoder enc.recorded).2.encoder :=
    recalls_initializeEncoder (recalls_renewEncoder hp)
  have hopen := hprepared.mono fun i (hi : openEncoder enc.recorded _ = some i) =>
    (encoder_of_openEncoder hi).1
  have houtcome := p.submit_outcome enc.recorded now f
  generalize p.submit enc.recorded now f = q at houtcome ⊢
  cases houtcome with
  | homeless => exact hopen.congr rfl rfl rfl rfl
  | behind => exact hopen.congr rfl rfl rfl rfl
  | offered hready =>
    exact recalls_encodeWith (p.encoder_of_prepareEncoder enc.recorded hready) hprepared now f

theorem recalls_configure {h : List Dealing} {c : CodecConfig}
    (hcalls : p.codec.calls = h ++ [.asked c (enc.recorded.supports p.codec c)])
    (hp : p.Recalls interval h (p.openEncoder enc.recorded)) :
    (p.configure enc.recorded c).2.Recalls interval (p.configure enc.recorded c).2.codec.calls
      ((p.configure enc.recorded c).2.openEncoder enc.recorded) := by
  have hasked : enc.recorded.supports p.codec c = true →
      ({ p with config := some c } : Publisher (Logged W Dealing)).Recalls interval
        p.codec.calls none := by
    intro hknown
    rw [hcalls, hknown]
    exact hp.asked c
  have houtcome := p.configure_outcome enc.recorded c
  generalize p.configure enc.recorded c = result at houtcome ⊢
  cases houtcome with
  | unsupported hunknown =>
    change Recalls interval _ p.codec.calls _
    rw [hcalls, hunknown]
    refine hp.concat rfl rfl rfl rfl rfl (fun i hi => ?_) trivial
    exact ((hp.knows i hi).concat (d := .asked c false) rfl rfl rfl).congr rfl rfl
  | stored hknown hshut =>
    refine (hasked hknown).mono fun i hi => ?_
    obtain ⟨hi, hopen⟩ := encoder_of_openEncoder hi
    exact absurd (closed_of_openEncoder_eq_none hshut hi) hopen
  | @applied i hknown hopen hfits =>
    change (enc.configure c i p.codec.world).succeeded = true at hfits
    refine (hasked hknown).concat (d := .configure c i _) rfl rfl rfl rfl rfl (fun j hj => ?_)
      trivial
    obtain rfl : i = j := Option.some.inj
      ((encoder_of_openEncoder hopen).1.symm.trans (encoder_of_openEncoder hj).1)
    rw [hfits]
    refine .configured ?_ rfl
    rw [hcalls, hknown]
    exact ((hp.knows i hopen).concat (d := .asked c true) rfl rfl rfl).forced
  | @givenUp i _ hknown =>
    exact (hasked hknown).concat (d := .configure c i _) rfl rfl rfl rfl rfl nofun trivial

end Operations

theorem Recalls.submit {interval : ℕ} {enc : EncoderFamily W} {p : Publisher W} {h : List Dealing}
    (hp : p.Recalls interval h (p.openEncoder enc)) (now : ℕ) (f : Frame) :
    (p.submit enc now f).Recalls interval
      (h ++ ((p.recalling []).submit enc.recorded now f).codec.calls)
      ((p.submit enc now f).openEncoder enc) := by
  have hrecalling : (p.recalling h).Recalls interval h (p.openEncoder enc) :=
    hp.congr rfl rfl rfl rfl
  have hsubmitted : ((p.recalling h).submit enc.recorded now f).Recalls interval _ _ :=
    recalls_submit hrecalling now f
  rw [submit_recalling] at hsubmitted
  exact hsubmitted.congr rfl rfl rfl rfl

theorem Recalls.configure {interval : ℕ} {enc : EncoderFamily W} {p : Publisher W}
    {h : List Dealing} (hp : p.Recalls interval h (p.openEncoder enc)) (c : CodecConfig) :
    (p.configure enc c).2.Recalls interval
      (h ++ .asked c (enc.supports p.codec c) ::
        ((p.recalling []).configure enc.recorded c).2.codec.calls)
      ((p.configure enc c).2.openEncoder enc) := by
  have hrecalling : (p.recalling (h ++ [.asked c (enc.supports p.codec c)])).Recalls interval h
      (p.openEncoder enc) := hp.congr rfl rfl rfl rfl
  have hconfigured : ((p.recalling (h ++ [.asked c (enc.supports p.codec c)])).configure
      enc.recorded c).2.Recalls interval _ _ := recalls_configure rfl hrecalling
  rw [configure_recalling, List.append_assoc] at hconfigured
  exact hconfigured.congr rfl rfl rfl rfl

/-- A new stream starts with no encoder that has taken one of its frames. -/
theorem Recalls.beginStream {interval : ℕ} {p : Publisher W} {h : List Dealing} {service : Option ℕ}
    (hp : p.Recalls interval h service) (now : ℕ) :
    (p.beginStream now).Recalls interval (h ++ [.begin]) service where
  settings := hp.settings
  config := by
    rw [inForce_concat]
    exact hp.config
  encodes := by
    rw [thisStream_begin]
    rfl
  knows i hi := by
    obtain ⟨c, hconfig, happlied⟩ := (hp.knows i hi).applied
    refine ⟨⟨c, hconfig, ?_⟩, iff_of_true rfl ?_⟩
    · rw [configOf_concat]
      exact happlied
    · rw [thisStream_begin]
      exact nofun
  warranted := hp.warranted.concat trivial

end Publisher

namespace Broadcast

open Publisher

variable (enc : EncoderFamily W) (link : Link S)

/-- An encoder that is closed when it is disturbed or flushed is closed after it. -/
def Action.KeepsClosed (p : Publisher W) : Action W → Prop
  | .codec run => ∀ i ∈ p.encoder, enc.state p.codec i = .closed →
    enc.state (run p.codec).1 i = .closed
  | .flushEncoder => ∀ i ∈ p.encoder, enc.state p.codec i = .closed →
    enc.state (enc.flush i p.codec).codec i = .closed
  | _ => True

instance (p : Publisher W) (a : Action W) : Decidable (a.KeepsClosed enc p) := by
  unfold Action.KeepsClosed
  cases a <;> infer_instance

/-- The encoder in service stays closed once it is. -/
def KeepsClosed (b : Broadcast W S) : List (Action W) → Prop
  | [] => True
  | a :: rest => a.KeepsClosed enc b.publisher ∧ (b.step enc link a).KeepsClosed rest

instance decidableKeepsClosed (b : Broadcast W S) :
    (actions : List (Action W)) → Decidable (b.KeepsClosed enc link actions)
  | [] => inferInstanceAs (Decidable True)
  | a :: rest =>
    haveI := decidableKeepsClosed (b.step enc link a) rest
    inferInstanceAs (Decidable (_ ∧ _))

variable {enc link} {interval : ℕ}

theorem recalls_step {b : Broadcast W S} {h : List Dealing}
    (hb : b.publisher.Recalls interval h (b.publisher.openEncoder enc)) {a : Action W}
    (ha : a.KeepsClosed enc b.publisher) :
    (b.step enc link a).publisher.Recalls interval (h ++ b.dealings enc a)
      ((b.step enc link a).publisher.openEncoder enc) := by
  -- Nothing is written down of what leaves the encoder and all that is known of it as they were.
  have hsame {q : Publisher W} (hsettings : q.settings = b.publisher.settings)
      (hconfig : q.config = b.publisher.config)
      (hforced : q.forceKeyframe = b.publisher.forceKeyframe)
      (hindex : q.frameIndex = b.publisher.frameIndex)
      (hopen : ∀ i, q.openEncoder enc = some i → b.publisher.openEncoder enc = some i) :
      q.Recalls interval (h ++ []) (q.openEncoder enc) := by
    rw [List.append_nil]
    exact (hb.mono hopen).congr hsettings hconfig hforced hindex
  -- An encoder that is open now was open before.
  have hshut {q : Publisher W} (hencoder : q.encoder = b.publisher.encoder)
      (hclosed : ∀ i ∈ b.publisher.encoder, enc.state b.publisher.codec i = .closed →
        enc.state q.codec i = .closed) (i : ℕ) (hi : q.openEncoder enc = some i) :
      b.publisher.openEncoder enc = some i := by
    obtain ⟨hi, hopen⟩ := encoder_of_openEncoder hi
    rw [hencoder] at hi
    unfold openEncoder
    rw [Option.filter_eq_some_iff]
    exact ⟨hi, by simpa using fun hc => hopen (hclosed i hi hc)⟩
  cases a with
  | begin => exact hb.beginStream b.now
  | configure c => exact hb.configure c
  | submit f => exact hb.submit b.now f
  | handle c =>
    obtain ⟨_, _, _, _, _, _, _, _, heq⟩ := b.handle_footprint link c
    change (b.handle link c).publisher.Recalls interval (h ++ [])
      ((b.handle link c).publisher.openEncoder enc)
    rw [heq]
    exact hsame rfl rfl rfl rfl fun i hi => hi
  | collect count => exact hsame rfl rfl rfl rfl fun i hi => hi
  | lose => exact hsame rfl rfl rfl rfl fun i hi => hi
  | elapse us => exact hsame rfl rfl rfl rfl fun i hi => hi
  | endStream =>
    obtain ⟨_, _, _, heq⟩ := b.send_footprint link .flush
    change (b.send link .flush).publisher.endStream.Recalls interval (h ++ [])
      ((b.send link .flush).publisher.endStream.openEncoder enc)
    rw [heq]
    exact hsame rfl rfl rfl rfl fun i hi => hi
  | flushEncoder =>
    change (b.publisher.flushEncoder enc).Recalls interval (h ++ [])
      ((b.publisher.flushEncoder enc).openEncoder enc)
    unfold flushEncoder
    split
    · exact hsame rfl rfl rfl rfl fun i hi => hi
    · rename_i i hi
      refine hsame rfl rfl rfl rfl (hshut rfl fun j hj hc => ?_)
      obtain rfl : i = j := Option.some.inj (hi.symm.trans hj)
      exact ha i hi hc
  | codec run => exact hsame rfl rfl rfl rfl (hshut rfl ha)

theorem recalls_run {b : Broadcast W S} {h : List Dealing}
    (hb : b.publisher.Recalls interval h (b.publisher.openEncoder enc)) {actions : List (Action W)}
    (hactions : b.KeepsClosed enc link actions) :
    (b.run enc link actions).publisher.Recalls interval (h ++ b.history enc link actions)
      ((b.run enc link actions).publisher.openEncoder enc) := by
  induction actions generalizing b h with
  | nil =>
    rw [history, List.append_nil]
    exact hb
  | cons a rest ih =>
    obtain ⟨ha, hrest⟩ := hactions
    rw [history, ← List.append_assoc]
    exact ih (recalls_step hb ha) hrest

/-- A new publisher recalls all of its dealings, whatever its encoders do. -/
theorem recalls_history (settings : PublishSettings) (codec : W) (clock : CaptureClock) (now : ℕ)
    (s : S) {actions : List (Action W)} :
    let fresh : Broadcast W S := ⟨.new settings codec clock now, s, now⟩
    fresh.KeepsClosed enc link actions →
      (fresh.run enc link actions).publisher.Recalls settings.keyframeInterval
        (fresh.history enc link actions)
        ((fresh.run enc link actions).publisher.openEncoder enc) := by
  intro fresh hactions
  have hnew : fresh.publisher.Recalls settings.keyframeInterval []
      (fresh.publisher.openEncoder enc) := {
    settings := rfl
    config := rfl
    encodes := rfl
    knows := nofun
    warranted := fun before d after heq => absurd heq.symm (by simp) }
  exact recalls_run hnew hactions

end Broadcast

end LiveMedia
