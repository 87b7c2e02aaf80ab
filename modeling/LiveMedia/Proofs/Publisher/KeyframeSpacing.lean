import LiveMedia.Codec.Scripted
import LiveMedia.Codec.Simulated
import LiveMedia.Proofs.Publisher.EncoderHistory
import LiveMedia.Proofs.Publisher.StreamCalls

/-!
# How far key chunks are apart

Of as many consecutive frames of a stream as the interval says, one is asked for as a key chunk. The
turn of a call passes even when the call fails. A key chunk whose call fails is asked for again if
the encoder is closed by the failure; an encoder that refuses it and stays open goes on with delta
chunks until the next turn comes.
-/

namespace LiveMedia
set_option autoImplicit false

variable {V W S : Type}

namespace Dealing

/-- Whether a frame that was taken had been asked for as a key chunk. -/
def taken? : Dealing → Option Bool
  | encode _ key _ true => some key
  | _ => none

/-- The encoder that did not take a frame asked for as a key chunk. -/
def refusedKey? : Dealing → Option ℕ
  | encode _ true i false => some i
  | _ => none

/-- The frames that were taken, each by whether it had been asked for as a key chunk. -/
def keys (h : List Dealing) : List Bool := h.filterMap taken?

theorem keys_append (first second : List Dealing) :
    keys (first ++ second) = keys first ++ keys second := List.filterMap_append

theorem taken?_of_not_encode {d : Dealing} (h : d.isEncode = false) : d.taken? = none := by
  cases d with
  | encode => cases h
  | _ => rfl

theorem keys_eq_nil {h : List Dealing} (hnone : ∀ d ∈ h, d.isEncode = false) : keys h = [] :=
  List.filterMap_eq_nil_iff.mpr fun d hd => taken?_of_not_encode (hnone d hd)

end Dealing

open Dealing

namespace Publisher

/-- So many frames may have been taken without a key chunk: fewer than the interval, and while no
key chunk is due for another reason, no more than calls have been made since the last turn. -/
structure Since (interval : ℕ) (p : Publisher V) (n : ℕ) : Prop where
  settings : p.settings.keyframeInterval = interval
  few : n < interval
  turn : p.forceKeyframe = false → n ≤ (p.frameIndex + interval - 1) % interval

/-- A call that has no turn comes one later after the last turn than the call before it. -/
theorem mod_succ_of_not_turn {interval index : ℕ} (hpos : 0 < interval)
    (hturn : index % interval ≠ 0) :
    (index + interval - 1) % interval + 1 = index % interval := by
  obtain ⟨k, rfl⟩ : ∃ k, index = k + 1 := Nat.exists_eq_succ_of_ne_zero fun h => by
    rw [h, Nat.zero_mod] at hturn
    exact hturn rfl
  have hback : k + 1 + interval - 1 = k + interval := by omega
  have hnext : (k % interval + 1) % interval = (k + 1) % interval := Nat.mod_add_mod k interval 1
  have hne : k % interval + 1 ≠ interval := fun heq => hturn (by
    rw [← hnext, heq, Nat.mod_self])
  have hlt := Nat.mod_lt k hpos
  rw [hback, Nat.add_mod_right, ← hnext]
  exact (Nat.mod_eq_of_lt (by omega)).symm

section Operations

variable {interval n : ℕ} {p : Publisher V} {q : Publisher W}

theorem Since.congr (hp : p.Since interval n) (hsettings : q.settings = p.settings)
    (hindex : q.frameIndex = p.frameIndex)
    (hforced : q.forceKeyframe = p.forceKeyframe ∨ q.forceKeyframe = true) :
    q.Since interval n where
  settings := (congrArg _ hsettings).trans hp.settings
  few := hp.few
  turn hq := by
    rw [hindex]
    refine hp.turn ?_
    rcases hforced with hsame | htrue
    · exact hsame ▸ hq
    · exact absurd (htrue.symm.trans hq) (by decide)

/-- While no key chunk was due, calls that are made count their turn. -/
theorem Since.called (hp : p.Since interval n) (hwants : p.wantsKeyframe = false)
    (hsettings : q.settings = p.settings) (hindex : q.frameIndex = p.frameIndex + 1) {more : ℕ}
    (hmore : more ≤ 1) : q.Since interval (n + more) := by
  unfold wantsKeyframe at hwants
  obtain ⟨hforced, hturn⟩ := Bool.or_eq_false_iff.mp hwants
  have hturn : p.frameIndex % interval ≠ 0 := by
    rw [hp.settings] at hturn
    simpa using hturn
  have hnow := mod_succ_of_not_turn (Nat.zero_lt_of_lt hp.few) hturn
  have hless := hp.turn hforced
  have hlt : p.frameIndex % interval < interval :=
    Nat.mod_lt _ (Nat.zero_lt_of_lt hp.few)
  refine ⟨(congrArg _ hsettings).trans hp.settings, by omega, fun _ => ?_⟩
  have hindex : q.frameIndex + interval - 1 = p.frameIndex + interval := by omega
  rw [hindex, Nat.add_mod_right]
  omega

end Operations

section Logging

variable {enc : EncoderFamily W} {interval n : ℕ} {p : Publisher (Logged W Dealing)}

/-- What is done to an operation's publisher before a frame comes to its encoder. -/
structure Unspent (p q : Publisher (Logged W Dealing)) : Prop where
  settings : q.settings = p.settings
  index : q.frameIndex = p.frameIndex
  forced : q.forceKeyframe = p.forceKeyframe ∨ q.forceKeyframe = true
  calls : ∃ ds, q.codec.calls = p.codec.calls ++ ds ∧ ∀ d ∈ ds, d.isEncode = false

namespace Unspent

variable {q r : Publisher (Logged W Dealing)}

theorem silent (hsettings : q.settings = p.settings) (hindex : q.frameIndex = p.frameIndex)
    (hforced : q.forceKeyframe = p.forceKeyframe) (hcodec : q.codec = p.codec) : Unspent p q :=
  ⟨hsettings, hindex, .inl hforced, [], by rw [hcodec, List.append_nil], nofun⟩

theorem refl (p : Publisher (Logged W Dealing)) : Unspent p p := .silent rfl rfl rfl rfl

theorem trans (hpq : Unspent p q) (hqr : Unspent q r) : Unspent p r where
  settings := hqr.settings.trans hpq.settings
  index := hqr.index.trans hpq.index
  forced := hqr.forced.elim (fun heq => heq ▸ hpq.forced) .inr
  calls := by
    obtain ⟨first, hfirst, hnone⟩ := hpq.calls
    obtain ⟨second, hsecond, hnone'⟩ := hqr.calls
    refine ⟨first ++ second, by rw [hsecond, hfirst, List.append_assoc], fun d hd => ?_⟩
    exact (List.mem_append.mp hd).elim (hnone d) (hnone' d)

theorem of_call {d : Dealing} (hsettings : q.settings = p.settings)
    (hindex : q.frameIndex = p.frameIndex)
    (hforced : q.forceKeyframe = p.forceKeyframe ∨ q.forceKeyframe = true)
    (hcalls : q.codec.calls = p.codec.calls ++ [d]) (hd : d.isEncode = false) : Unspent p q :=
  ⟨hsettings, hindex, hforced, [d], hcalls, fun _ he => List.mem_singleton.mp he ▸ hd⟩

end Unspent

theorem unspent_renewEncoder (enc : EncoderFamily W) (p : Publisher (Logged W Dealing)) :
    Unspent p (p.renewEncoder enc.recorded) := by
  have houtcome := p.renewEncoder_outcome enc.recorded
  generalize p.renewEncoder enc.recorded = q at houtcome ⊢
  cases houtcome with
  | kept => exact .refl p
  | unconfigured => exact .silent rfl rfl rfl rfl
  | made => exact .of_call rfl rfl (.inr rfl) rfl rfl
  | refused => exact .of_call rfl rfl (.inl rfl) rfl rfl

theorem unspent_initializeEncoder (enc : EncoderFamily W) (p : Publisher (Logged W Dealing)) :
    Unspent p (p.initializeEncoder enc.recorded).2 := by
  have houtcome := p.initializeEncoder_outcome enc.recorded
  generalize p.initializeEncoder enc.recorded = result at houtcome ⊢
  cases houtcome with
  | unready => exact .refl p
  | ready => exact .refl p
  | configured => exact .of_call rfl rfl (.inl rfl) rfl rfl
  | misfit => exact .of_call rfl rfl (.inl rfl) rfl rfl

theorem unspent_prepareEncoder (enc : EncoderFamily W) (p : Publisher (Logged W Dealing)) :
    Unspent p (p.prepareEncoder enc.recorded).2 :=
  (unspent_renewEncoder enc p).trans (unspent_initializeEncoder enc _)

theorem unspent_configure (enc : EncoderFamily W) (p : Publisher (Logged W Dealing))
    (c : CodecConfig) : Unspent p (p.configure enc.recorded c).2 := by
  have houtcome := p.configure_outcome enc.recorded c
  generalize p.configure enc.recorded c = result at houtcome ⊢
  cases houtcome with
  | unsupported => exact .silent rfl rfl rfl rfl
  | stored => exact .silent rfl rfl rfl rfl
  | applied => exact .of_call rfl rfl (.inl rfl) rfl rfl
  | givenUp => exact .of_call rfl rfl (.inr rfl) rfl rfl

theorem Unspent.since {q : Publisher (Logged W Dealing)} (hpq : Unspent p q)
    (hp : p.Since interval n) : q.Since interval n :=
  hp.congr hpq.settings hpq.index hpq.forced

/-- What is left of a call for a frame: its entry in the log, and whether a key chunk is due. -/
structure Asked (enc : EncoderFamily W) (p q : Publisher (Logged W Dealing)) (f : Frame) (i : ℕ)
    (ok : Bool) : Prop where
  settings : q.settings = p.settings
  index : q.frameIndex = p.frameIndex + 1
  calls : q.codec.calls = p.codec.calls ++ [.encode f p.wantsKeyframe i ok]
  refused : ok = false → enc.recorded.state q.codec i = .closed → q.forceKeyframe = true

theorem asked_encodeWith (enc : EncoderFamily W) {p : Publisher (Logged W Dealing)}
    (hpaced : p.settings.keyframeInterval ≠ 0) (i now : ℕ) (f : Frame) :
    ∃ ok, Asked enc p (p.encodeWith enc.recorded i now f) f i ok := by
  have hlog : (enc.recorded.encode f p.wantsKeyframe i p.codec).codec.calls = p.codec.calls ++
      [.encode f p.wantsKeyframe i
        (enc.recorded.encode f p.wantsKeyframe i p.codec).succeeded] := rfl
  have houtcome := p.encodeWith_outcome enc.recorded i now f
  generalize p.encodeWith enc.recorded i now f = q at houtcome ⊢
  cases houtcome with
  | broken hnever => exact absurd hnever hpaced
  | taken htaken =>
    rw [htaken] at hlog
    exact ⟨true, rfl, rfl, hlog, nofun⟩
  | closed hfailed =>
    rw [hfailed] at hlog
    exact ⟨false, rfl, rfl, hlog, fun _ _ => rfl⟩
  | rejected hfailed hopen =>
    rw [hfailed] at hlog
    exact ⟨false, rfl, rfl, hlog, fun _ hclosed => absurd hclosed hopen⟩

/-- No key chunk is taken in a call, and one that is refused closes its encoder: then the call
counts, or a key chunk is due. -/
theorem Asked.since {q : Publisher (Logged W Dealing)} {f : Frame} {i : ℕ} {ok : Bool}
    (h : Asked enc p q f i ok) (hp : p.Since interval n)
    (htaken : Dealing.taken? (.encode f p.wantsKeyframe i ok) ≠ some true)
    (hrefused : ∀ j ∈ Dealing.refusedKey? (.encode f p.wantsKeyframe i ok),
      enc.recorded.state q.codec j = .closed) :
    q.Since interval (n + (keys [.encode f p.wantsKeyframe i ok]).length) := by
  cases hkey : p.wantsKeyframe with
  | false =>
    refine hp.called hkey h.settings h.index ?_
    cases ok with
    | false => exact Nat.zero_le 1
    | true => exact Nat.le_refl 1
  | true =>
    rw [hkey] at htaken hrefused
    cases ok with
    | true => exact absurd rfl htaken
    | false =>
      have hdue : q.forceKeyframe = true := h.refused rfl (hrefused i rfl)
      exact ⟨(congrArg _ h.settings).trans hp.settings, hp.few,
        fun hnot => absurd (hdue.symm.trans hnot) (by decide)⟩

theorem since_submit (hp : p.Since interval n) (hfresh : keys p.codec.calls = [])
    {now : ℕ} {f : Frame} (hkeys : true ∉ keys (p.submit enc.recorded now f).codec.calls)
    (hkept : ∀ i ∈ (p.submit enc.recorded now f).codec.calls.filterMap refusedKey?,
      enc.recorded.state (p.submit enc.recorded now f).codec i = .closed) :
    (p.submit enc.recorded now f).Since interval
      (n + (keys (p.submit enc.recorded now f).codec.calls).length) := by
  have hprepared := unspent_prepareEncoder enc p
  have hready : (p.prepareEncoder enc.recorded).2.Since interval n := hprepared.since hp
  obtain ⟨ds, hcalls, hnone⟩ := hprepared.calls
  have hunspent : keys (p.prepareEncoder enc.recorded).2.codec.calls = [] := by
    rw [hcalls, keys_append, hfresh, keys_eq_nil hnone]
    rfl
  have houtcome := p.submit_outcome enc.recorded now f
  generalize p.prepareEncoder enc.recorded = prepared at *
  obtain ⟨ready, q⟩ := prepared
  generalize p.submit enc.recorded now f = r at houtcome hkeys hkept ⊢
  -- A frame that is given up leaves everything as it is.
  have hgiven {r : Publisher (Logged W Dealing)} (hsettings : r.settings = q.settings)
      (hindex : r.frameIndex = q.frameIndex) (hforced : r.forceKeyframe = q.forceKeyframe)
      (hcodec : r.codec = q.codec) : r.Since interval (n + (keys r.codec.calls).length) := by
    rw [hcodec, hunspent]
    exact hready.congr hsettings hindex (.inl hforced)
  cases houtcome with
  | homeless => exact hgiven rfl rfl rfl rfl
  | behind => exact hgiven rfl rfl rfl rfl
  | @offered i =>
    have hpaced : q.settings.keyframeInterval ≠ 0 := by
      rw [hready.settings]
      exact Nat.ne_of_gt (Nat.zero_lt_of_lt hp.few)
    obtain ⟨ok, hasked⟩ := asked_encodeWith enc hpaced i now f
    rw [hasked.calls, keys_append, hunspent, List.nil_append] at hkeys ⊢
    refine hasked.since hready (fun htaken => hkeys ?_) fun j hj => hkept j ?_
    · unfold keys
      rw [List.filterMap_cons_some htaken]
      exact List.mem_cons_self
    · rw [hasked.calls, List.filterMap_append]
      exact List.mem_append_right _ (List.mem_filterMap.mpr ⟨_, List.mem_singleton_self _, hj⟩)

end Logging

end Publisher

namespace Broadcast

open Publisher

section Stretch

variable (enc : EncoderFamily W) (link : Link S)

/-- An encoder that refuses a frame asked for as a key chunk is closed after the step. -/
def Action.ClosesOnRefusal (b : Broadcast W S) (a : Action W) : Prop :=
  ∀ i ∈ (b.dealings enc a).filterMap refusedKey?,
    enc.state (b.step enc link a).publisher.codec i = .closed

instance (b : Broadcast W S) (a : Action W) : Decidable (a.ClosesOnRefusal enc link b) :=
  inferInstanceAs (Decidable (∀ i ∈ _, _))

/-- No key chunk is refused by an encoder that stays open. -/
def ClosesOnRefusal (b : Broadcast W S) : List (Action W) → Prop
  | [] => True
  | a :: rest => a.ClosesOnRefusal enc link b ∧ (b.step enc link a).ClosesOnRefusal rest

instance decidableClosesOnRefusal (b : Broadcast W S) :
    (actions : List (Action W)) → Decidable (b.ClosesOnRefusal enc link actions)
  | [] => inferInstanceAs (Decidable True)
  | a :: rest =>
    haveI := decidableClosesOnRefusal (b.step enc link a) rest
    inferInstanceAs (Decidable (_ ∧ _))

end Stretch

variable {enc : EncoderFamily W} {link : Link S} {interval n : ℕ}

theorem since_step {b : Broadcast W S} (hb : b.publisher.Since interval n) {a : Action W}
    (hstream : a.isBegin = false) (hcloses : a.ClosesOnRefusal enc link b)
    (hkeys : true ∉ keys (b.dealings enc a)) :
    (b.step enc link a).publisher.Since interval (n + (keys (b.dealings enc a)).length) := by
  -- Nothing is taken in a step that does not come to an encoder.
  have hsame {q : Publisher W} (hsettings : q.settings = b.publisher.settings)
      (hindex : q.frameIndex = b.publisher.frameIndex)
      (hforced : q.forceKeyframe = b.publisher.forceKeyframe) :
      q.Since interval (n + 0) := hb.congr hsettings hindex (.inl hforced)
  have hlogged : (b.publisher.recalling []).Since interval n := hb.congr rfl rfl (.inl rfl)
  cases a with
  | begin => cases hstream
  | submit f =>
    have hworld := b.publisher.submit_recalling enc [] b.now f
    have hlog : ((b.publisher.recalling []).submit enc.recorded b.now f).Since interval
        (n + (keys (b.dealings enc (.submit f))).length) :=
      since_submit hlogged rfl hkeys fun i hi => by
        rw [hworld]
        exact hcloses i hi
    rw [hworld] at hlog
    exact hlog.congr rfl rfl (.inl rfl)
  | configure c =>
    have hunspent := unspent_configure enc (b.publisher.recalling []) c
    obtain ⟨ds, hcalls, hnone⟩ := hunspent.calls
    have hnokeys : keys (b.dealings enc (.configure c)) = [] := by
      refine keys_eq_nil fun d hd => ?_
      rcases List.mem_cons.mp hd with rfl | hd
      · rfl
      · rw [hcalls] at hd
        exact hnone d hd
    rw [hnokeys]
    have hlog := hunspent.since hlogged
    rw [configure_recalling] at hlog
    exact hlog.congr rfl rfl (.inl rfl)
  | handle c =>
    obtain ⟨_, _, _, _, _, _, _, _, heq⟩ := b.handle_footprint link c
    change (b.handle link c).publisher.Since interval (n + 0)
    rw [heq]
    exact hsame rfl rfl rfl
  | collect count => exact hsame rfl rfl rfl
  | flushEncoder =>
    obtain ⟨_, _, heq⟩ := b.publisher.flushEncoder_footprint enc
    change (b.publisher.flushEncoder enc).Since interval (n + 0)
    rw [heq]
    exact hsame rfl rfl rfl
  | codec run => exact hsame rfl rfl rfl
  | endStream =>
    obtain ⟨_, _, _, heq⟩ := b.send_footprint link .flush
    change (b.send link .flush).publisher.endStream.Since interval (n + 0)
    rw [heq]
    exact hsame rfl rfl rfl
  | lose => exact hsame rfl rfl rfl
  | elapse us => exact hsame rfl rfl rfl

theorem since_run {b : Broadcast W S} (hb : b.publisher.Since interval n)
    {stretch : List (Action W)} (hstream : ∀ a ∈ stretch, a.isBegin = false)
    (hcloses : b.ClosesOnRefusal enc link stretch)
    (hkeys : true ∉ keys (b.history enc link stretch)) :
    (b.run enc link stretch).publisher.Since interval
      (n + (keys (b.history enc link stretch)).length) := by
  induction stretch generalizing b n with
  | nil => exact hb
  | cons a rest ih =>
    obtain ⟨hfirst, hrest⟩ := hcloses
    rw [history, keys_append] at hkeys ⊢
    rw [List.length_append, ← Nat.add_assoc]
    have hstep : (b.step enc link a).publisher.Since interval _ :=
      since_step hb (hstream a List.mem_cons_self) hfirst fun h =>
        hkeys (List.mem_append_left _ h)
    exact ih hstep (fun a' ha' => hstream a' (List.mem_cons_of_mem a ha')) hrest
      fun h => hkeys (List.mem_append_right _ h)

/-- In every stretch of a stream, on any encoders and whatever fails: if as many frames are taken as
the interval says, one of them was asked for as a key chunk, unless in this stretch a key chunk was
refused by an encoder that stayed open. -/
theorem keyframe_spacing (enc : EncoderFamily W) (link : Link S) (settings : PublishSettings)
    (codec : W) (clock : CaptureClock) (now : ℕ) (s : S) (before stretch : List (Action W))
    (hinterval : 0 < settings.keyframeInterval) :
    let fresh : Broadcast W S := ⟨.new settings codec clock now, s, now⟩
    let b := fresh.run enc link before
    (∀ a ∈ stretch, a.isBegin = false) → b.ClosesOnRefusal enc link stretch →
      settings.keyframeInterval ≤ (keys (b.history enc link stretch)).length →
      true ∈ keys (b.history enc link stretch) := by
  intro fresh b hstream hcloses hmany
  have hsettings : b.publisher.settings = settings := (fresh.numbering_run enc link before).1
  have hstart : b.publisher.Since settings.keyframeInterval 0 :=
    ⟨congrArg _ hsettings, hinterval, fun _ => Nat.zero_le _⟩
  by_contra hnone
  have hend := (since_run hstart hstream hcloses hnone).few
  omega

end Broadcast

namespace Refusing

def config : CodecConfig := { codec := "avc1", bitrate := 0, framerate := 30 }

def link : Link Unit := ⟨fun _ s => (.ok (), s)⟩

def frame {W : Type} (t : Int64) : Broadcast.Action W := .submit ⟨t, none, 1⟩

def start {W : Type} (interval : ℕ) (codec : W) : Broadcast W Unit :=
  ⟨.new ⟨.video, 1, interval, 2⟩ codec (.startingAt 0) 0, (), 0⟩

/-- Of the frames that follow in the stream the third has a turn, and its encoder fails. -/
def stretch : List (Broadcast.Action SimulatedCodec) :=
  [frame 1, frame 2, .codec fun w => ({ w with failNext := true }, []), frame 3, frame 4, frame 5]

/-- Of the frames that follow in the stream the second has a turn, and its encoder refuses it. -/
def refusal : List (Broadcast.Action ScriptedCodec) :=
  [frame 1, .codec fun w => ({ w with codecFails := 1 }, []), frame 2, frame 3]

end Refusing

open Refusing in
theorem closed_encoder_spacing :
    let enc := SimulatedCodec.encoders .video
    let b := (start 3 {}).run enc link [.configure config, .begin, frame 0]
    (∀ a ∈ stretch, a.isBegin = false) ∧ b.ClosesOnRefusal enc link stretch ∧
    true ∈ keys (b.history enc link stretch) ∧
    keys (b.history enc link stretch) = [false, false, true, false] := by
  intro enc b
  have hstream : ∀ a ∈ stretch, a.isBegin = false := by decide +kernel
  have hcloses : b.ClosesOnRefusal enc link stretch := by decide +kernel
  have hkeys : keys (b.history enc link stretch) = [false, false, true, false] := by decide +kernel
  have hmany : 3 ≤ (keys (b.history enc link stretch)).length := by
    rw [hkeys]
    decide
  refine ⟨hstream, hcloses, ?_, hkeys⟩
  exact Broadcast.keyframe_spacing enc link ⟨.video, 1, 3, 2⟩ {} (.startingAt 0) 0 ()
    [.configure config, .begin, frame 0] stretch (by decide) hstream hcloses hmany

open Refusing in
/-- An encoder that refuses a key chunk and stays open takes two delta chunks one after the other,
where one frame in two is to be a key frame. -/
theorem refused_keyframe_not_repeated :
    ¬ ∀ before stretch : List (Broadcast.Action ScriptedCodec),
      let b := (start 2 {}).run ScriptedCodec.encoders link before
      (∀ a ∈ stretch, a.isBegin = false) →
      2 ≤ (keys (b.history ScriptedCodec.encoders link stretch)).length →
      true ∈ keys (b.history ScriptedCodec.encoders link stretch) := by
  intro hall
  have htwo : keys (((start 2 {}).run ScriptedCodec.encoders link
      [.configure config, .begin, frame 0]).history ScriptedCodec.encoders link refusal) =
      [false, false] := by decide +kernel
  have htrue := hall [.configure config, .begin, frame 0] refusal (by decide +kernel) (by
    rw [htwo]
    decide)
  rw [htwo] at htrue
  exact absurd htrue (by decide)

end LiveMedia
