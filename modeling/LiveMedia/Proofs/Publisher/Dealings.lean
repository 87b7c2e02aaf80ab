import Mathlib.Data.List.DropRight
import Mathlib.Data.Nat.Notation
import LiveMedia.Proofs.Publisher.Run

/-!
# What passes between a publisher and its encoders

The history of a publisher is read off the calls that it makes on encoders with a log, together
with the beginnings of its streams and the configurations that are passed to it. Which configuration
is in force, which one an encoder has, and whether an encoder has taken a frame in this stream are
questions about the history alone.
-/

namespace LiveMedia
set_option autoImplicit false

variable {V W S : Type}

inductive Dealing where
  | begin
  /-- A configuration is passed to the publisher, and the encoders know it or do not. -/
  | asked (c : CodecConfig) (supported : Bool)
  /-- A new instance, if it could be made. -/
  | create (c : CodecConfig) (made : Option ℕ)
  | configure (c : CodecConfig) (i : ℕ) (succeeded : Bool)
  | encode (f : Frame) (key : Bool) (i : ℕ) (succeeded : Bool)

namespace Dealing

def isBegin : Dealing → Bool
  | begin => true
  | _ => false

def isEncode : Dealing → Bool
  | encode .. => true
  | _ => false

def supported? : Dealing → Option CodecConfig
  | asked c true => some c
  | _ => none

/-- The configuration that the encoder numbered `i` is given. -/
def applied? (i : ℕ) : Dealing → Option CodecConfig
  | create c (some j) => if j = i then some c else none
  | configure c j true => if j = i then some c else none
  | _ => none

/-- Whether the encoder numbered `i` has now taken a frame, or was made and has not. -/
def tried? (i : ℕ) : Dealing → Option Bool
  | create _ (some j) => if j = i then some false else none
  | encode _ _ j true => if j = i then some true else none
  | _ => none

section Latest

variable {α : Type}

/-- The last answer that a history gives. -/
def latest (answer : Dealing → Option α) (h : List Dealing) : Option α :=
  (h.filterMap answer).getLast?

theorem latest_concat (answer : Dealing → Option α) (h : List Dealing) (d : Dealing) :
    latest answer (h ++ [d]) = (answer d).or (latest answer h) := by
  unfold latest
  rw [List.filterMap_append, List.getLast?_append]
  cases hd : answer d with
  | none => simp [hd]
  | some a => simp [hd]

end Latest

/-- The configuration most recently passed to the publisher that the encoders knew. -/
def inForce (h : List Dealing) : Option CodecConfig := latest supported? h

/-- The last configuration of an encoder, from its creation or later. -/
def configOf (h : List Dealing) (i : ℕ) : Option CodecConfig := latest (applied? i) h

/-- What has passed since the last stream began. -/
def thisStream (h : List Dealing) : List Dealing := h.rtakeWhile fun d => !d.isBegin

def encodes (h : List Dealing) : ℕ := h.countP isEncode

/-- The encoder has taken a frame since it was made. -/
def Proven (h : List Dealing) (i : ℕ) : Prop := latest (tried? i) h = some true

instance (h : List Dealing) (i : ℕ) : Decidable (Proven h i) := by
  unfold Proven
  infer_instance

theorem inForce_concat (h : List Dealing) (d : Dealing) :
    inForce (h ++ [d]) = d.supported?.or (inForce h) := latest_concat supported? h d

theorem configOf_concat (h : List Dealing) (d : Dealing) (i : ℕ) :
    configOf (h ++ [d]) i = (d.applied? i).or (configOf h i) := latest_concat (applied? i) h d

/-- The last entry that says whether the encoder has taken a frame decides. -/
theorem proven_concat (h : List Dealing) (d : Dealing) (i : ℕ) :
    Proven (h ++ [d]) i ↔ (d.tried? i).or (latest (tried? i) h) = some true := by
  unfold Proven
  rw [latest_concat]

theorem thisStream_begin (h : List Dealing) : thisStream (h ++ [begin]) = [] :=
  List.rtakeWhile_concat_neg _ _ _ (by decide)

theorem thisStream_concat {d : Dealing} (hd : d.isBegin = false) (h : List Dealing) :
    thisStream (h ++ [d]) = thisStream h ++ [d] :=
  List.rtakeWhile_concat_pos _ _ _ (by simp [hd])

theorem encodes_concat (h : List Dealing) (d : Dealing) :
    encodes (h ++ [d]) = encodes h + d.isEncode.toNat := by
  unfold encodes
  rw [List.countP_append, List.countP_singleton]
  cases d.isEncode <;> rfl

/-- Each entry is as `P` says of what stands before it. -/
def Each (P : List Dealing → Dealing → Prop) (h : List Dealing) : Prop :=
  ∀ before d after, h = before ++ d :: after → P before d

theorem Each.concat {P : List Dealing → Dealing → Prop} {h : List Dealing} {d : Dealing}
    (hfirst : Each P h) (hd : P h d) : Each P (h ++ [d]) := by
  intro before e after heq
  rcases List.eq_nil_or_concat after with rfl | ⟨rest, last, rfl⟩
  · obtain ⟨rfl, hlast⟩ := List.append_inj' heq rfl
    obtain ⟨rfl, -⟩ := List.cons.inj hlast
    exact hd
  · rw [List.concat_eq_append, ← List.cons_append, ← List.append_assoc] at heq
    obtain ⟨rfl, -⟩ := List.append_inj' heq rfl
    exact hfirst before e rest rfl

end Dealing

namespace EncoderFamily

def recorded (enc : EncoderFamily W) : EncoderFamily (Logged W Dealing) where
  supports l c := enc.supports l.world c
  create c l :=
    let (made, world) := enc.create c l.world
    (made, l.note (.create c made.toOption) world)
  state l i := enc.state l.world i
  queueSize l i := enc.queueSize l.world i
  configure c i l :=
    let reply := enc.configure c i l.world
    ⟨reply.verdict, reply.emitted, l.note (.configure c i reply.succeeded) reply.codec⟩
  encode f key i l :=
    let reply := enc.encode f key i l.world
    ⟨reply.verdict, reply.emitted, l.note (.encode f key i reply.succeeded) reply.codec⟩
  flush i l :=
    let reply := enc.flush i l.world
    ⟨reply.verdict, reply.emitted, ⟨reply.codec, l.calls⟩⟩

/-- One family acts like another on the states that `f` makes of its own. -/
structure Follows (big : EncoderFamily V) (small : EncoderFamily W) (f : V → W) : Prop where
  supports : ∀ v c, small.supports (f v) c = big.supports v c
  create : ∀ c v, small.create c (f v) = ((big.create c v).1, f (big.create c v).2)
  state : ∀ v i, small.state (f v) i = big.state v i
  queueSize : ∀ v i, small.queueSize (f v) i = big.queueSize v i
  configure : ∀ c i v, small.configure c i (f v) = (big.configure c i v).mapCodec f
  encode : ∀ frame key i v, small.encode frame key i (f v) = (big.encode frame key i v).mapCodec f

theorem recorded_follows (enc : EncoderFamily W) : enc.recorded.Follows enc Logged.world where
  supports _ _ := rfl
  create _ _ := rfl
  state _ _ := rfl
  queueSize _ _ := rfl
  configure _ _ _ := rfl
  encode _ _ _ _ := rfl

/-- What stands in the log already has no part in what comes after it. -/
theorem recorded_follows_after (enc : EncoderFamily W) (old : List Dealing) :
    enc.recorded.Follows enc.recorded fun l => ⟨l.world, old ++ l.calls⟩ where
  supports _ _ := rfl
  create c l := by
    unfold recorded Logged.note
    simp only [List.append_assoc]
  state _ _ := rfl
  queueSize _ _ := rfl
  configure c i l := by
    unfold recorded Logged.note Reply.mapCodec
    simp only [List.append_assoc]
  encode f key i l := by
    unfold recorded Logged.note Reply.mapCodec
    simp only [List.append_assoc]

end EncoderFamily

namespace Publisher

def mapCodec (f : V → W) (p : Publisher V) : Publisher W := { p with codec := f p.codec }

section Following

variable {big : EncoderFamily V} {small : EncoderFamily W} {f : V → W}

theorem openEncoder_mapCodec (h : big.Follows small f) (p : Publisher V) :
    (p.mapCodec f).openEncoder small = p.openEncoder big := by
  unfold openEncoder mapCodec
  simp only [h.state]

theorem configure_mapCodec (h : big.Follows small f) (p : Publisher V) (c : CodecConfig) :
    (p.mapCodec f).configure small c =
      ((p.configure big c).1, (p.configure big c).2.mapCodec f) := by
  unfold configure
  rw [openEncoder_mapCodec h]
  unfold mapCodec
  simp only [h.supports]
  split
  · rfl
  · split
    · rfl
    · simp only [h.configure, Reply.mapCodec]
      split <;> rfl

theorem renewEncoder_mapCodec (h : big.Follows small f) (p : Publisher V) :
    (p.mapCodec f).renewEncoder small = (p.renewEncoder big).mapCodec f := by
  have hreset : (if (p.mapCodec f).encoder.isSome then { p.mapCodec f with
        encoder := none, stats.codecResets := (p.mapCodec f).stats.codecResets + 1 }
      else p.mapCodec f) = (if p.encoder.isSome then { p with
        encoder := none, stats.codecResets := p.stats.codecResets + 1 } else p).mapCodec f := by
    change (if p.encoder.isSome then _ else _) = _
    split <;> rfl
  unfold renewEncoder
  rw [openEncoder_mapCodec h]
  split
  · rfl
  · simp only [hreset]
    generalize (if p.encoder.isSome then { p with
      encoder := none, stats.codecResets := p.stats.codecResets + 1 } else p) = q
    unfold mapCodec
    simp only [h.create]
    split
    · rfl
    · rename_i c _
      rcases big.create c q.codec with ⟨made, codec⟩
      cases made <;> rfl

theorem initializeEncoder_mapCodec (h : big.Follows small f) (p : Publisher V) :
    (p.mapCodec f).initializeEncoder small =
      ((p.initializeEncoder big).1, (p.initializeEncoder big).2.mapCodec f) := by
  unfold initializeEncoder mapCodec
  simp only [h.state, h.configure, Reply.succeeded_mapCodec]
  split
  · rfl
  · split
    · split
      · rfl
      · split <;> rfl
    · rfl

theorem encodeWith_mapCodec (h : big.Follows small f) (p : Publisher V) (i now : ℕ)
    (frame : Frame) :
    (p.mapCodec f).encodeWith small i now frame = (p.encodeWith big i now frame).mapCodec f := by
  have hreply : small.encode frame (p.mapCodec f).wantsKeyframe i (p.mapCodec f).codec =
      (big.encode frame p.wantsKeyframe i p.codec).mapCodec f :=
    h.encode frame p.wantsKeyframe i p.codec
  have hstate : small.state (f (big.encode frame p.wantsKeyframe i p.codec).codec) i =
      big.state (big.encode frame p.wantsKeyframe i p.codec).codec i := h.state _ i
  unfold encodeWith
  change (if !p.forceKeyframe && p.settings.keyframeInterval == 0 then _ else _) = _
  split
  · rfl
  · simp only [hreply, Reply.mapCodec]
    split
    · rfl
    · simp only [absorb, deliver, hstate]
      split <;> rfl

theorem submit_mapCodec (h : big.Follows small f) (p : Publisher V) (now : ℕ) (frame : Frame) :
    (p.mapCodec f).submit small now frame = (p.submit big now frame).mapCodec f := by
  have hprepare : (p.mapCodec f).prepareEncoder small =
      ((p.prepareEncoder big).1, (p.prepareEncoder big).2.mapCodec f) := by
    unfold prepareEncoder
    rw [renewEncoder_mapCodec h, initializeEncoder_mapCodec h]
  unfold submit
  rw [hprepare]
  rcases p.prepareEncoder big with ⟨ready | i, q⟩
  · rfl
  · have hwith := encodeWith_mapCodec h q i now frame
    unfold mapCodec at hwith ⊢
    simp only [h.queueSize, hwith]
    split <;> rfl

end Following

/-- With encoders that have this history. -/
def recalling (p : Publisher W) (h : List Dealing) : Publisher (Logged W Dealing) :=
  p.mapCodec (Logged.mk · h)

theorem recalling_nil (p : Publisher W) (h : List Dealing) :
    p.recalling h = (p.recalling []).mapCodec fun l => ⟨l.world, h ++ l.calls⟩ := by
  unfold recalling mapCodec
  simp only [List.append_nil]

theorem submit_recalling (enc : EncoderFamily W) (p : Publisher W) (h : List Dealing) (now : ℕ)
    (f : Frame) :
    (p.recalling h).submit enc.recorded now f = (p.submit enc now f).recalling
      (h ++ ((p.recalling []).submit enc.recorded now f).codec.calls) := by
  have hworld := submit_mapCodec enc.recorded_follows (p.recalling []) now f
  change p.submit enc now f = _ at hworld
  rw [p.recalling_nil h, submit_mapCodec (enc.recorded_follows_after h), hworld]
  rfl

theorem configure_recalling (enc : EncoderFamily W) (p : Publisher W) (h : List Dealing)
    (c : CodecConfig) :
    ((p.recalling h).configure enc.recorded c).2 = (p.configure enc c).2.recalling
      (h ++ ((p.recalling []).configure enc.recorded c).2.codec.calls) := by
  have hworld := configure_mapCodec enc.recorded_follows (p.recalling []) c
  change p.configure enc c = _ at hworld
  rw [p.recalling_nil h, configure_mapCodec (enc.recorded_follows_after h), hworld]
  rfl

end Publisher

namespace Broadcast

variable (enc : EncoderFamily W) (link : Link S)

/-- What passes between publisher and encoders in a step. -/
def dealings (b : Broadcast W S) : Action W → List Dealing
  | .begin => [.begin]
  | .configure c =>
    .asked c (enc.supports b.publisher.codec c) ::
      ((b.publisher.recalling []).configure enc.recorded c).2.codec.calls
  | .submit f => ((b.publisher.recalling []).submit enc.recorded b.now f).codec.calls
  | _ => []

def history (b : Broadcast W S) : List (Action W) → List Dealing
  | [] => []
  | a :: rest => b.dealings enc a ++ (b.step enc link a).history rest

end Broadcast

end LiveMedia
