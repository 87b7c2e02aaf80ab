import Mathlib.Data.List.Infix
import LiveMedia.Codec.Scripted
import LiveMedia.Proofs.Player.KeyframeWait

/-!
# Pictures and the time stamps of their chunks

A player keeps the time stamps of the chunks that its decoder has taken apart from the pictures that
come out, and joins the two in their order. What matters of a player is its desk: the decoder, its
queue of pictures and the time stamps that wait for theirs. What the decoders do is a list of notes.
The invariant cuts the chunks taken by the decoder in service in two: those whose pictures were
shown, and those whose time stamps wait.
-/

namespace LiveMedia
set_option autoImplicit false

/-- What decoders are asked for and give out, in the order of time. -/
inductive Note where
  | call (c : DecoderCall)
  | output (i : ℕ) (picture : Picture)
deriving DecidableEq

/-- A chunk that a decoder has taken, with its place among all chunks that were taken. -/
structure Submission where
  place : ℕ
  decoder : ℕ
  chunk : Chunk
deriving DecidableEq

namespace Note

def made? : Note → Option ℕ
  | call (.create made) => made
  | _ => none

def taken? : Note → Option (ℕ × Chunk)
  | call (.decode i c true) => some (i, c)
  | _ => none

def output? (i : ℕ) : Note → Option Picture
  | output j picture => if j = i then some picture else none
  | _ => none

def source? : Note → Option ℕ
  | output i _ => some i
  | _ => none

/-- No chunk is taken and no picture comes out. -/
def IsQuiet (n : Note) : Prop := n.taken? = none ∧ ∀ i, n.output? i = none

end Note

/-- The decoders that were made. -/
def made (log : List Note) : List ℕ := log.filterMap Note.made?

def taken (log : List Note) : List (ℕ × Chunk) := log.filterMap Note.taken?

def submissions (log : List Note) : List Submission :=
  (taken log).zipIdx.map fun x => ⟨x.2, x.1.1, x.1.2⟩

def submissionsTo (i : ℕ) (log : List Note) : List Submission :=
  (submissions log).filter fun s => s.decoder = i

def outputsOf (i : ℕ) (log : List Note) : List Picture := log.filterMap (Note.output? i)

/-- A decoder gives out one picture for each chunk that it takes, in the order of the chunks and at
any time after it took them. -/
def Answers (log : List Note) (s : Submission) (picture : Picture) : Prop :=
  ∃ n : ℕ, (submissionsTo s.decoder log)[n]? = some s ∧
    (outputsOf s.decoder log)[n]? = some picture

/-- No picture comes before its chunk is taken, and no two decoders are one. -/
structure OneForOne (log : List Note) : Prop where
  answers : ∀ earlier, earlier <+: log → ∀ i,
    (outputsOf i earlier).length ≤ (submissionsTo i earlier).length
  fresh : (made log).Nodup

theorem oneForOne_iff (log : List Note) : OneForOne log ↔
    (∀ earlier ∈ log.inits, ∀ i ∈ log.filterMap Note.source?,
      (outputsOf i earlier).length ≤ (submissionsTo i earlier).length) ∧ (made log).Nodup := by
  refine ⟨fun h => ⟨fun earlier he i _ => ?_, h.fresh⟩, ?_⟩
  · exact h.answers earlier ((List.mem_inits _ _).mp he) i
  rintro ⟨hanswers, hfresh⟩
  refine ⟨fun earlier he i => ?_, hfresh⟩
  by_cases hi : i ∈ log.filterMap Note.source?
  · exact hanswers earlier ((List.mem_inits _ _).mpr he) i hi
  -- Whoever gives out nothing at all has given out nothing so far.
  · have hnone : outputsOf i earlier = [] := by
      refine List.filterMap_eq_nil_iff.mpr fun n hn => ?_
      cases n with
      | call c => rfl
      | output j picture =>
        have hj : j ∈ log.filterMap Note.source? := List.mem_filterMap.mpr ⟨_, he.subset hn, rfl⟩
        exact if_neg fun heq : j = i => hi (heq ▸ hj)
    rw [hnone]
    exact Nat.zero_le _

instance (log : List Note) : Decidable (OneForOne log) :=
  decidable_of_iff _ (oneForOne_iff log).symm

section Notes

variable {log notes : List Note} {i : ℕ}

@[simp] theorem made_append : made (log ++ notes) = made log ++ made notes := List.filterMap_append

@[simp] theorem outputsOf_append :
    outputsOf i (log ++ notes) = outputsOf i log ++ outputsOf i notes := List.filterMap_append

theorem submissions_append : submissions (log ++ notes) = submissions log ++
    ((taken notes).zipIdx (submissions log).length).map fun x => ⟨x.2, x.1.1, x.1.2⟩ := by
  have htaken : taken (log ++ notes) = taken log ++ taken notes := List.filterMap_append
  have hlength : (submissions log).length = (taken log).length := by simp [submissions]
  rw [hlength]
  unfold submissions
  rw [htaken, List.zipIdx_append, List.map_append, Nat.zero_add]

theorem submissions_quiet (h : ∀ n ∈ notes, n.IsQuiet) :
    submissions (log ++ notes) = submissions log := by
  have hnone : taken notes = [] := List.filterMap_eq_nil_iff.mpr fun n hn => (h n hn).1
  rw [submissions_append, hnone]
  exact List.append_nil _

theorem outputsOf_quiet (h : ∀ n ∈ notes, n.IsQuiet) :
    outputsOf i (log ++ notes) = outputsOf i log := by
  have hnone : outputsOf i notes = [] := List.filterMap_eq_nil_iff.mpr fun n hn => (h n hn).2 i
  rw [outputsOf_append, hnone, List.append_nil]

theorem made_outputs (pictures : List Picture) :
    made (log ++ pictures.map (.output i)) = made log := by
  have hnone : made (pictures.map (.output i)) = [] := by
    refine List.filterMap_eq_nil_iff.mpr fun n hn => ?_
    obtain ⟨x, _, rfl⟩ := List.mem_map.mp hn
    rfl
  rw [made_append, hnone, List.append_nil]

theorem submissions_outputs (pictures : List Picture) :
    submissions (log ++ pictures.map (.output i)) = submissions log := by
  have hnone : taken (pictures.map (.output i)) = [] := by
    refine List.filterMap_eq_nil_iff.mpr fun n hn => ?_
    obtain ⟨x, _, rfl⟩ := List.mem_map.mp hn
    rfl
  rw [submissions_append, hnone]
  exact List.append_nil _

theorem outputsOf_outputs (j : ℕ) (pictures : List Picture) :
    outputsOf i (pictures.map (.output j)) = if j = i then pictures else [] := by
  have hmap : outputsOf i (pictures.map (.output j)) =
      pictures.filterMap fun x => if j = i then some x else none := List.filterMap_map
  rw [hmap]
  by_cases h : j = i
  · simp [h]
  · simp [h]

theorem pairwise_submissions (log : List Note) :
    (submissions log).Pairwise fun a b => a.place < b.place := by
  unfold submissions
  rw [List.pairwise_map]
  have hindices := List.pairwise_lt_range' (s := 0) (n := (taken log).length) 1
  rwa [← List.zipIdx_map_snd, List.pairwise_map] at hindices

theorem place_lt {s : Submission} (h : s ∈ submissions log) :
    s.place < (submissions log).length := by
  unfold submissions at h ⊢
  obtain ⟨x, hx, rfl⟩ := List.mem_map.mp h
  rw [List.length_map, List.length_zipIdx]
  simpa using List.snd_lt_of_mem_zipIdx hx

theorem Answers.append {s : Submission} {picture : Picture} (h : Answers log s picture)
    (notes : List Note) : Answers (log ++ notes) s picture := by
  obtain ⟨n, hs, hx⟩ := h
  refine ⟨n, ?_, ?_⟩
  · unfold submissionsTo at hs ⊢
    rw [submissions_append, List.filter_append]
    exact List.getElem?_append_left (List.getElem?_eq_some_iff.mp hs).1 ▸ hs
  · rw [outputsOf_append]
    exact List.getElem?_append_left (List.getElem?_eq_some_iff.mp hx).1 ▸ hx

theorem Answers.mem {s : Submission} {picture : Picture} (h : Answers log s picture) :
    s ∈ submissions log := by
  obtain ⟨n, hs, _⟩ := h
  exact (List.mem_filter.mp (List.mem_of_getElem? hs)).1

theorem OneForOne.of_append (h : OneForOne (log ++ notes)) : OneForOne log where
  answers := fun earlier he i => h.answers earlier (he.trans (List.prefix_append log notes)) i
  fresh := (List.nodup_append.mp (made_append ▸ h.fresh)).1

end Notes

/-- The part of a player that joins pictures and time stamps. -/
structure Desk where
  decoder : Option ℕ
  outputs : Option PictureQueue
  timestamps : List Int64
  /-- How many pictures the screen has shown or refused. -/
  offers : ℕ

/-- What a screen is offered when pictures meet these time stamps. -/
def renderings : List Int64 → List Picture → List Rendering
  | _, [] => []
  | timestamps, picture :: rest =>
    ⟨picture, timestamps.head?⟩ :: renderings timestamps.tail rest

namespace Desk

def deliver (d : Desk) (i : ℕ) (pictures : List Picture) : Desk :=
  match d.outputs with
  | some q =>
    if q.decoder = i then { d with outputs := some { q with waiting := q.waiting ++ pictures } }
    else d
  | none => d

def submit (d : Desk) (c : Chunk) (ok : Bool) : Desk :=
  if ok then { d with timestamps := d.timestamps ++ [c.timestamp] } else d

def renew (d : Desk) (i : ℕ) : Desk :=
  { d with decoder := some i, outputs := some ⟨i, []⟩, timestamps := [] }

def offered (d : Desk) : List Rendering :=
  match d.outputs with
  | none => []
  | some q => renderings d.timestamps q.waiting

def render (d : Desk) : Desk :=
  match d.outputs with
  | none => d
  | some q => { d with
    outputs := some { q with waiting := [] }
    timestamps := d.timestamps.drop q.waiting.length
    offers := d.offers + q.waiting.length }

/-- It does not matter which comes first, the pictures of a chunk or its time stamp. -/
theorem deliver_submit (d : Desk) (i : ℕ) (c : Chunk) (ok : Bool) (pictures : List Picture) :
    (d.deliver i pictures).submit c ok = (d.submit c ok).deliver i pictures := by
  unfold deliver submit
  cases ok with
  | false => rfl
  | true =>
    cases hout : d.outputs with
    | none => simp only [if_true, hout]
    | some q => by_cases hi : q.decoder = i <;> simp only [if_true, hout, hi, if_false]

/-- What becomes of a desk when something is played, and the notes of the decoders about it. -/
inductive Plays (d : Desk) : List Note → Desk → Prop where
  | idle {notes : List Note} {decoder : Option ℕ} (quiet : ∀ n ∈ notes, n.IsQuiet)
      (still : decoder = d.decoder ∨ decoder = none) : Plays d notes { d with decoder := decoder }
  | kept {i : ℕ} (c : Chunk) (ok : Bool) (pictures : List Picture) (current : d.decoder = some i) :
    Plays d (.call (.decode i c ok) :: pictures.map (.output i))
      ((d.deliver i pictures).submit c ok)
  | renewed (i : ℕ) {setup : List Note} (c : Chunk) (ok : Bool) (pictures : List Picture)
      (quiet : ∀ n ∈ setup, n.IsQuiet) :
    Plays d (.call (.create (some i)) :: setup ++
        .call (.decode i c ok) :: pictures.map (.output i))
      (((d.renew i).deliver i pictures).submit c ok)

end Desk

namespace Player

variable {W : Type}

def desk (p : Player W) : Desk where
  decoder := p.decoder
  outputs := p.outputs
  timestamps := p.timestamps
  offers := p.counts.framesRendered + p.counts.renderDrops

theorem desk_deliver (p : Player W) (i : ℕ) (pictures : List Picture) :
    (p.deliver i pictures).desk = p.desk.deliver i pictures := by
  unfold deliver Desk.deliver
  cases hout : p.outputs with
  | none => simp only [desk, hout]
  | some q =>
    by_cases hi : q.decoder = i
    · simp only [desk, hout, if_pos hi]
    · simp only [desk, hout, if_neg hi]

/-- The screen is offered the renderings of the pictures in their order. -/
theorem screen_render (p : Player W) (pictures : List Picture) :
    (pictures.foldl render p).screen =
      (renderings p.timestamps pictures).foldl (fun s r => (s.offer? r).getD s) p.screen := by
  induction pictures generalizing p with
  | nil => rfl
  | cons x rest ih =>
    have hscreen : (p.render x).screen = (p.screen.offer? ⟨x, p.timestamps.head?⟩).getD p.screen ∧
        (p.render x).timestamps = p.timestamps.tail := by
      unfold render
      simp only
      cases p.screen.offer? ⟨x, p.timestamps.head?⟩ <;> exact ⟨rfl, rfl⟩
    rw [List.foldl_cons, ih, hscreen.1, hscreen.2]
    rfl

theorem desk_renderOutputs (p : Player W) : p.renderOutputs.desk = p.desk.render := by
  have go : ∀ (pictures : List Picture) (q : Player W), (pictures.foldl Player.render q).desk =
      { q.desk with
        timestamps := q.timestamps.drop pictures.length
        offers := q.desk.offers + pictures.length } := by
    intro pictures
    induction pictures with
    | nil => exact fun q => rfl
    | cons x rest ih =>
      intro q
      have hone : (q.render x).desk = { q.desk with
          timestamps := q.timestamps.tail
          offers := q.desk.offers + 1 } := by
        unfold Player.render desk
        simp only
        cases q.screen.offer? ⟨x, q.timestamps.head?⟩ with
        | none => rfl
        | some screen => exact congrArg (Desk.mk _ _ _) (Nat.add_right_comm ..)
      have hts : (q.render x).timestamps = q.timestamps.tail := congrArg Desk.timestamps hone
      rw [List.foldl_cons, ih, hts, hone, List.drop_tail, List.length_cons, Nat.add_assoc,
        Nat.add_comm 1]
  unfold renderOutputs Desk.render
  cases hout : p.outputs with
  | none => simp only [desk, hout]
  | some q =>
    simp only [desk, hout] at go ⊢
    exact go q.waiting { p with outputs := some { q with waiting := [] } }

theorem receive_leaves (p : Player W) (now : ℕ) (o : Received) :
    (p.receive now o).desk = p.desk ∧ (p.receive now o).screen = p.screen := by
  obtain ⟨_, _, _, _, _, _, _, h⟩ := receive_footprint p now o
  rw [h]
  exact ⟨rfl, rfl⟩

end Player

/-- A family that writes down what it is asked for and what it gives out. -/
def DecoderFamily.minuted {W : Type} (dec : DecoderFamily W) : DecoderFamily (Logged W Note) where
  create c l :=
    let (made, world) := dec.create c l.world
    (made, l.note (.call (.create made.toOption)) world)
  state l i := dec.state l.world i
  configure c i l :=
    let reply := dec.configure c i l.world
    ⟨reply.verdict, reply.emitted, l.note (.call (.configure i reply.succeeded)) reply.codec⟩
  decode c i l :=
    let reply := dec.decode c i l.world
    ⟨reply.verdict, reply.emitted, reply.codec,
      l.calls ++ .call (.decode i c reply.succeeded) :: reply.emitted.map (.output i)⟩

theorem DecoderFamily.minuted_follows {W : Type} (dec : DecoderFamily W) :
    dec.minuted.Follows dec Logged.world where
  create := fun _ _ => rfl
  state := fun _ _ => rfl
  configure := fun _ _ _ => rfl
  decode := fun _ _ _ => rfl

namespace Player

variable {W : Type} (dec : DecoderFamily W)

section Minutes

/-- What the decoders note about an input. -/
def notes (p : Player W) : Input W → List Note
  | .tick now => ((p.mapCodec Logged.fresh).tick dec.minuted now).2.codec.calls
  | .codec run => (run p.codec).2.map fun x => .output x.1 x.2
  | _ => []

def minutes (p : Player W) : List (Input W) → List Note
  | [] => []
  | i :: rest => p.notes dec i ++ (p.step dec i).minutes rest

/-- A player in the middle of a tick, just before it shows what has come out. -/
def released (p : Player W) (now : ℕ) : Player W :=
  match p.buffer.pop? now with
  | none => p
  | some (e, buffer) => (p.popped buffer).play dec e.payload

theorem tick_released (p : Player W) (now : ℕ) :
    (p.tick dec now).2 = (p.released dec now).renderOutputs := by
  unfold released
  cases h : p.buffer.pop? now with
  | none => rw [tick_of_pop?_none dec h]
  | some r => rw [tick_of_pop?_some dec h]

/-- What the screen is offered at an input. -/
def offers (p : Player W) : Input W → List Rendering
  | .tick now => (p.released dec now).desk.offered
  | .render => p.desk.offered
  | _ => []

def offered (p : Player W) : List (Input W) → List Rendering
  | [] => []
  | i :: rest => p.offers dec i ++ (p.step dec i).offered rest

end Minutes

section Playing

theorem decodeWith_desk (p : Player W) (i : ℕ) (c : Chunk) {reply : Reply W Picture}
    (hreply : dec.decode c i p.codec = reply) :
    (p.decodeWith dec i c).codec = reply.codec ∧
      (p.decodeWith dec i c).desk = (p.desk.deliver i reply.emitted).submit c reply.succeeded := by
  have hdesk := desk_deliver { p with codec := reply.codec } i reply.emitted
  rw [deliver_eq] at hdesk
  rw [show p.desk.deliver i reply.emitted = _ from hdesk.symm]
  rcases decodeWith_cases dec p i c hreply with ⟨hok, h⟩ | ⟨hok, h⟩
  all_goals
    rw [h, hok]
    exact ⟨rfl, rfl⟩

theorem decodeWith_minuted (p : Player (Logged W Note)) (i : ℕ) (c : Chunk) :
    ∃ ok pictures, (p.decodeWith dec.minuted i c).codec.calls =
        p.codec.calls ++ .call (.decode i c ok) :: pictures.map (.output i) ∧
      (p.decodeWith dec.minuted i c).desk = (p.desk.deliver i pictures).submit c ok := by
  obtain ⟨hcodec, hdesk⟩ := decodeWith_desk dec.minuted p i c rfl
  refine ⟨_, _, ?_, hdesk⟩
  rw [hcodec]
  rfl

theorem create_minuted {p : Player (Logged W Note)} {made : Except CodecFault ℕ}
    {codec : Logged W Note} (h : dec.minuted.create p.config p.codec = (made, codec)) :
    codec.calls = p.codec.calls ++ [.call (.create made.toOption)] := by
  rcases h with ⟨⟩
  rfl

theorem configure_minuted (c : CodecConfig) (i : ℕ) (l : Logged W Note) :
    ∃ ok, (dec.minuted.configure c i l).codec.calls = l.calls ++ [.call (.configure i ok)] :=
  ⟨_, rfl⟩

theorem setUp_minuted {config : CodecConfig} {i : ℕ} {codec codec' : Logged W Note}
    (h : SetUp dec.minuted config i codec codec') :
    ∃ setup, (∀ n ∈ setup, n.IsQuiet) ∧ codec'.calls = codec.calls ++ setup := by
  cases h with
  | ready state => exact ⟨[], List.forall_mem_nil _, (List.append_nil _).symm⟩
  | configured state fits =>
    obtain ⟨ok, hcalls⟩ := configure_minuted dec config i codec
    exact ⟨_, List.forall_mem_singleton.mpr ⟨rfl, fun _ => rfl⟩, hcalls⟩

/-- What is done with a chunk is one of the ways of a desk. -/
theorem decode_minuted (p : Player (Logged W Note)) (c : Chunk) :
    ∃ notes, (p.decode dec.minuted c).codec.calls = p.codec.calls ++ notes ∧
      p.desk.Plays notes (p.decode dec.minuted c).desk := by
  have hcreate : ∀ made, (Note.call (.create made)).IsQuiet := fun _ => ⟨rfl, fun _ => rfl⟩
  have hconfigure : ∀ i ok, (Note.call (.configure i ok)).IsQuiet := fun _ _ => ⟨rfl, fun _ => rfl⟩
  have houtcome := decode_outcome dec.minuted p c
  generalize p.decode dec.minuted c = q at houtcome ⊢
  cases houtcome with
  | waits =>
    exact ⟨[], (List.append_nil _).symm, .idle (List.forall_mem_nil _) (Or.inl rfl)⟩
  | @kept i _ current =>
    obtain ⟨ok, pictures, hcalls, hdesk⟩ :=
      decodeWith_minuted dec { p with decoding := true } i c
    refine ⟨_, hcalls, ?_⟩
    rw [hdesk]
    exact .kept c ok pictures (decoder_of_openDecoder dec.minuted current).1
  | lost => exact ⟨[], (List.append_nil _).symm, .idle (List.forall_mem_nil _) (Or.inr rfl)⟩
  | refused _ _ made =>
    exact ⟨_, create_minuted dec made,
      .idle (List.forall_mem_singleton.mpr (hcreate _)) (Or.inr rfl)⟩
  | @unfit _ _ i codec made _ _ =>
    obtain ⟨ok, hcalls⟩ := configure_minuted dec p.config i codec
    rw [create_minuted dec made, List.append_assoc] at hcalls
    exact ⟨_, hcalls, .idle (List.forall_mem_cons.mpr
      ⟨hcreate _, List.forall_mem_singleton.mpr (hconfigure i ok)⟩) (Or.inr rfl)⟩
  | @renewed _ _ i codec codec' made setUp =>
    obtain ⟨setup, hquiet, hsetup⟩ := setUp_minuted dec setUp
    obtain ⟨ok, pictures, hcalls, hdesk⟩ := decodeWith_minuted dec
      (Player.renewed { p with decoding := true, counts.codecResets := p.resets } i codec') i c
    refine ⟨.call (.create (some i)) :: setup ++
      .call (.decode i c ok) :: pictures.map (.output i), ?_, ?_⟩
    · rw [hcalls]
      change codec'.calls ++ _ = _
      rw [hsetup, create_minuted dec made, List.append_assoc, List.append_assoc]
      rfl
    · rw [hdesk]
      exact .renewed i c ok pictures hquiet

theorem play_minuted (p : Player (Logged W Note)) (o : Received) :
    ∃ notes, (p.play dec.minuted o).codec.calls = p.codec.calls ++ notes ∧
      p.desk.Plays notes (p.play dec.minuted o).desk := by
  have hidle : p.desk.Plays [] p.desk := .idle (List.forall_mem_nil _) (Or.inl rfl)
  unfold play
  split
  · exact ⟨[], (List.append_nil _).symm, hidle⟩
  · split
    · exact ⟨[], (List.append_nil _).symm, hidle⟩
    · exact decode_minuted dec p _

theorem released_minuted (p : Player (Logged W Note)) (now : ℕ) :
    ∃ notes, (p.released dec.minuted now).codec.calls = p.codec.calls ++ notes ∧
      p.desk.Plays notes (p.released dec.minuted now).desk := by
  unfold released
  cases p.buffer.pop? now with
  | none => exact ⟨[], (List.append_nil _).symm, .idle (List.forall_mem_nil _) (Or.inl rfl)⟩
  | some r => exact play_minuted dec (p.popped r.2) r.1.payload

theorem released_mapCodec {V : Type} {big : DecoderFamily V} {small : DecoderFamily W} {f : V → W}
    (h : big.Follows small f) (p : Player V) (now : ℕ) :
    (p.mapCodec f).released small now = (p.released big now).mapCodec f := by
  have hpop : (p.mapCodec f).buffer.pop? now = p.buffer.pop? now := rfl
  unfold released
  rw [hpop]
  cases p.buffer.pop? now with
  | none => rfl
  | some r => exact play_mapCodec h (p.popped r.2) r.1.payload

/-- A tick is one of the ways of a desk, with the notes of the tick, and shows what has come out. -/
theorem desk_tick (p : Player W) (now : ℕ) :
    p.desk.Plays (p.notes dec (.tick now)) (p.released dec now).desk ∧
      (p.tick dec now).2.desk = (p.released dec now).desk.render := by
  refine ⟨?_, (tick_released dec p now).symm ▸ desk_renderOutputs _⟩
  obtain ⟨notes, hcalls, hplays⟩ := released_minuted dec (p.mapCodec Logged.fresh) now
  have hlogged := released_mapCodec dec.minuted_follows (p.mapCodec Logged.fresh) now
  have hnotes : p.notes dec (.tick now) = notes := by
    unfold Player.notes
    obtain ⟨_, _, _, _, _, hr⟩ :=
      renderOutputs_footprint ((p.mapCodec Logged.fresh).released dec.minuted now)
    simp only
    rw [tick_released, hr]
    exact hcalls
  rw [hnotes]
  exact (congrArg desk hlogged).symm ▸ hplays

end Playing

end Player

/-- A picture that was shown with the chunk that it came from. -/
structure Shown where
  source : Submission
  picture : Picture
deriving DecidableEq

def Shown.rendering (x : Shown) : Rendering := ⟨x.picture, some x.source.chunk.timestamp⟩

section Joining

variable {first : List Submission} {pictures : List Picture}

theorem renderings_eq (h : first.length = pictures.length) (later : List Submission) :
    renderings ((first ++ later).map fun s => s.chunk.timestamp) pictures =
      (List.zipWith Shown.mk first pictures).map Shown.rendering := by
  induction first generalizing pictures with
  | nil => rw [List.length_eq_zero_iff.mp h.symm]; rfl
  | cons s rest ih =>
    cases pictures with
    | nil => cases h
    | cons x pictures => exact congrArg (_ :: ·) (ih (Nat.succ.inj h))

theorem sources_zipWith (h : first.length = pictures.length) :
    (List.zipWith Shown.mk first pictures).map Shown.source = first := by
  induction first generalizing pictures with
  | nil => rw [List.length_eq_zero_iff.mp h.symm]; rfl
  | cons s rest ih =>
    cases pictures with
    | nil => cases h
    | cons x pictures => exact congrArg (s :: ·) (ih (Nat.succ.inj h))

end Joining

/-- The desk tells what the notes say, and what was shown is right. -/
structure Paired (d : Desk) (log : List Note) (shown : List Shown) : Prop where
  decoder : ∀ i, d.decoder = some i → ∃ waiting, d.outputs = some ⟨i, waiting⟩
  queue : ∀ q, d.outputs = some q → ∃ answered awaited gone,
    submissionsTo q.decoder log = answered ++ awaited ∧
    outputsOf q.decoder log = gone ++ q.waiting ∧ gone.length = answered.length ∧
    d.timestamps = awaited.map (fun s => s.chunk.timestamp) ∧
    ∀ x ∈ shown, ∀ s ∈ awaited, x.source.place < s.place
  inUse : ∀ q, d.outputs = some q → q.decoder ∈ made log
  known : ∀ s ∈ submissions log, s.decoder ∈ made log
  answers : ∀ x ∈ shown, Answers log x.source x.picture
  inOrder : shown.Pairwise fun x y => x.source.place < y.source.place
  counted : d.offers = shown.length

namespace Paired

variable {d : Desk} {log : List Note} {shown : List Shown}

theorem quiet (h : Paired d log shown) {notes : List Note} (hquiet : ∀ n ∈ notes, n.IsQuiet)
    {decoder : Option ℕ} (hstill : decoder = d.decoder ∨ decoder = none) :
    Paired { d with decoder := decoder } (log ++ notes) shown where
  decoder := by
    intro i hi
    rcases hstill with hs | hs
    · exact h.decoder i (hs ▸ hi)
    · cases hs.symm.trans hi
  queue := by
    intro q hq
    unfold submissionsTo
    rw [submissions_quiet hquiet, outputsOf_quiet hquiet]
    exact h.queue q hq
  inUse := fun q hq => made_append ▸ List.mem_append_left _ (h.inUse q hq)
  known := by
    rw [submissions_quiet hquiet, made_append]
    exact fun s hs => List.mem_append_left _ (h.known s hs)
  answers := fun x hx => (h.answers x hx).append notes
  inOrder := h.inOrder
  counted := h.counted

/-- A decoder that was not there before has taken nothing and given out nothing. -/
theorem renew (h : Paired d log shown) {i : ℕ} {setup : List Note}
    (hquiet : ∀ n ∈ setup, n.IsQuiet)
    (hone : OneForOne (log ++ .call (.create (some i)) :: setup)) :
    Paired (d.renew i) (log ++ .call (.create (some i)) :: setup) shown := by
  have hall : ∀ n ∈ .call (.create (some i)) :: setup, n.IsQuiet :=
    List.forall_mem_cons.mpr ⟨⟨rfl, fun _ => rfl⟩, hquiet⟩
  have hnew : i ∉ made log := by
    have hnodup := hone.fresh
    rw [made_append, List.nodup_append] at hnodup
    exact fun hi => hnodup.2.2 i hi i List.mem_cons_self rfl
  have hnone : submissionsTo i log = [] := by
    refine List.filter_eq_nil_iff.mpr fun s hs hi => hnew ?_
    exact of_decide_eq_true hi ▸ h.known s hs
  have hempty : outputsOf i log = [] := by
    have hle := hone.of_append.answers log (List.prefix_refl log) i
    rw [hnone] at hle
    exact List.length_eq_zero_iff.mp (Nat.le_zero.mp hle)
  have hmade : i ∈ made (log ++ .call (.create (some i)) :: setup) := by
    rw [made_append]
    exact List.mem_append_right _ List.mem_cons_self
  have hq := h.quiet hall (Or.inl rfl)
  refine { hq with decoder := ?_, queue := ?_, inUse := ?_ }
  · intro j hj
    cases hj
    exact ⟨[], rfl⟩
  · intro q hout
    cases hout
    unfold submissionsTo at hnone ⊢
    rw [submissions_quiet hall, outputsOf_quiet hall, hempty]
    exact ⟨[], [], [], hnone, rfl, rfl, rfl, fun _ _ s hs => absurd hs List.not_mem_nil⟩
  · intro q hout
    cases hout
    exact hmade

theorem submit (h : Paired d log shown) {i : ℕ} (hi : d.decoder = some i) (c : Chunk) (ok : Bool) :
    Paired (d.submit c ok) (log ++ [.call (.decode i c ok)]) shown := by
  cases ok with
  | false => exact h.quiet (List.forall_mem_singleton.mpr ⟨rfl, fun _ => rfl⟩) (Or.inl rfl)
  | true =>
    obtain ⟨waiting, hout⟩ := h.decoder i hi
    have hsubmissions : submissions (log ++ [.call (.decode i c true)]) =
        submissions log ++ [⟨(submissions log).length, i, c⟩] := submissions_append
    have houtputs : ∀ j, outputsOf j (log ++ [.call (.decode i c true)]) = outputsOf j log :=
      fun j => outputsOf_append.trans (List.append_nil _)
    have hmade : made (log ++ [.call (.decode i c true)]) = made log :=
      made_append.trans (List.append_nil _)
    refine {
      decoder := h.decoder
      queue := ?_
      inUse := fun q hq => hmade.symm ▸ h.inUse q hq
      known := ?_
      answers := fun x hx => (h.answers x hx).append _
      inOrder := h.inOrder
      counted := h.counted }
    · intro q hq
      cases hout.symm.trans hq
      obtain ⟨answered, awaited, gone, hs, ho, hlength, hts, hplaces⟩ := h.queue _ hout
      refine ⟨answered, awaited ++ [⟨(submissions log).length, i, c⟩], gone, ?_,
        (houtputs i).trans ho, hlength, ?_, ?_⟩
      · unfold submissionsTo at hs ⊢
        rw [hsubmissions, List.filter_append, hs, List.append_assoc]
        simp
      · change d.timestamps ++ [c.timestamp] = _
        rw [hts, List.map_append]
        rfl
      · intro x hx s hs
        rcases List.mem_append.mp hs with hs | hs
        · exact hplaces x hx s hs
        · rw [List.mem_singleton.mp hs]
          exact place_lt (h.answers x hx).mem
    · intro s hs
      rw [hmade]
      rcases List.mem_append.mp (hsubmissions ▸ hs) with hs | hs
      · exact h.known s hs
      · rw [List.mem_singleton.mp hs]
        exact h.inUse _ hout

theorem deliver (h : Paired d log shown) (i : ℕ) (pictures : List Picture) :
    Paired (d.deliver i pictures) (log ++ pictures.map (.output i)) shown := by
  have hmade : made (log ++ pictures.map (.output i)) = made log := made_outputs pictures
  have hknown : ∀ s ∈ submissions (log ++ pictures.map (.output i)),
      s.decoder ∈ made (log ++ pictures.map (.output i)) := by
    rw [submissions_outputs, made_outputs]
    exact h.known
  have hanswers : ∀ x ∈ shown, Answers (log ++ pictures.map (.output i)) x.source x.picture :=
    fun x hx => (h.answers x hx).append _
  unfold Desk.deliver
  cases hout : d.outputs with
  | none =>
    exact {
      decoder := h.decoder
      queue := fun q hq => by cases hout.symm.trans hq
      inUse := fun q hq => by cases hout.symm.trans hq
      known := hknown
      answers := hanswers
      inOrder := h.inOrder
      counted := h.counted }
  | some q =>
    obtain ⟨answered, awaited, gone, hs, ho, hlength, hts, hplaces⟩ := h.queue q hout
    have hs' : submissionsTo q.decoder (log ++ pictures.map (.output i)) = answered ++ awaited := by
      unfold submissionsTo at hs ⊢
      rw [submissions_outputs, hs]
    by_cases hi : q.decoder = i
    · simp only [if_pos hi]
      refine {
        decoder := ?_
        queue := ?_
        inUse := ?_
        known := hknown
        answers := hanswers
        inOrder := h.inOrder
        counted := h.counted }
      · intro j hj
        obtain ⟨waiting, hw⟩ := h.decoder j hj
        cases hout.symm.trans hw
        exact ⟨_, rfl⟩
      · intro r hr
        cases hr
        refine ⟨answered, awaited, gone, hs', ?_, hlength, hts, hplaces⟩
        rw [outputsOf_append, outputsOf_outputs, if_pos hi.symm, ho, List.append_assoc]
      · intro r hr
        cases hr
        exact hmade.symm ▸ h.inUse q hout
    · simp only [if_neg hi]
      refine {
        decoder := h.decoder
        queue := ?_
        inUse := fun r hr => hmade.symm ▸ h.inUse r hr
        known := hknown
        answers := hanswers
        inOrder := h.inOrder
        counted := h.counted }
      intro r hr
      cases hout.symm.trans hr
      refine ⟨answered, awaited, gone, hs', ?_, hlength, hts, hplaces⟩
      rw [outputsOf_append, outputsOf_outputs, if_neg (Ne.symm hi), ho, List.append_nil]

theorem plays (h : Paired d log shown) {notes : List Note} {d' : Desk} (hplays : d.Plays notes d')
    (hone : OneForOne (log ++ notes)) : Paired d' (log ++ notes) shown := by
  cases hplays with
  | idle quiet still => exact h.quiet quiet still
  | @kept i c ok pictures current =>
    rw [Desk.deliver_submit, ← List.singleton_append, ← List.append_assoc]
    exact (h.submit current c ok).deliver i pictures
  | renewed i c ok pictures quiet =>
    rw [← List.append_assoc] at hone
    have hall := ((h.renew quiet hone.of_append).submit rfl c ok).deliver i pictures
    rw [List.append_assoc, List.append_assoc, List.singleton_append] at hall
    rw [Desk.deliver_submit]
    exact hall

/-- The pictures that wait are the answers to the first submissions that are not yet answered. -/
theorem answers_waiting {i : ℕ} {answered first later : List Submission}
    {gone waiting : List Picture}
    (hsubmissions : submissionsTo i log = answered ++ (first ++ later))
    (houtputs : outputsOf i log = gone ++ waiting) (hlength : gone.length = answered.length)
    {x : Shown} (hx : x ∈ List.zipWith Shown.mk first waiting) :
    Answers log x.source x.picture := by
  obtain ⟨k, hk⟩ := List.mem_iff_getElem?.mp hx
  obtain ⟨s, picture, hks, hkp, rfl⟩ := List.getElem?_zipWith_eq_some.mp hk
  have hsubmitted : (submissionsTo i log)[answered.length + k]? = some s := by
    rw [hsubmissions, List.getElem?_append_right (Nat.le_add_right ..), Nat.add_sub_cancel_left,
      List.getElem?_append_left (List.getElem?_eq_some_iff.mp hks).1, hks]
  have hdecoder : s.decoder = i :=
    of_decide_eq_true (List.mem_filter.mp (List.mem_of_getElem? hsubmitted)).2
  refine ⟨answered.length + k, hdecoder ▸ hsubmitted, ?_⟩
  simp only
  rw [hdecoder, houtputs, ← hlength, List.getElem?_append_right (Nat.le_add_right ..),
    Nat.add_sub_cancel_left, hkp]

/-- Each picture that waits meets the time stamp of its own chunk. -/
theorem render (h : Paired d log shown) (hone : OneForOne log) :
    ∃ new, d.offered = new.map Shown.rendering ∧ Paired d.render log (shown ++ new) := by
  unfold Desk.offered Desk.render
  cases hout : d.outputs with
  | none =>
    refine ⟨[], rfl, ?_⟩
    rw [List.append_nil]
    exact h
  | some q =>
    obtain ⟨answered, awaited, gone, hs, ho, hlength, hts, hplaces⟩ := h.queue q hout
    have hle : q.waiting.length ≤ awaited.length := by
      have hcount := hone.answers log (List.prefix_refl log) q.decoder
      rw [hs, ho, List.length_append, List.length_append] at hcount
      omega
    obtain ⟨first, later, rfl, hfirst⟩ :
        ∃ first later, awaited = first ++ later ∧ first.length = q.waiting.length :=
      ⟨_, _, (List.take_append_drop q.waiting.length awaited).symm, List.length_take_of_le hle⟩
    have hordered : (answered ++ (first ++ later)).Pairwise fun a b => a.place < b.place :=
      hs ▸ (pairwise_submissions log).sublist List.filter_sublist
    obtain ⟨-, hawaited, -⟩ := List.pairwise_append.mp hordered
    obtain ⟨hpairwise, -, hbefore⟩ := List.pairwise_append.mp hawaited
    have hsources := sources_zipWith hfirst
    have hsource : ∀ x ∈ List.zipWith Shown.mk first q.waiting, x.source ∈ first := fun x hx =>
      hsources ▸ List.mem_map_of_mem hx
    refine ⟨List.zipWith Shown.mk first q.waiting, hts ▸ renderings_eq hfirst later, {
      decoder := ?_
      queue := ?_
      inUse := ?_
      known := h.known
      answers := ?_
      inOrder := ?_
      counted := ?_ }⟩
    · intro i hi
      obtain ⟨waiting, hw⟩ := h.decoder i hi
      cases hout.symm.trans hw
      exact ⟨_, rfl⟩
    · intro r hr
      cases hr
      refine ⟨answered ++ first, later, gone ++ q.waiting, ?_, ?_, ?_, ?_, ?_⟩
      · rw [hs, List.append_assoc]
      · rw [ho, List.append_nil]
      · rw [List.length_append, List.length_append, hlength, hfirst]
      · simp only [hts, List.map_append]
        exact List.drop_left' (by rw [List.length_map, hfirst])
      · intro x hx s hlater
        rcases List.mem_append.mp hx with hx | hx
        · exact hplaces x hx s (List.mem_append_right _ hlater)
        · exact hbefore _ (hsource x hx) s hlater
    · intro r hr
      cases hr
      exact h.inUse q hout
    · intro x hx
      rcases List.mem_append.mp hx with hx | hx
      · exact h.answers x hx
      · exact answers_waiting hs ho hlength hx
    · refine List.pairwise_append.mpr ⟨h.inOrder, ?_, ?_⟩
      · rw [← hsources, List.pairwise_map] at hpairwise
        exact hpairwise
      · exact fun x hx y hy => hplaces x hx _ (List.mem_append_left _ (hsource y hy))
    · rw [List.length_append, List.length_zipWith, hfirst, Nat.min_self, ← h.counted]

end Paired

/-- A screen that is full or closed stays as it is. -/
def Screen.tryOffer (s : Screen) (r : Rendering) : Screen := (s.offer? r).getD s

namespace Player

variable {W : Type} (dec : DecoderFamily W)

/-- What an input does to the screen without the player. -/
def Input.onScreen : Input W → Screen → Screen
  | .view n, s => (s.take n).2
  | .closeScreen, s => s.close
  | _, s => s

theorem screen_renderOutputs (p : Player W) :
    p.renderOutputs.screen = p.desk.offered.foldl Screen.tryOffer p.screen := by
  unfold renderOutputs Desk.offered desk
  cases hout : p.outputs with
  | none => rfl
  | some q => exact screen_render { p with outputs := some { q with waiting := [] } } q.waiting

theorem screen_play (p : Player W) (o : Received) : (p.play dec o).screen = p.screen := by
  obtain ⟨_, _, _, _, _, _, _, _, _, h⟩ := play_footprint dec p o
  rw [h]

theorem screen_released (p : Player W) (now : ℕ) : (p.released dec now).screen = p.screen := by
  unfold released
  cases p.buffer.pop? now with
  | none => rfl
  | some r => exact screen_play dec (p.popped r.2) r.1.payload

/-- All that reaches the screen is what it is offered. -/
theorem screen_step (p : Player W) (i : Input W) :
    (p.step dec i).screen = i.onScreen ((p.offers dec i).foldl Screen.tryOffer p.screen) := by
  cases i with
  | receive now o => exact (receive_leaves p now o).2
  | tick now =>
    change (p.tick dec now).2.screen =
      (p.released dec now).desk.offered.foldl Screen.tryOffer p.screen
    rw [tick_released, screen_renderOutputs, screen_released]
  | render => exact screen_renderOutputs p
  | codec run =>
    obtain ⟨_, _, h⟩ := actOnCodec_footprint p run
    exact (congrArg Player.screen h).trans rfl
  | view n => rfl
  | closeScreen => rfl

end Player

namespace Paired

variable {W : Type} (dec : DecoderFamily W) {p : Player W} {log : List Note} {shown : List Shown}

theorem delivered (h : Paired p.desk log shown) (pictures : List (ℕ × Picture)) :
    Paired (pictures.foldl (fun p x => p.deliver x.1 [x.2]) p).desk
      (log ++ pictures.map fun x => .output x.1 x.2) shown := by
  induction pictures generalizing p log with
  | nil => exact (List.append_nil log).symm ▸ h
  | cons x rest ih =>
    have hone := h.deliver x.1 [x.2]
    rw [← Player.desk_deliver] at hone
    have hall := ih hone
    rw [List.append_assoc] at hall
    exact hall

theorem step (h : Paired p.desk log shown) (i : Player.Input W)
    (hone : OneForOne (log ++ p.notes dec i)) :
    ∃ new, p.offers dec i = new.map Shown.rendering ∧
      Paired (p.step dec i).desk (log ++ p.notes dec i) (shown ++ new) := by
  have hstill : ∀ q : Player W, q.desk = p.desk → ∃ new, [] = new.map Shown.rendering ∧
      Paired q.desk (log ++ []) (shown ++ new) := by
    intro q hq
    refine ⟨[], rfl, ?_⟩
    rw [List.append_nil, List.append_nil, hq]
    exact h
  cases i with
  | receive now o => exact hstill _ (Player.receive_leaves p now o).1
  | tick now =>
    obtain ⟨hplays, htick⟩ := Player.desk_tick dec p now
    obtain ⟨new, hnew, hrender⟩ := (h.plays hplays hone).render hone
    exact ⟨new, hnew, (show (p.step dec (.tick now)).desk = _ from htick) ▸ hrender⟩
  | render =>
    change OneForOne (log ++ []) at hone
    rw [List.append_nil] at hone
    obtain ⟨new, hnew, hrender⟩ := h.render hone
    refine ⟨new, hnew, ?_⟩
    change Paired p.renderOutputs.desk (log ++ []) _
    rw [List.append_nil, Player.desk_renderOutputs]
    exact hrender
  | codec run =>
    refine ⟨[], rfl, ?_⟩
    rw [List.append_nil]
    exact delivered (p := { p with codec := (run p.codec).1 }) h (run p.codec).2
  | view n => exact hstill _ rfl
  | closeScreen => exact hstill _ rfl

theorem run (h : Paired p.desk log shown) (inputs : List (Player.Input W))
    (hone : OneForOne (log ++ p.minutes dec inputs)) :
    ∃ new, p.offered dec inputs = new.map Shown.rendering ∧
      Paired (p.run dec inputs).desk (log ++ p.minutes dec inputs) (shown ++ new) := by
  induction inputs generalizing p log shown with
  | nil =>
    refine ⟨[], rfl, ?_⟩
    change Paired p.desk (log ++ []) (shown ++ [])
    rw [List.append_nil, List.append_nil]
    exact h
  | cons i rest ih =>
    change OneForOne (log ++ (p.notes dec i ++ (p.step dec i).minutes dec rest)) at hone
    rw [← List.append_assoc] at hone
    obtain ⟨new, hnew, hstep⟩ := h.step dec i hone.of_append
    obtain ⟨later, hlater, hrun⟩ := ih hstep hone
    refine ⟨new ++ later, ?_, ?_⟩
    · rw [List.map_append, ← hnew, ← hlater]
      rfl
    · rw [List.append_assoc, List.append_assoc] at hrun
      exact hrun

end Paired

namespace Player

variable {W : Type} (dec : DecoderFamily W)

theorem paired_new (settings : PlaySettings) (codec : W) (config : CodecConfig) (screen : Screen)
    (start : ℕ) : Paired (Player.new settings codec config screen start).desk [] [] where
  decoder := fun i hi => by cases hi
  queue := fun q hq => by cases hq
  inUse := fun q hq => by cases hq
  known := fun s hs => absurd hs List.not_mem_nil
  answers := fun x hx => absurd hx List.not_mem_nil
  inOrder := List.Pairwise.nil
  counted := rfl

/-- With decoders that give out one picture for each chunk that they take, whenever it comes and
whatever breaks in between, every picture that the screen is offered has the time stamp of its own
chunk. Pictures are offered in the order of their chunks and none twice, and each is counted as
shown or refused. -/
theorem sender_timestamps (settings : PlaySettings) (codec : W) (config : CodecConfig)
    (screen : Screen) (start : ℕ) (inputs : List (Input W)) :
    let fresh := Player.new settings codec config screen start
    let log := fresh.minutes dec inputs
    let stats := (fresh.run dec inputs).stats
    OneForOne log →
      (∃ shown : List Shown, fresh.offered dec inputs = shown.map Shown.rendering ∧
        (∀ x ∈ shown, Answers log x.source x.picture) ∧
        shown.Pairwise fun x y => x.source.place < y.source.place) ∧
      stats.framesRendered + stats.renderDrops = (fresh.offered dec inputs).length ∧
      ∀ before i after, inputs = before ++ i :: after →
        let p := fresh.run dec before
        (p.step dec i).screen = i.onScreen ((p.offers dec i).foldl Screen.tryOffer p.screen) := by
  intro fresh log stats hone
  obtain ⟨shown, hshown, hpaired⟩ :=
    (paired_new settings codec config screen start).run dec inputs hone
  refine ⟨⟨shown, hshown, hpaired.answers, hpaired.inOrder⟩, ?_,
    fun before i after _ => screen_step dec (fresh.run dec before) i⟩
  rw [show fresh.offered dec inputs = _ from hshown, List.length_map]
  exact hpaired.counted

/-- A decoder that holds its pictures back: two of them come late and one after it has crashed and a
new one could not be made. The next one starts with its own chunk. -/
theorem late_pictures_keep_timestamps :
    let settings : PlaySettings := ⟨.video, 5, 4, 5⟩
    let config : CodecConfig := { codec := "vp8", bitrate := 1000, framerate := 30.0 }
    let object (number : ℕ) (kind : ChunkKind) (timestamp : Int64) : Received :=
      ⟨1, 1, 0, number, Chunk.pack ⟨⟨kind, timestamp, none⟩, ⟨#[7]⟩⟩, .normal⟩
    let act (f : ScriptedCodec → ScriptedCodec) : Input ScriptedCodec := .codec fun w => (f w, [])
    let release (n : ℕ) : Input ScriptedCodec := .codec fun w =>
      ({ w with heldPictures := w.heldPictures.drop n }, w.heldPictures.take n)
    let inputs : List (Input ScriptedCodec) :=
      [.receive 0 (object 0 .key 100), .receive 0 (object 1 .delta 200), .tick 5, .tick 6,
        release 1, .render, act fun w => { w.crash with createFails := 1 },
        .receive 7 (object 2 .key 300), .tick 12, release 1, .tick 13,
        .receive 14 (object 3 .key 400), .tick 19, release 1, .tick 20]
    let fresh := Player.new settings ({ holds := true, shift := 7 } : ScriptedCodec) config
      (.empty 4) 0
    let log := fresh.minutes ScriptedCodec.decoders inputs
    OneForOne log ∧
      (∃ shown : List Shown,
        fresh.offered ScriptedCodec.decoders inputs = shown.map Shown.rendering ∧
        (∀ x ∈ shown, Answers log x.source x.picture) ∧
        shown.Pairwise fun x y => x.source.place < y.source.place) ∧
      (fresh.offered ScriptedCodec.decoders inputs).map
          (fun r => (r.picture.timestamp, r.senderTimestamp)) =
        [(107, some 100), (207, some 200), (407, some 400)] := by
  intro settings config object act release inputs fresh log
  have hone : OneForOne log := by decide +kernel
  exact ⟨hone, (sender_timestamps ScriptedCodec.decoders settings _ config (.empty 4) 0 inputs
    hone).1, by decide +kernel⟩

end Player

end LiveMedia
