import Mathlib.Data.List.Forall2
import LiveMedia.Codec.Simulated
import LiveMedia.Proofs.Payload
import LiveMedia.Proofs.Publisher.Custody
import LiveMedia.Proofs.Publisher.StreamCalls

/-!
# Time stamps at the other end

Whoever unpacks the objects of a stream reads its chunks again, on a time line that starts with the
first chunk of the stream, whether or not that one went through.
-/

namespace LiveMedia
set_option autoImplicit false

variable {W S : Type}

/-- A chunk as it is read by a receiver, on the time line that starts with `first`. -/
structure ReadAs (first c read : Chunk) : Prop where
  kind : read.kind = c.kind
  duration : read.duration = c.duration
  data : read.data = c.data
  time : read.timestamp.toInt = c.timestamp.toInt - first.timestamp.toInt

namespace Chunk

/-- The time between two chunks is a 64-bit number. -/
def Within (first c : Chunk) : Prop :=
  -2 ^ 63 ≤ c.timestamp.toInt - first.timestamp.toInt ∧
    c.timestamp.toInt - first.timestamp.toInt < 2 ^ 63

theorem within_self (c : Chunk) : c.Within c := by
  unfold Within
  omega

theorem Within.readAs {first c : Chunk} (h : first.Within c) :
    ReadAs first c (c.rebased first.timestamp) where
  kind := rfl
  duration := rfl
  data := rfl
  time := by
    unfold Within at h
    rw [rebased_timestamp, Int64.toInt_sub]
    exact Int.bmod_eq_of_le (by omega) (by omega)

end Chunk

theorem ReadAs.le {first c d c' d' : Chunk} (hc : ReadAs first c c') (hd : ReadAs first d d')
    (hle : c.timestamp ≤ d.timestamp) : c'.timestamp ≤ d'.timestamp := by
  rw [Int64.le_iff_toInt_le] at hle ⊢
  rw [hc.time, hd.time]
  omega

namespace Numbering.InStream

variable {settings : PublishSettings} {epoch : ℕ} {cs : List Chunk}
  {sent : List (Transmission × Bool)}

/-- Each chunk of a stream is sent on the time line of the first one. -/
theorem stamps_calls {b : Broadcast W S}
    (h : b.publisher.numbering.InStream settings epoch cs sent) (enc : EncoderFamily W)
    (link : Link S) {actions : List (Broadcast.Action W)}
    (hactions : ∀ a ∈ actions, a.isBegin = false) {first : Chunk}
    (hfirst : (cs ++ Broadcast.handled actions).head? = some first) :
    stamps ((b.calls enc link actions).map Prod.fst) =
      (Broadcast.handled actions).map fun c => (epoch, (c.rebased first.timestamp).pack) := by
  induction actions generalizing b cs sent with
  | nil => rfl
  | cons a rest ih =>
    have hstep := h.step enc link (hactions a List.mem_cons_self)
    rw [Broadcast.handled_cons, ← List.append_assoc] at hfirst
    have hrest := ih hstep (fun x hx => hactions x (List.mem_cons_of_mem a hx)) hfirst
    rw [b.calls_cons, Broadcast.handled_cons, List.map_append, stamps_append, hrest,
      List.map_append]
    congr 1
    cases hchunk : a.chunk? with
    | none =>
      rw [Broadcast.handled_of_no_chunk hchunk, List.map_nil]
      exact b.filterMap_calls_of_no_chunk enc link rfl hchunk
    | some c =>
      obtain rfl := Broadcast.Action.eq_handle hchunk
      have horigin : (cs.head?.getD c).timestamp = first.timestamp := by
        cases cs with
        | nil => exact congrArg (fun c : Chunk => c.timestamp) (Option.some.inj hfirst)
        | cons d ds => exact congrArg (fun c : Chunk => c.timestamp) (Option.some.inj hfirst)
      rw [(b.step_handle enc link c).1, Numbering.stamps_transmissions, h.origin_getD c,
        h.epoch_eq, horigin]
      rfl

end Numbering.InStream

namespace Broadcast

variable (enc : EncoderFamily W) (link : Link S)

/-- The numbering of a stream that has just begun, whatever came before it. -/
theorem inStream_begin (b : Broadcast W S) : (b.step enc link .begin).publisher.numbering.InStream
    b.publisher.numbering.settings (b.publisher.numbering.epoch + 1) [] [] := by
  rw [(b.step_other enc link (a := .begin) rfl).2]
  exact .begun _

/-- In every life of a publisher, on every link and whatever fails: the objects that are sent for
the chunks of a stream carry the number of the stream and unpack to chunks of the same kinds,
durations and data, with their times counted from the first chunk of this stream, which is itself
at zero; and times that do not go back do not go back at the other end. -/
theorem sent_times (settings : PublishSettings) (codec : W) (clock : CaptureClock) (world : S)
    (start : ℕ) (before stream : List (Action W)) (first : Chunk) (rest : List Chunk) :
    let b : Broadcast W S := ⟨Publisher.new settings codec clock start, world, start⟩
    let begun := b.run enc link (before ++ [.begin])
    (∀ a ∈ stream, a.isBegin = false) → handled stream = first :: rest →
    (∀ c ∈ rest, first.Within c) →
    ∃ read, (stamps ((begun.calls enc link stream).map Prod.fst)).map
        (fun sent => (sent.1, Chunk.unpack sent.2)) =
      read.map (fun c => (before.countP Action.isBegin + 1, .ok c)) ∧
    List.Forall₂ (ReadAs first) (first :: rest) read ∧
    read.head?.map (fun c => c.timestamp.toInt) = some 0 ∧
    ((first :: rest).Pairwise (fun c d => c.timestamp ≤ d.timestamp) →
      read.Pairwise fun c d => c.timestamp ≤ d.timestamp) := by
  intro b begun hstream hhandled hwithin
  have hall : ∀ c ∈ first :: rest, ReadAs first c (c.rebased first.timestamp) := by
    intro c hc
    rcases List.mem_cons.mp hc with rfl | hc
    · exact c.within_self.readAs
    · exact (hwithin c hc).readAs
  have hbegun : begun.publisher.numbering.InStream settings (before.countP Action.isBegin + 1)
      [] [] := by
    obtain ⟨hsettings, hepoch⟩ := b.numbering_run enc link before
    have hin := (b.run enc link before).inStream_begin enc link
    have hnone : b.publisher.numbering.epoch = 0 := rfl
    rw [hsettings, hepoch, hnone, Nat.zero_add] at hin
    have heq : begun = (b.run enc link before).step enc link .begin := b.run_append enc link _ _
    rwa [heq]
  have hfirst : ([] ++ handled stream).head? = some first := by
    rw [hhandled]
    rfl
  have hstamps := hbegun.stamps_calls enc link hstream hfirst
  refine ⟨(first :: rest).map (·.rebased first.timestamp), ?_, ?_, ?_, fun hcs => ?_⟩
  · rw [hstamps, hhandled, List.map_map, List.map_map]
    exact List.map_congr_left fun c _ => congrArg (Prod.mk _) (Chunk.unpack_pack _)
  · exact List.forall₂_map_right_iff.mpr (List.forall₂_same.mpr hall)
  · have hzero : (first.rebased first.timestamp).timestamp.toInt =
        first.timestamp.toInt - first.timestamp.toInt := (hall first List.mem_cons_self).time
    rw [Int.sub_self] at hzero
    exact congrArg some hzero
  · rw [List.pairwise_map]
    exact hcs.imp_of_mem fun hc hd hle => (hall _ hc).le (hall _ hd) hle

end Broadcast

namespace Rebasing

def chunk (kind : ChunkKind) (t : Int64) : Chunk :=
  { kind, timestamp := t, duration := none, data := ⟨#[1, 2]⟩ }

/-- A link on which every second call fails. -/
def secondFails : Link ℕ := ⟨fun _ n => (if n % 2 = 0 then .error .closed else .ok (), n + 1)⟩

def earlier : List (Broadcast.Action SimulatedCodec) :=
  [.begin, .handle (chunk .key 7), .endStream]

/-- The object of the first chunk fails. -/
def stream : List (Broadcast.Action SimulatedCodec) :=
  [.handle (chunk .key (-5)), .handle (chunk .delta 20), .handle (chunk .key 20)]

end Rebasing

open Rebasing in
theorem second_stream_sent_times :
    let enc := SimulatedCodec.encoders .video
    let b : Broadcast SimulatedCodec ℕ :=
      ⟨.new ⟨.video, 1, 30, 2⟩ {} (.startingAt 0) 0, 0, 0⟩
    let begun := b.run enc secondFails (earlier ++ [.begin])
    (∀ c ∈ [chunk .delta 20, chunk .key 20], (chunk .key (-5)).Within c) ∧
    ∃ read, (stamps ((begun.calls enc secondFails stream).map Prod.fst)).map
        (fun sent => (sent.1, Chunk.unpack sent.2)) = read.map (fun c => (2, .ok c)) ∧
      List.Forall₂ (ReadAs (chunk .key (-5)))
        [chunk .key (-5), chunk .delta 20, chunk .key 20] read ∧
      read.head?.map (fun c => c.timestamp.toInt) = some 0 ∧
      read.Pairwise fun c d => c.timestamp ≤ d.timestamp := by
  intro enc b begun
  have hwithin : ∀ c ∈ [chunk .delta 20, chunk .key 20], (chunk .key (-5)).Within c := by
    unfold Chunk.Within
    decide +kernel
  obtain ⟨read, hread, hchunks, hzero, horder⟩ := Broadcast.sent_times enc secondFails
    ⟨.video, 1, 30, 2⟩ {} (.startingAt 0) 0 0 earlier stream (chunk .key (-5))
    [chunk .delta 20, chunk .key 20] (by decide +kernel) rfl hwithin
  exact ⟨hwithin, read, hread, hchunks, hzero, horder (by decide +kernel)⟩

end LiveMedia
