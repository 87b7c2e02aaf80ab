import LiveMedia.Proofs.Objects
import LiveMedia.Proofs.Payload
import LiveMedia.Proofs.Publisher.StreamCalls

/-!
# The objects of a stream

Whatever fails on the link, a stream hands over one object for each of its chunks, and some ends of
groups between them. A chunk is sent after every object that stands before it, and nothing that is
sent before it stands behind it.
-/

namespace LiveMedia
set_option autoImplicit false

variable {W S : Type}

/-- The object that carries a chunk, after these chunks of its stream. -/
def dataObject (settings : PublishSettings) (epoch : Nat) (cs : List Chunk) (c : Chunk) :
    Received where
  track := settings.track
  epoch := epoch
  group := groupOf (cs ++ [c])
  object := objectOf (cs ++ [c])
  payload := (c.rebased (cs.head?.getD c).timestamp).pack
  status := .normal

def groupEnd? (settings : PublishSettings) (epoch : Nat) (cs : List Chunk) (c : Chunk) :
    Option Received :=
  if cs ≠ [] ∧ c.kind = .key ∧ 2 ≤ groupOf (cs ++ [c]) then
    some {
      track := settings.track
      epoch := epoch
      group := groupOf (cs ++ [c]) - 1
      object := objectOf cs + 1
      payload := ByteArray.empty
      status := .endOfGroup }
  else none

/-- The objects of some chunks that come after others in their stream. -/
def streamObjects (settings : PublishSettings) (epoch : Nat) :
    (cs : List Chunk) → List Chunk → List Received
  | _, [] => []
  | cs, c :: rest =>
    dataObject settings epoch cs c :: (groupEnd? settings epoch cs c).toList ++
      streamObjects settings epoch (cs ++ [c]) rest

theorem streamObjects_append (settings : PublishSettings) (epoch : Nat)
    (cs first second : List Chunk) : streamObjects settings epoch cs (first ++ second) =
      streamObjects settings epoch cs first ++
        streamObjects settings epoch (cs ++ first) second := by
  induction first generalizing cs with
  | nil => simp [streamObjects]
  | cons c rest ih => simp [streamObjects, ih]

theorem received?_chunkCalls (settings : PublishSettings) (epoch : Nat) (cs : List Chunk)
    (sent : List (Transmission × Bool)) (c : Chunk) :
    (chunkCalls settings epoch cs sent c).filterMap Transmission.received? =
      dataObject settings epoch cs c :: (groupEnd? settings epoch cs c).toList := by
  have hheader : ∀ header, (if headerKnown sent (groupOf (cs ++ [c])) then []
      else [Transmission.header header]).filterMap Transmission.received? = [] := by
    intro header
    split <;> rfl
  unfold chunkCalls groupEnd?
  rw [List.filterMap_append, hheader, List.nil_append]
  split <;> rfl

namespace Numbering.InStream

variable {settings : PublishSettings} {epoch : Nat} {cs : List Chunk}
  {sent : List (Transmission × Bool)}

theorem received?_calls {b : Broadcast W S}
    (h : b.publisher.numbering.InStream settings epoch cs sent) (enc : EncoderFamily W)
    (link : Link S) (actions : List (Broadcast.Action W))
    (hactions : ∀ a ∈ actions, a.isBegin = false) :
    ((b.calls enc link actions).map Prod.fst).filterMap Transmission.received? =
      streamObjects settings epoch cs (Broadcast.handled actions) := by
  induction actions generalizing b cs sent with
  | nil => rfl
  | cons a rest ih =>
    have hstep := h.step enc link (hactions a List.mem_cons_self)
    have hrest := ih hstep fun x hx => hactions x (List.mem_cons_of_mem a hx)
    rw [b.calls_cons, Broadcast.handled_cons, List.map_append, List.filterMap_append, hrest,
      streamObjects_append]
    congr 1
    cases hchunk : a.chunk? with
    | none =>
      rw [Broadcast.handled_of_no_chunk hchunk, streamObjects]
      exact b.filterMap_calls_of_no_chunk enc link rfl hchunk
    | some c =>
      obtain rfl := Broadcast.Action.eq_handle hchunk
      rw [(b.step_handle enc link c).1, h.transmissions_eq c, received?_chunkCalls]
      change _ = streamObjects settings epoch cs [c]
      simp [streamObjects]

end Numbering.InStream

section Order

variable (settings : PublishSettings) (epoch : Nat)

@[simp] theorem isControl_dataObject (cs : List Chunk) (c : Chunk) :
    (dataObject settings epoch cs c).isControl = false := by
  have hsize : ∀ d : Chunk, (d.pack.size == 0) = false := by
    intro d
    unfold Chunk.pack Payload.frame
    rw [ByteArray.size_append, ByteArray.size_append, Payload.size_encodeLength]
    exact beq_false_of_ne (by unfold Payload.lengthBytes; omega)
  unfold Received.isControl dataObject
  simp only [hsize]
  rfl

@[simp] theorem chunk?_dataObject (cs : List Chunk) (c : Chunk) :
    (dataObject settings epoch cs c).chunk? = some (c.rebased (cs.head?.getD c).timestamp) := by
  unfold Received.chunk?
  rw [isControl_dataObject, if_neg Bool.false_ne_true]
  unfold dataObject
  rw [Chunk.unpack_pack]
  rfl

/-- The end of a group is a control object that stands before the chunk it is sent behind. -/
theorem groupEnd?_cases {cs : List Chunk} {c : Chunk} {o : Received}
    (h : o ∈ (groupEnd? settings epoch cs c).toList) :
    o.isControl = true ∧ o.epoch = epoch ∧ o.slot < (dataObject settings epoch cs c).slot := by
  unfold groupEnd? at h
  split at h
  · rename_i hend
    rw [Option.toList_some, List.mem_singleton] at h
    subst h
    refine ⟨rfl, rfl, (Slot.lt_def _ _).mpr (Or.inl ?_)⟩
    change groupOf (cs ++ [c]) - 1 < groupOf (cs ++ [c])
    omega
  · exact absurd h List.not_mem_nil

theorem mem_streamObjects_cons {cs rest : List Chunk} {c : Chunk} {o : Received} :
    o ∈ streamObjects settings epoch cs (c :: rest) ↔
      o = dataObject settings epoch cs c ∨ o ∈ (groupEnd? settings epoch cs c).toList ∨
        o ∈ streamObjects settings epoch (cs ++ [c]) rest := by
  rw [streamObjects, List.cons_append, List.mem_cons, List.mem_append]

theorem epoch_of_mem_streamObjects {cs rest : List Chunk} {o : Received}
    (h : o ∈ streamObjects settings epoch cs rest) : o.epoch = epoch := by
  induction rest generalizing cs with
  | nil => exact absurd h List.not_mem_nil
  | cons c rest ih =>
    rcases (mem_streamObjects_cons settings epoch).mp h with rfl | h | h
    · rfl
    · exact (groupEnd?_cases settings epoch h).2.1
    · exact ih h

theorem slot_lt_of_mem_streamObjects {cs rest : List Chunk} {c : Chunk} {o : Received}
    (h : o ∈ streamObjects settings epoch (cs ++ [c]) rest) (hdata : o.isControl = false) :
    (dataObject settings epoch cs c).slot < o.slot := by
  induction rest generalizing cs c with
  | nil => exact absurd h List.not_mem_nil
  | cons next rest ih =>
    have hnext : (dataObject settings epoch cs c).slot <
        (dataObject settings epoch (cs ++ [c]) next).slot := by
      rw [Slot.lt_def]
      change groupOf (cs ++ [c]) < groupOf (cs ++ [c] ++ [next]) ∨ groupOf (cs ++ [c]) =
        groupOf (cs ++ [c] ++ [next]) ∧ objectOf (cs ++ [c]) < objectOf (cs ++ [c] ++ [next])
      rw [groupOf_append (by simp) next, objectOf_append (by simp) next]
      cases next.isKey with
      | true => exact Or.inl (Nat.lt_succ_self _)
      | false => exact Or.inr ⟨rfl, Nat.lt_succ_self _⟩
    rcases (mem_streamObjects_cons settings epoch).mp h with rfl | h | h
    · exact hnext
    · rw [(groupEnd?_cases settings epoch h).1] at hdata
      cases hdata
    · exact hnext.trans (ih h)

/-- A chunk is sent behind everything whose place is before its own, and before everything else. -/
theorem pairwise_streamObjects (cs rest : List Chunk) :
    (streamObjects settings epoch cs rest).Pairwise fun x y =>
      y.isControl = false → x.slot < y.slot := by
  induction rest generalizing cs with
  | nil => exact List.Pairwise.nil
  | cons c rest ih =>
    rw [streamObjects, List.cons_append]
    apply List.pairwise_cons.mpr
    constructor
    · intro o ho hdata
      rcases List.mem_append.mp ho with ho | ho
      · rw [(groupEnd?_cases settings epoch ho).1] at hdata
        cases hdata
      · exact slot_lt_of_mem_streamObjects settings epoch ho hdata
    · apply List.pairwise_append.mpr
      refine ⟨?_, ih (cs ++ [c]), ?_⟩
      · cases groupEnd? settings epoch cs c <;> simp
      · intro x hx y hy hdata
        exact (groupEnd?_cases settings epoch hx).2.2.trans
          (slot_lt_of_mem_streamObjects settings epoch hy hdata)

/-- What the objects of a stream hold for a decoder: its chunks, with times from zero on. -/
theorem chunk?_streamObjects {cs rest : List Chunk} {first : Chunk}
    (h : (cs ++ rest).head? = some first) :
    (streamObjects settings epoch cs rest).filterMap Received.chunk? =
      rest.map fun c => c.rebased first.timestamp := by
  induction rest generalizing cs with
  | nil => rfl
  | cons c rest ih =>
    have hfirst : cs.head?.getD c = first := by
      cases cs with
      | nil => exact Option.some.inj h
      | cons d ds => exact Option.some.inj h
    have hend : (groupEnd? settings epoch cs c).toList.filterMap Received.chunk? = [] := by
      rw [List.filterMap_eq_nil_iff]
      intro o ho
      unfold Received.chunk?
      rw [(groupEnd?_cases settings epoch ho).1, if_pos rfl]
    rw [streamObjects, List.cons_append, List.filterMap_cons, chunk?_dataObject,
      List.filterMap_append, hend, List.nil_append, hfirst, List.map_cons]
    exact congrArg (_ :: ·) (ih (by rw [List.append_assoc]; exact h))

end Order

end LiveMedia
