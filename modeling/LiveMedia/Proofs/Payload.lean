import LiveMedia.Proofs.Metadata

/-!
# Payloads are read back

The length in front of the text of the metadata tells it from the data. So a chunk that was packed
is unpacked unchanged.
-/

namespace LiveMedia
set_option autoImplicit false

namespace Payload

theorem decodeLength_encodeLength {n : Nat} (h : n < 2 ^ 32) :
    decodeLength (encodeLength n) = n := by
  unfold decodeLength encodeLength
  simp
  omega

theorem size_frame (text data : ByteArray) :
    (frame text data).size = lengthBytes + text.size + data.size := by
  unfold frame
  rw [ByteArray.size_append, ByteArray.size_append, size_encodeLength]

theorem frame_append (text data more : ByteArray) :
    frame text data ++ more = frame text (data ++ more) := by
  unfold frame
  rw [ByteArray.append_assoc]

theorem length_of_frame (text data : ByteArray) :
    (frame text data).extract 0 lengthBytes = encodeLength text.size := by
  unfold frame
  rw [ByteArray.append_assoc, ByteArray.extract_append_eq_left (size_encodeLength _).symm]

theorem text_of_frame (text data : ByteArray) :
    (frame text data).extract lengthBytes (lengthBytes + text.size) = text := by
  have hshift := ByteArray.extract_append_size_add' (a := encodeLength text.size)
    (b := text ++ data) (i := 0) (j := text.size) (size_encodeLength _).symm
  rw [Nat.add_zero] at hshift
  unfold frame
  rw [ByteArray.append_assoc, hshift, ByteArray.extract_append_eq_left rfl]

theorem data_of_frame (text data : ByteArray) :
    (frame text data).extract (lengthBytes + text.size) (frame text data).size = data := by
  have hfront : (encodeLength text.size ++ text).size = lengthBytes + text.size := by
    rw [ByteArray.size_append, size_encodeLength]
  rw [size_frame]
  exact ByteArray.extract_append_eq_right hfront.symm (by rw [hfront])

/-- A cut behind the text is a cut of the data. -/
theorem extract_frame {text data : ByteArray} {k : Nat} (h : lengthBytes + text.size ≤ k) :
    (frame text data).extract 0 k = frame text (data.extract 0 (k - lengthBytes - text.size)) := by
  have hfront : (encodeLength text.size ++ text).size = lengthBytes + text.size := by
    rw [ByteArray.size_append, size_encodeLength]
  have hkept : (encodeLength text.size ++ text).extract 0 k = encodeLength text.size ++ text := by
    have hmax := ByteArray.extract_zero_max_size (a := encodeLength text.size ++ text) (i := k)
    rwa [Nat.max_eq_left (by omega)] at hmax
  unfold frame
  rw [ByteArray.extract_append, hkept, hfront, Nat.zero_sub, Nat.sub_add_eq]

end Payload

namespace Chunk

/-- The text behind the length is the metadata, whoever wrote it, and the rest is the data. -/
theorem unpack_frame {text : ByteArray} (htext : text.size < 2 ^ 32) (data : ByteArray) :
    unpack (Payload.frame text data) =
      (Metadata.parse? text.data.toList).elim (.error .invalidMetadata)
        fun m => .ok { m with data } := by
  have hlength := Payload.decodeLength_encodeLength htext
  have hsize := Payload.size_frame text data
  unfold unpack
  rw [if_neg (by omega), Payload.length_of_frame, hlength]
  dsimp only
  rw [if_neg (by omega), Payload.text_of_frame]
  cases Metadata.parse? text.data.toList with
  | none => rfl
  | some m =>
    dsimp only
    rw [Payload.data_of_frame, Option.elim_some]

theorem unpack_frame_render (m : Metadata) (data : ByteArray) :
    unpack (Payload.frame m.render.toUTF8 data) = .ok { m with data } := by
  have hparse : Metadata.parse? m.render.toUTF8.data.toList = some m := m.parse?_render
  rw [unpack_frame m.size_render_lt, hparse, Option.elim_some]

theorem unpack_pack (c : Chunk) : unpack c.pack = .ok c :=
  unpack_frame_render c.toMetadata c.data

theorem unpack_pack_append (c : Chunk) (more : ByteArray) :
    unpack (c.pack ++ more) = .ok { c with data := c.data ++ more } := by
  unfold pack
  rw [Payload.frame_append, unpack_frame_render]

theorem size_pack (c : Chunk) :
    c.pack.size = Payload.lengthBytes + c.textSize + c.data.size := Payload.size_frame _ _

/-- What stands behind a cut is not read: only the length of the text, and that only where the cut
leaves all of it. -/
theorem unpack_cut (c : Chunk) (k : Nat) :
    unpack (c.pack.extract 0 k) =
      if k < Payload.lengthBytes then .error (.truncated Payload.lengthBytes k)
      else if k < Payload.lengthBytes + c.textSize then
        .error (.truncated (Payload.lengthBytes + c.textSize) k)
      else .ok { c with data := c.data.extract 0 (k - Payload.lengthBytes - c.textSize) } := by
  have hpack := c.size_pack
  have hsize : (c.pack.extract 0 k).size = min k c.pack.size := by
    rw [ByteArray.size_extract, Nat.sub_zero]
  by_cases hshort : k < Payload.lengthBytes
  · rw [if_pos hshort]
    unfold unpack
    rw [if_pos (by omega), hsize, Nat.min_eq_left (by omega)]
  rw [if_neg hshort]
  by_cases hcut : k < Payload.lengthBytes + c.textSize
  · have hlength : (c.pack.extract 0 k).extract 0 Payload.lengthBytes =
        Payload.encodeLength c.textSize := by
      rw [ByteArray.extract_extract, Nat.add_zero, Nat.zero_add, Nat.min_eq_left (by omega)]
      exact Payload.length_of_frame _ _
    have hdecode : Payload.decodeLength (Payload.encodeLength c.textSize) = c.textSize :=
      Payload.decodeLength_encodeLength c.size_render_lt
    rw [if_pos hcut]
    unfold unpack
    rw [if_neg (by omega), hlength, hdecode]
    simp only
    rw [if_pos (by omega), hsize, Nat.min_eq_left (by omega)]
  · rw [if_neg hcut]
    unfold pack
    rw [Payload.extract_frame (Nat.le_of_not_lt hcut), unpack_frame_render]
    rfl

theorem pack_injective : Function.Injective pack := by
  intro c d hpack
  have hread : Except.ok c = (Except.ok d : Except WireFault Chunk) := by
    rw [← c.unpack_pack, ← d.unpack_pack, hpack]
  exact Except.ok.inj hread

/-- A payload is its chunk and nothing else: cut short it is refused, with the size it lacks, until
the metadata is complete, and from there on every byte is a byte of the data. -/
theorem payload_laws :
    (∀ (c : Chunk) (k : Nat), unpack (c.pack.extract 0 k) =
      if k < 4 then .error (.truncated 4 k)
      else if k < 4 + c.textSize then .error (.truncated (4 + c.textSize) k)
      else .ok { c with data := c.data.extract 0 (k - 4 - c.textSize) }) ∧
    (∀ (c : Chunk) (more : ByteArray),
      unpack (c.pack ++ more) = .ok { c with data := c.data ++ more }) ∧
    (∀ c : Chunk, unpack c.pack = .ok c) ∧
    Function.Injective pack :=
  ⟨unpack_cut, unpack_pack_append, unpack_pack, pack_injective⟩

end Chunk

end LiveMedia
