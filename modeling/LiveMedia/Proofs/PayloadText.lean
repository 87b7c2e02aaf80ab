import LiveMedia.Proofs.Payload

/-!
# Payloads of any writer

A payload is unpacked whatever writer laid out the text of its metadata: the members of the object
may stand in any order, among other members and with blanks between the tokens. It is refused when
the members do not give metadata or when something stands behind the object.
-/

namespace LiveMedia
set_option autoImplicit false

open Json

namespace Chunk

variable {fields : List (String × Node)} {text : List UInt8}

/-- The metadata that the members give is read with any data behind it. Members that repeat, lack
or overstep a field are refused, and so is an object with more than blanks behind it. -/
theorem unpack_objectText (htext : ObjectText fields text) (hsize : text.length < 2 ^ 32)
    (data : ByteArray) :
    (∀ m : Metadata, m.GivenBy fields →
      unpack (Payload.frame text.toByteArray data) = .ok { m with data }) ∧
    (Metadata.Misgiven fields →
      unpack (Payload.frame text.toByteArray data) = .error .invalidMetadata) ∧
    (∀ rest, ¬ Blank rest → (text ++ rest).length < 2 ^ 32 →
      unpack (Payload.frame (text ++ rest).toByteArray data) = .error .invalidMetadata) := by
  have hframe : ∀ bs : List UInt8, bs.length < 2 ^ 32 →
      unpack (Payload.frame bs.toByteArray data) =
        (Metadata.parse? bs).elim (.error .invalidMetadata) fun m => .ok { m with data } := by
    intro bs hbs
    rw [← List.size_toByteArray] at hbs
    have hread := unpack_frame hbs data
    rwa [List.toList_data_toByteArray] at hread
  refine ⟨fun m hgiven => ?_, fun hmisgiven => ?_, fun rest hrest hlength => ?_⟩
  · rw [hframe text hsize, Metadata.parse?_of_givenBy htext hgiven, Option.elim_some]
  · rw [hframe text hsize, Metadata.parse?_of_misgiven htext hmisgiven, Option.elim_none]
  · rw [hframe _ hlength, Metadata.parse?_append htext hrest, Option.elim_none]

/-- Another member in front, an escape in a key, blanks and no duration. -/
def handwritten : List UInt8 :=
  bytesOf "\x7b\"x\":[\x7b\x7d], \"\\u0074ype\" : \"delta\",\"timestamp\":-5 \x7d"

theorem unpack_handwritten :
    unpack (Payload.frame handwritten.toByteArray ⟨#[7]⟩) =
      .ok { kind := .delta, timestamp := -5, duration := none, data := ⟨#[7]⟩ } ∧
    unpack (Payload.frame (handwritten ++ [44]).toByteArray ⟨#[7]⟩) = .error .invalidMetadata ∧
    unpack (Payload.frame (bytesOf "\x7b\x7d").toByteArray ⟨#[7]⟩) = .error .invalidMetadata := by
  have htext : ObjectText
      [("x", .array [.object []]), ("type", (Value.text "delta").node),
        ("timestamp", (Value.int (-5)).node)] handwritten := by
    have hword : ∀ s, TokenText (.text (Text.content s)) (34 :: Text.content s ++ [34]) :=
      fun s => .text (Text.spelling_content s).wellFormed
    have hescaped : Text.Spelling "type".toList
        (92 :: 117 :: ([48, 48, 55, 52] ++ Text.content "ype")) := by
      refine Text.Spelling.unit (u := 116) ?_ (by decide) (Text.spelling_content "ype")
      refine ⟨48, 48, 55, 52, 0, 0, 7, 4, rfl, ?_⟩
      unfold Text.HexDigit
      decide
    have hnumber : TokenText (.number (.ofInt (-5))) [45, 53] := by
      have hspelling := Number.spelling_ofInt (-5)
      rw [Number.digitsOf_of_lt (by decide)] at hspelling
      exact .number hspelling
    refine ⟨[(Text.content "x", _), (_, _), (Text.content "timestamp", _)],
      .cons ⟨Text.spelling_content "x", rfl⟩ (.cons ⟨hescaped, rfl⟩
        (.cons ⟨Text.spelling_content "timestamp", rfl⟩ .nil)), ?_⟩
    exact @Layout.cons _ _ [] [123] _ (by decide) .beginObject <|
      @Layout.cons _ _ [] _ _ (by decide) (hword "x") <|
      @Layout.cons _ _ [] [58] _ (by decide) .colon <|
      @Layout.cons _ _ [] [91] _ (by decide) .beginArray <|
      @Layout.cons _ _ [] [123] _ (by decide) .beginObject <|
      @Layout.cons _ _ [] [125] _ (by decide) .endObject <|
      @Layout.cons _ _ [] [93] _ (by decide) .endArray <|
      @Layout.cons _ _ [] [44] _ (by decide) .comma <|
      @Layout.cons _ _ [32] _ _ (by decide) (.text hescaped.wellFormed) <|
      @Layout.cons _ _ [32] [58] _ (by decide) .colon <|
      @Layout.cons _ _ [32] _ _ (by decide) (hword "delta") <|
      @Layout.cons _ _ [] [44] _ (by decide) .comma <|
      @Layout.cons _ _ [] _ _ (by decide) (hword "timestamp") <|
      @Layout.cons _ _ [] [58] _ (by decide) .colon <|
      @Layout.cons _ _ [] _ _ (by decide) hnumber <|
      @Layout.cons _ _ [32] [125] _ (by decide) .endObject <| .nil (by decide)
  have hempty : ObjectText [] (bytesOf "\x7b\x7d") := by
    refine ⟨[], .nil, ?_⟩
    exact @Layout.cons _ _ [] [123] _ (by decide) .beginObject <|
      @Layout.cons _ _ [] [125] _ (by decide) .endObject <| .nil (by decide)
  have hread := unpack_objectText htext (by decide) ⟨#[7]⟩
  refine ⟨?_, ?_, ?_⟩
  · exact hread.1 ⟨.delta, -5, none⟩ ⟨rfl, rfl, Or.inr ⟨rfl, rfl⟩⟩
  · exact hread.2.2 [44] (by decide) (by decide)
  · exact (unpack_objectText hempty (by decide) ⟨#[7]⟩).2.1 (.missing (Or.inl rfl) rfl)

end Chunk

end LiveMedia
