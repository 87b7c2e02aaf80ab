import LiveMedia.Payload
import LiveMedia.Proofs.Json.Reading

/-!
# Metadata in JSON text

Metadata is given by the members of an object: each known key once, except for a duration that is
left out, and whatever other members there are. Members that do not give metadata are refused.
-/

namespace LiveMedia
set_option autoImplicit false

open Json

namespace Metadata

/-- The members of an object give this metadata. -/
structure GivenBy (m : Metadata) (fields : List (String × Node)) : Prop where
  kind : Node.valuesOf "type" fields = [(Value.text m.kind.name).node]
  timestamp : Node.valuesOf "timestamp" fields = [(Value.int m.timestamp.toInt).node]
  duration :
    Node.valuesOf "duration" fields = [(Value.ofOption (fun d => .nat d.toNat) m.duration).node] ∨
      m.duration = none ∧ Node.valuesOf "duration" fields = []

/-- What the members of an object may lack to give metadata. -/
inductive Misgiven (fields : List (String × Node)) : Prop where
  | repeated {name : String} (hname : name ∈ fieldNames)
      (h : 1 < (Node.valuesOf name fields).length)
  | missing {name : String} (hname : name = "type" ∨ name = "timestamp")
      (h : Node.valuesOf name fields = [])
  | timestamp {v : Node} (hv : v ∈ Node.valuesOf "timestamp" fields)
      (h : v.Unfit (-2 ^ 63) (2 ^ 63 - 1))
  | duration {v : Node} (hv : v ∈ Node.valuesOf "duration" fields) (h : v.Unfit 0 (2 ^ 64 - 1))

theorem nodup_fieldNames : fieldNames.Nodup := by decide

theorem GivenBy.unrepeated {m : Metadata} {fields : List (String × Node)} (h : m.GivenBy fields) :
    Node.Unrepeated fieldNames fields := by
  unfold Node.Unrepeated fieldNames
  rw [List.forall_mem_cons, List.forall_mem_cons, List.forall_mem_singleton, h.kind, h.timestamp]
  refine ⟨Nat.le_refl 1, Nat.le_refl 1, ?_⟩
  rcases h.duration with hduration | ⟨-, hduration⟩ <;> rw [hduration]
  · exact Nat.le_refl 1
  · exact Nat.zero_le 1

variable {fields : List (String × Node)} {members : List (List UInt8 × Node)}

/-- The record that an object without repeated keys is read as. -/
theorem ofNode?_object (hkeys : Node.Keyed fields members)
    (hfields : Node.Unrepeated fieldNames fields) :
    ofNode? (.object members) = do
      let kind ← (Node.valuesOf "type" fields).head?.bind
        (Node.choice? false ChunkKind.all ChunkKind.name)
      let timestamp ← (Node.valuesOf "timestamp" fields).head?.bind Node.int64?
      let duration ← (Node.valuesOf "duration" fields).head?.elim (some none)
        (Node.nullable? (Node.nat? 64))
      return { kind, timestamp, duration := duration.map Nat.toUInt64 } := by
  have hkind : (Node.record fieldNames fields).get 0 = (Node.valuesOf "type" fields).head? :=
    Node.get_record rfl fields
  have htimestamp : (Node.record fieldNames fields).get 1 =
      (Node.valuesOf "timestamp" fields).head? := Node.get_record rfl fields
  have hduration : (Node.record fieldNames fields).get 2 =
      (Node.valuesOf "duration" fields).head? := Node.get_record rfl fields
  unfold ofNode? Fields.required? Fields.defaulted?
  rw [Node.fields?_object nodup_fieldNames hkeys, if_pos hfields]
  simp only [Option.bind_eq_bind, Option.bind_some, hkind, htimestamp, hduration]
  cases (Node.valuesOf "duration" fields).head? <;> rfl

theorem ofNode?_of_givenBy (hkeys : Node.Keyed fields members) {m : Metadata}
    (h : m.GivenBy fields) : ofNode? (.object members) = some m := by
  obtain ⟨kind, timestamp, duration⟩ := m
  have hkind : Node.choice? false ChunkKind.all ChunkKind.name (Value.text kind.name).node =
      some kind := Node.choice?_text (by decide) kind.mem_all false
  have hduration : (Node.valuesOf "duration" fields).head?.elim (some none)
      (Node.nullable? (Node.nat? 64)) = some (duration.map UInt64.toNat) := by
    rcases h.duration with hvalues | ⟨hnone, hvalues⟩
    · rw [hvalues]
      exact Node.nullable?_nat (Nat.le_refl 64) UInt64.toNat_lt duration
    · dsimp only at hnone
      rw [hvalues, hnone]
      rfl
  have hback : (duration.map UInt64.toNat).map Nat.toUInt64 = duration :=
    Node.map_size_back (fun d => d.ofNat_toNat) duration
  rw [ofNode?_object hkeys h.unrepeated, h.kind, h.timestamp, hduration]
  simp only [List.head?_cons, Option.bind_some, hkind, Node.int64?_int, Option.bind_eq_bind]
  exact congrArg (fun d => some (Metadata.mk kind timestamp d)) hback

theorem ofNode?_of_misgiven (hkeys : Node.Keyed fields members) (h : Misgiven fields) :
    ofNode? (.object members) = none := by
  by_cases hfields : Node.Unrepeated fieldNames fields
  · rw [ofNode?_object hkeys hfields]
    cases h with
    | @repeated name hname h => exact absurd (hfields name hname) (Nat.not_le.mpr h)
    | @missing name hname h =>
      rcases hname with rfl | rfl <;> rw [h]
      · rfl
      · cases (Node.valuesOf "type" fields).head?.bind _ <;> rfl
    | @timestamp v hv h =>
      rw [Node.head?_valuesOf hfields (by decide) hv, Option.bind_some, Node.int64?_of_unfit h]
      cases (Node.valuesOf "type" fields).head?.bind _ <;> rfl
    | @duration v hv h =>
      rw [Node.head?_valuesOf hfields (by decide) hv, Option.elim_some,
        Node.nullable?_of_unfit h (Node.nat?_of_unfit h)]
      cases (Node.valuesOf "type" fields).head?.bind _ with
      | none => rfl
      | some kind => cases (Node.valuesOf "timestamp" fields).head?.bind Node.int64? <;> rfl
  · unfold ofNode?
    rw [Node.fields?_object nodup_fieldNames hkeys, if_neg hfields]
    rfl

variable {text : List UInt8}

theorem parse?_of_givenBy (htext : ObjectText fields text) {m : Metadata} (h : m.GivenBy fields) :
    parse? text = some m := by
  obtain ⟨members, hkeys, hparse⟩ := htext.parse?
  unfold parse?
  rw [hparse, Option.bind_some, ofNode?_of_givenBy hkeys h]

theorem parse?_of_misgiven (htext : ObjectText fields text) (h : Misgiven fields) :
    parse? text = none := by
  obtain ⟨members, hkeys, hparse⟩ := htext.parse?
  unfold parse?
  rw [hparse, Option.bind_some, ofNode?_of_misgiven hkeys h]

theorem parse?_append (htext : ObjectText fields text) {rest : List UInt8} (hrest : ¬ Blank rest) :
    parse? (text ++ rest) = none := by
  unfold parse?
  rw [htext.parse?_append hrest]
  rfl

theorem parse?_render (m : Metadata) : parse? (bytesOf m.render) = some m := by
  have hparse : Node.parse? (bytesOf m.render) = some m.toJson.node := by
    apply Value.parse?_render
    obtain ⟨kind, timestamp, duration⟩ := m
    cases duration <;> exact nofun
  unfold parse?
  rw [hparse, Option.bind_some]
  exact ofNode?_of_givenBy (Value.keyed_memberNodes _) ⟨rfl, rfl, Or.inl rfl⟩

theorem size_render_lt (m : Metadata) : m.render.toUTF8.size < 2 ^ 32 := by
  have hkind : (bytesOf (Text.encode m.kind.name)).length ≤ 7 := by
    cases m.kind <;> decide
  have htimestamp := length_intText_le (n := m.timestamp.toInt) m.timestamp.le_toInt
    (by have := m.timestamp.toInt_lt; omega)
  have hduration :
      (bytesOf (Value.ofOption (fun d => .nat d.toNat) m.duration).render).length ≤ 21 := by
    cases m.duration with
    | none => decide
    | some d => exact length_intText_le (by omega) (by have := d.toNat_lt; omega)
  have hsize : m.render.toUTF8.size = (bytesOf m.render).length := rfl
  have htype : (bytesOf (Text.encode "type")).length = 6 := rfl
  have hat : (bytesOf (Text.encode "timestamp")).length = 11 := rfl
  have hlasts : (bytesOf (Text.encode "duration")).length = 10 := rfl
  have hsigns : ∀ s ∈ ["\x7b", "\x7d", ":", ","], (bytesOf s).length = 1 := by decide
  rw [hsize]
  unfold render toJson
  simp only [Value.render, Value.renderMembers, Value.commaSeparated, List.foldl_cons,
    List.foldl_nil, bytesOf_append, List.length_append, htype, hat, hlasts,
    hsigns "\x7b" (by decide), hsigns "\x7d" (by decide), hsigns ":" (by decide),
    hsigns "," (by decide)]
  omega

/-- How many bytes the text of the metadata takes. -/
def textSize (m : Metadata) : Nat := m.render.toUTF8.size

end Metadata

end LiveMedia
