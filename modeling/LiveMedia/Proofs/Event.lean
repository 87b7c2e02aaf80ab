import LiveMedia.Event
import LiveMedia.Proofs.Json.Floats

/-!
# Events are read back

The text of an event, or of a codec configuration alone, is read as that event or configuration, as
long as the texts of its doubles are read as the doubles.
-/

namespace LiveMedia
set_option autoImplicit false

open Json

namespace CodecConfig

theorem ofNode?_node (c : CodecConfig) (h : ReadsBack c.framerate) :
    ofNode? c.toJson.node = some c := by
  obtain ⟨codec, width, height, bitrate, framerate, sampleRate, channels⟩ := c
  let r : Fields Node := ⟨false,
    [some (Value.text codec).node,
      some (Value.ofOption (fun n => .nat n.toNat) width).node,
      some (Value.ofOption (fun n => .nat n.toNat) height).node,
      some (Value.nat bitrate.toNat).node,
      some (Value.float framerate).node,
      some (Value.ofOption (fun n => .nat n.toNat) sampleRate).node,
      some (Value.ofOption (fun n => .nat n.toNat) channels).node]⟩
  have hfields : (CodecConfig.toJson
      ⟨codec, width, height, bitrate, framerate, sampleRate, channels⟩).node.fields? fieldNames =
        some r :=
    Node.fields?_of_keys (Value.keyed_memberNodes _) rfl (by decide)
  have hcodec : r.required? 0 Node.string? = some codec :=
    (Node.required?_of_get rfl _).trans (Node.string?_text codec)
  have hwidth : r.optional? 1 Node.isNull (Node.nat? 32) = some (width.map UInt32.toNat) :=
    Node.nullable?_nat (by decide) UInt32.toNat_lt width
  have hheight : r.optional? 2 Node.isNull (Node.nat? 32) = some (height.map UInt32.toNat) :=
    Node.nullable?_nat (by decide) UInt32.toNat_lt height
  have hbitrate : r.required? 3 (Node.nat? 64) = some bitrate.toNat :=
    Node.nat?_nat (Nat.le_refl 64) bitrate.toNat_lt
  have hframerate : r.required? 4 Node.float? = some framerate := h.float?_node
  have hsampleRate : r.optional? 5 Node.isNull (Node.nat? 32) =
      some (sampleRate.map UInt32.toNat) :=
    Node.nullable?_nat (by decide) UInt32.toNat_lt sampleRate
  have hchannels : r.optional? 6 Node.isNull (Node.nat? 16) = some (channels.map UInt16.toNat) :=
    Node.nullable?_nat (by decide) UInt16.toNat_lt channels
  have hback : ∀ o : Option UInt32, (o.map UInt32.toNat).map Nat.toUInt32 = o :=
    Node.map_size_back fun n => n.ofNat_toNat
  have hnarrow : (channels.map UInt16.toNat).map Nat.toUInt16 = channels :=
    Node.map_size_back (fun n => n.ofNat_toNat) channels
  have hrate : bitrate.toNat.toUInt64 = bitrate := bitrate.ofNat_toNat
  unfold ofNode?
  rw [hfields]
  simp only [Option.bind_eq_bind, Option.bind_some, hcodec, hwidth, hheight, hbitrate, hframerate,
    hsampleRate, hchannels, hback, hnarrow, hrate]
  rfl

theorem floats_toJson (c : CodecConfig) : c.toJson.floats = [c.framerate] := by
  have hoption : ∀ {α : Type} (size : α → ℕ) (o : Option α),
      (Value.ofOption (fun a => .int (size a)) o).floats = [] := by
    intro α size o
    cases o <;> rfl
  unfold toJson
  simp only [Value.floats, Value.memberFloats, Value.nat, hoption, List.nil_append,
    List.append_nil]

theorem parse?_render (c : CodecConfig) (h : ReadsBack c.framerate) :
    (Node.parse? (bytesOf c.toJson.render)).bind ofNode? = some c := by
  have hlegible : ∀ x ∈ c.toJson.floats, Value.Legible x := by
    rw [floats_toJson]
    exact List.forall_mem_singleton.mpr h.legible
  rw [Value.parse?_render _ hlegible, Option.bind_some, ofNode?_node c h]

theorem within_toJson (c : CodecConfig) (h : ReadsBack c.framerate) (depth : ℕ) :
    c.toJson.Within (depth + 1) := by
  apply Value.within_object
  have hsmall : ∀ n : UInt32, n.toNat < 2 ^ 64 := fun n => by have := n.toNat_lt; omega
  have htiny : ∀ n : UInt16, n.toNat < 2 ^ 64 := fun n => by have := n.toNat_lt; omega
  have hbitrate := c.bitrate.toNat_lt
  simp only [List.forall_mem_cons]
  exact ⟨Value.within_text _ _, Value.within_ofOption _ hsmall _, Value.within_ofOption _ hsmall _,
    Value.within_int _ (by omega) (by omega), h.within _, Value.within_ofOption _ hsmall _,
    Value.within_ofOption _ htiny _, nofun⟩

end CodecConfig

namespace Event

/-- The doubles of an event. -/
def floats : Event → List Float
  | bitrate _ kbps => [kbps]
  | configError _ _ config => [config.framerate]

theorem floats_toJson (e : Event) : e.toJson.floats = e.floats := by
  cases e with
  | bitrate media kbps => rfl
  | configError media problem config =>
    have hconfig := config.floats_toJson
    unfold toJson
    simp only [Value.floats, Value.memberFloats, hconfig, List.nil_append, List.append_nil]
    rfl

/-- An event is written as an object that says which medium it is about. -/
theorem toJson_members (e : Event) (h : ∀ x ∈ e.floats, ReadsBack x) (depth : ℕ) :
    ∃ members, e.toJson = .object members ∧ (∀ m ∈ members, m.2.Within (depth + 1)) ∧
      (Value.object members).get? "media" = some (.text e.media.name) := by
  cases e with
  | bitrate media kbps =>
    refine ⟨_, rfl, ?_, rfl⟩
    simp only [List.forall_mem_cons]
    exact ⟨Value.within_text _ _, Value.within_text _ _,
      (h kbps (List.mem_singleton_self _)).within _, nofun⟩
  | configError media problem config =>
    refine ⟨_, rfl, ?_, rfl⟩
    simp only [List.forall_mem_cons]
    exact ⟨Value.within_text _ _, Value.within_text _ _, Value.within_text _ _,
      config.within_toJson (h _ (List.mem_singleton_self _)) _, nofun⟩

theorem within_toJson (e : Event) (h : ∀ x ∈ e.floats, ReadsBack x) (depth : ℕ) :
    e.toJson.Within (depth + 2) := by
  obtain ⟨members, hsame, hwithin, -⟩ := e.toJson_members h depth
  rw [hsame]
  exact Value.within_object hwithin

theorem legible_floats (e : Event) (h : ∀ x ∈ e.floats, ReadsBack x) :
    ∀ x ∈ e.toJson.floats, Value.Legible x := by
  rw [floats_toJson]
  exact fun x hx => (h x hx).legible

/-- Whoever reads the text of an event as any JSON value finds which medium it is about. -/
theorem media_in_text (e : Event) (h : ∀ x ∈ e.floats, ReadsBack x) :
    ∃ v, Value.parse? (bytesOf e.toJson.render) = some v ∧
      v.get? "media" = some (.text e.media.name) := by
  have hlegible := e.legible_floats h
  obtain ⟨members, hsame, hwithin, hmedia⟩ := e.toJson_members h 125
  rw [hsame] at hlegible ⊢
  obtain ⟨v, hread, hget⟩ := Value.get?_of_written hlegible hwithin
  refine ⟨v, hread, ?_⟩
  rw [hget, hmedia, Option.bind_some, Value.node, Node.toValue?, Text.decode?_content]
  rfl

theorem ofNode?_node (e : Event) (h : ∀ x ∈ e.floats, ReadsBack x) :
    ofNode? e.toJson.node = some e := by
  obtain ⟨v, hv⟩ := Option.isSome_iff_exists.mp (e.within_toJson h 125)
  have hmedia : ∀ m : Media, Node.choice? true Media.all Media.name (Value.text m.name).node =
      some m := fun m => Node.choice?_text (by decide) m.mem_all true
  unfold ofNode?
  rw [show Node.maxDepth = 125 + 2 from rfl, hv, Option.bind_eq_bind, Option.bind_some]
  cases e with
  | bitrate media kbps =>
    have htagged : (bitrate media kbps).toJson.node.tagged? "type" = some ("bitrate",
        (Value.object [("media", .text media.name), ("kbps", .float kbps)]).node) := by
      apply Node.tagged?_object
      simp
    let r : Fields Node :=
      ⟨false, [some (Value.text media.name).node, some (Value.float kbps).node]⟩
    have hfields : (Value.object [("media", .text media.name), ("kbps", .float kbps)]).node.fields?
        ["media", "kbps"] = some r :=
      Node.fields?_of_keys (Value.keyed_memberNodes _) rfl (by decide)
    have hread : r.required? 0 (Node.choice? true Media.all Media.name) = some media :=
      (Node.required?_of_get rfl _).trans (hmedia media)
    have hkbps : r.required? 1 Node.float? = some kbps :=
      (h kbps (List.mem_singleton_self _)).float?_node
    rw [htagged]
    simp only [Option.bind_eq_bind, Option.bind_some, if_true, hfields, hread, hkbps]
    rfl
  | configError media problem config =>
    have htagged : (configError media problem config).toJson.node.tagged? "type" =
        some ("configError", (Value.object [("media", .text media.name),
          ("reason", .text problem.name), ("config", config.toJson)]).node) := by
      apply Node.tagged?_object
      simp
    let r : Fields Node := ⟨false, [some (Value.text media.name).node,
      some (Value.text problem.name).node, some config.toJson.node]⟩
    have hfields : (Value.object [("media", .text media.name), ("reason", .text problem.name),
        ("config", config.toJson)]).node.fields? ["media", "reason", "config"] = some r :=
      Node.fields?_of_keys (Value.keyed_memberNodes _) rfl (by decide)
    have hread : r.required? 0 (Node.choice? true Media.all Media.name) = some media :=
      (Node.required?_of_get rfl _).trans (hmedia media)
    have hproblem : r.required? 1 (Node.choice? true ConfigProblem.all ConfigProblem.name) =
        some problem :=
      (Node.required?_of_get rfl _).trans (Node.choice?_text (by decide) problem.mem_all true)
    have hconfig : r.required? 2 CodecConfig.ofNode? = some config :=
      config.ofNode?_node (h _ (List.mem_singleton_self _))
    rw [htagged]
    simp only [Option.bind_eq_bind, Option.bind_some, String.reduceEq, if_false, if_true, hfields,
      hread, hproblem, hconfig]
    rfl

theorem parse?_render (e : Event) (h : ∀ x ∈ e.floats, ReadsBack x) :
    parse? (bytesOf e.toJson.render) = some e := by
  unfold parse?
  rw [Value.parse?_render _ (e.legible_floats h), Option.bind_some, ofNode?_node e h]

/-- Events and configurations are read back from their texts, where finite doubles are. -/
theorem round_trip :
    (∀ e : Event, (∀ x ∈ e.floats, x.isFinite) → (∀ x ∈ e.floats, x.isFinite → ReadsBack x) →
      parse? (bytesOf e.toJson.render) = some e) ∧
    (∀ c : CodecConfig, c.framerate.isFinite → (c.framerate.isFinite → ReadsBack c.framerate) →
      (Node.parse? (bytesOf c.toJson.render)).bind CodecConfig.ofNode? = some c) :=
  ⟨fun e hfinite hback => e.parse?_render fun x hx => hback x hx (hfinite x hx),
    fun c hfinite hback => c.parse?_render (hback hfinite)⟩

/-- Quotes, an accent and a line break in the name of the codec. -/
def accented : CodecConfig where
  codec := "\"öpus\"\n"
  height := some 720
  bitrate := 18446744073709551615
  framerate := 29.97
  channels := some 2

theorem round_trip_accented :
    parse? (bytesOf (configError .audio .unsupported accented).toJson.render) =
      some (configError .audio .unsupported accented) ∧
    (Node.parse? (bytesOf accented.toJson.render)).bind CodecConfig.ofNode? = some accented := by
  have hfinite : accented.framerate.isFinite := by decide
  have hback : ReadsBack accented.framerate := by
    unfold ReadsBack
    decide +kernel
  constructor
  · exact round_trip.1 _ (List.forall_mem_singleton.mpr hfinite)
      (List.forall_mem_singleton.mpr fun _ => hback)
  · exact round_trip.2 accented hfinite fun _ => hback

end Event

end LiveMedia
