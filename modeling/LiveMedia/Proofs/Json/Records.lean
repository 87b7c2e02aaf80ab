import Mathlib.Data.List.Nodup
import LiveMedia.Json.Fields
import LiveMedia.Proofs.Json.Scanner
import LiveMedia.Proofs.Json.Strings

/-!
# Records in JSON text

An object is read as a record when none of the known keys occurs twice, whatever the order of its
members and whatever other keys there are. A field then has the value of its key.
-/

namespace LiveMedia.Json
set_option autoImplicit false

namespace Node

/-- These are the members, each with its key spelled in some way. -/
def Keyed (fields : List (String × Node)) (members : List (List UInt8 × Node)) : Prop :=
  List.Forall₂ (fun f e => Text.Spelling f.1.toList e.1 ∧ e.2 = f.2) fields members

/-- The values that stand behind a key. -/
def valuesOf (name : String) (fields : List (String × Node)) : List Node :=
  (fields.filter fun f => f.1 == name).map Prod.snd

theorem valuesOf_concat (name : String) (fields : List (String × Node)) (f : String × Node) :
    valuesOf name (fields ++ [f]) =
      valuesOf name fields ++ if f.1 = name then [f.2] else [] := by
  unfold valuesOf
  rw [List.filter_append, List.map_append, List.filter_singleton]
  by_cases h : f.1 = name
  · rw [if_pos h, beq_iff_eq.mpr h]
    rfl
  · rw [if_neg h, beq_false_of_ne h]
    rfl

theorem valuesOf_concat_of_ne {name : String} {f : String × Node} (h : f.1 ≠ name)
    (fields : List (String × Node)) : valuesOf name (fields ++ [f]) = valuesOf name fields := by
  rw [valuesOf_concat, if_neg h, List.append_nil]

/-- A known key occurs once at the most. -/
def Unrepeated (names : List String) (fields : List (String × Node)) : Prop :=
  ∀ name ∈ names, (valuesOf name fields).length ≤ 1

instance (names : List String) (fields : List (String × Node)) :
    Decidable (Unrepeated names fields) := List.decidableBAll _ names

theorem Unrepeated.of_nodup {fields : List (String × Node)} (h : (fields.map Prod.fst).Nodup)
    (names : List String) : Unrepeated names fields := by
  intro name _
  have hcount : (valuesOf name fields).length = (fields.map Prod.fst).count name := by
    unfold valuesOf List.count
    rw [List.length_map, List.countP_map, List.countP_eq_length_filter]
    rfl
  rw [hcount]
  exact List.nodup_iff_count_le_one.mp h name

theorem mem_valuesOf {fields : List (String × Node)} {f : String × Node} (hf : f ∈ fields) :
    f.2 ∈ valuesOf f.1 fields :=
  List.mem_map_of_mem (List.mem_filter.mpr ⟨hf, beq_self_eq_true _⟩)

/-- A known key that occurs has one value. -/
theorem head?_valuesOf {names : List String} {fields : List (String × Node)}
    (h : Unrepeated names fields) {name : String} (hname : name ∈ names) {v : Node}
    (hv : v ∈ valuesOf name fields) : (valuesOf name fields).head? = some v := by
  have hlength := h name hname
  match hvalues : valuesOf name fields, hv, hlength with
  | [w], hv, _ => rw [List.mem_singleton.mp hv, List.head?_cons]

theorem Unrepeated.of_append {names : List String} {fields more : List (String × Node)}
    (h : Unrepeated names (fields ++ more)) : Unrepeated names fields := by
  intro name hname
  have hle := h name hname
  unfold valuesOf at hle ⊢
  rw [List.filter_append, List.map_append, List.length_append] at hle
  omega

/-- What the fields of a record have been given by these members. -/
def given (names : List String) (fields : List (String × Node)) : List (Option Node) :=
  names.map fun name => (valuesOf name fields).head?

theorem takeMember_spelled {names : List String} {values : List (Option Node)} {f : String × Node}
    {e : List UInt8 × Node} (h : Text.Spelling f.1.toList e.1 ∧ e.2 = f.2) :
    takeMember names values e =
      match names.idxOf? f.1 with
      | none => some values
      | some i =>
        match values[i]? with
        | some none => some (values.set i (some f.2))
        | _ => none := by
  unfold takeMember
  rw [h.1.decode?, String.ofList_toList, h.2]
  rfl

theorem takeMember_of_notMem {names : List String} {fields : List (String × Node)}
    {f : String × Node} {e : List UInt8 × Node} (h : Text.Spelling f.1.toList e.1 ∧ e.2 = f.2)
    (hf : f.1 ∉ names) :
    takeMember names (given names fields) e = some (given names (fields ++ [f])) := by
  rw [takeMember_spelled h, List.idxOf?_eq_none_iff.mpr hf]
  dsimp only
  congr 1
  apply List.map_congr_left
  intro name hname
  rw [valuesOf_concat_of_ne]
  rintro rfl
  exact hf hname

theorem getElem?_given {names : List String} {fields : List (String × Node)} {name : String} {i : ℕ}
    (hi : names.idxOf? name = some i) :
    (given names fields)[i]? = some (valuesOf name fields).head? := by
  obtain ⟨hlt, rfl, -⟩ := List.idxOf?_eq_some_iff.mp hi
  unfold given
  rw [List.getElem?_map, List.getElem?_eq_getElem hlt]
  rfl

theorem set_given {names : List String} (hnames : names.Nodup) {fields : List (String × Node)}
    {f : String × Node} {i : ℕ} (hi : names.idxOf? f.1 = some i)
    (hnew : valuesOf f.1 fields = []) :
    (given names fields).set i (some f.2) = given names (fields ++ [f]) := by
  have hmem : f.1 ∈ names := List.isSome_idxOf?.mp (by rw [hi]; rfl)
  have hindex : names.idxOf f.1 = i := by rw [List.idxOf_eq_getD_idxOf?, hi, Option.getD_some]
  have hupdate := hnames.map_update (fun name => (valuesOf name fields).head?) f.1 (some f.2)
  rw [if_pos hmem, hindex] at hupdate
  unfold given
  rw [← hupdate]
  apply List.map_congr_left
  intro name _
  by_cases hname : f.1 = name
  · subst hname
    rw [Function.update_self, valuesOf_concat, hnew, if_pos rfl]
    rfl
  · rw [Function.update_of_ne fun heq => hname heq.symm, valuesOf_concat_of_ne hname]

theorem takeMember_given {names : List String} (hnames : names.Nodup)
    {fields : List (String × Node)} {f : String × Node} {e : List UInt8 × Node}
    (h : Text.Spelling f.1.toList e.1 ∧ e.2 = f.2) (hfields : Unrepeated names fields) :
    takeMember names (given names fields) e =
      if Unrepeated names (fields ++ [f]) then some (given names (fields ++ [f])) else none := by
  cases hi : names.idxOf? f.1 with
  | none =>
    have hf := List.idxOf?_eq_none_iff.mp hi
    rw [takeMember_of_notMem h hf, if_pos]
    intro name hname
    rw [valuesOf_concat_of_ne]
    · exact hfields name hname
    · rintro rfl
      exact hf hname
  | some i =>
    have hmem : f.1 ∈ names := List.isSome_idxOf?.mp (by rw [hi]; rfl)
    rw [takeMember_spelled h, hi]
    dsimp only
    rw [getElem?_given hi]
    cases hold : valuesOf f.1 fields with
    | nil =>
      rw [if_pos]
      · exact congrArg some (set_given hnames hi hold)
      · intro name hname
        by_cases heq : f.1 = name
        · rw [valuesOf_concat, if_pos heq, ← heq, hold]
          exact Nat.le_refl 1
        · rw [valuesOf_concat_of_ne heq]
          exact hfields name hname
    | cons v rest =>
      rw [if_neg]
      · rfl
      · intro hrepeated
        have hle := hrepeated f.1 hmem
        rw [valuesOf_concat, hold, if_pos rfl, List.length_append, List.length_cons,
          List.length_singleton] at hle
        omega

theorem foldlM_takeMember {names : List String} (hnames : names.Nodup)
    {more : List (String × Node)} {members : List (List UInt8 × Node)} (h : Keyed more members)
    {fields : List (String × Node)} (hfields : Unrepeated names fields) :
    members.foldlM (takeMember names) (given names fields) =
      if Unrepeated names (fields ++ more) then some (given names (fields ++ more)) else none := by
  induction h generalizing fields with
  | nil => rw [List.append_nil, if_pos hfields, List.foldlM_nil]; rfl
  | @cons f e more members hf h ih =>
    rw [List.foldlM_cons, takeMember_given hnames hf hfields, List.append_cons fields f more]
    by_cases hlast : Unrepeated names (fields ++ [f])
    · rw [if_pos hlast]
      exact ih hlast
    · rw [if_neg hlast, if_neg fun hall => hlast hall.of_append]
      rfl

/-- The fields that the members of an object have been taken for. -/
def record (names : List String) (fields : List (String × Node)) : Fields Node :=
  ⟨false, given names fields⟩

theorem get_record {names : List String} {name : String} {i : ℕ} (hi : names[i]? = some name)
    (fields : List (String × Node)) :
    (record names fields).get i = (valuesOf name fields).head? := by
  unfold record given Fields.get
  rw [List.getElem?_map, hi]
  rfl

/-- An object is a record exactly when no known key is repeated. -/
theorem fields?_object {names : List String} (hnames : names.Nodup)
    {fields : List (String × Node)} {members : List (List UInt8 × Node)}
    (h : Keyed fields members) :
    fields? names (object members) =
      if Unrepeated names fields then some (record names fields) else none := by
  have hstart : List.replicate names.length none = given names [] := List.map_const'.symm
  have hnone : Unrepeated names [] := fun name _ => Nat.zero_le 1
  change (members.foldlM (takeMember names) _).map _ = _
  rw [hstart, foldlM_takeMember hnames h hnone, List.nil_append]
  split <;> rfl

/-- Where the keys are the known ones and no other, the fields have the values of the members. -/
theorem fields?_of_keys {fields : List (String × Node)} {members : List (List UInt8 × Node)}
    (h : Keyed fields members) {names : List String} (hkeys : fields.map Prod.fst = names)
    (hnames : names.Nodup) :
    fields? names (object members) = some ⟨false, fields.map fun f => some f.2⟩ := by
  have hunrepeated : Unrepeated names fields := .of_nodup (by rwa [hkeys]) names
  have hgiven : given names fields = fields.map fun f => some f.2 := by
    unfold given
    rw [← hkeys, List.map_map]
    apply List.map_congr_left
    intro f hf
    have hname : f.1 ∈ names := hkeys ▸ List.mem_map_of_mem hf
    exact head?_valuesOf hunrepeated hname (mem_valuesOf hf)
  rw [fields?_object hnames h, if_pos hunrepeated, record, hgiven]

end Node

/-- A text of an object with these members, whose keys are spelled in any way. -/
def ObjectText (fields : List (String × Node)) (text : List UInt8) : Prop :=
  ∃ members, Node.Keyed fields members ∧ Layout (Node.object members).tokens text

namespace ObjectText

variable {fields : List (String × Node)} {text : List UInt8}

theorem parse? (h : ObjectText fields text) :
    ∃ members, Node.Keyed fields members ∧ Node.parse? text = some (.object members) := by
  obtain ⟨members, hkeys, hlayout⟩ := h
  exact ⟨members, hkeys, hlayout.parse?⟩

theorem parse?_append (h : ObjectText fields text) {rest : List UInt8} (hrest : ¬ Blank rest) :
    Node.parse? (text ++ rest) = none := by
  obtain ⟨members, -, hlayout⟩ := h
  exact hlayout.parse?_append hrest

end ObjectText

end LiveMedia.Json
