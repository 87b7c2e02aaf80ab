import LiveMedia.Proofs.Json.Rendering

/-!
# Reading what was written

Each kind of value is read back by the reader for its kind. A number is read as an integer only
where it is written as one and lies in the range that is asked for.
-/

namespace LiveMedia.Json
set_option autoImplicit false

namespace Number

def signed (n : Number) : ℤ := if n.negative then -value n.whole else value n.whole

/-- Written with a point or an exponent. -/
def Broken (n : Number) : Prop := n.fraction ≠ [] ∨ n.exponent ≠ none

theorem of_int?_eq_some {n : Number} {i : ℤ} (h : n.int? = some i) :
    ¬ n.Broken ∧ n.signed = i := by
  unfold int? at h
  split at h
  · rename_i hplain
    refine ⟨fun hbroken => hbroken.elim (absurd hplain.1) (absurd hplain.2), ?_⟩
    unfold signed
    dsimp only at h
    split at h
    · rename_i hnegative
      rw [if_pos hnegative]
      split at h
      · exact Option.some.inj h
      · cases h
    · rename_i hnegative
      rw [if_neg hnegative]
      split at h
      · exact Option.some.inj h
      · cases h
  · cases h

end Number

namespace Node

/-- A number that is not read as an integer of this range. -/
def Unfit (low high : ℤ) (v : Node) : Prop :=
  ∃ n, v = .number n ∧ (n.Broken ∨ n.signed < low ∨ high < n.signed)

theorem int?_of_unfit {low high : ℤ} {v : Node} (h : v.Unfit low high) :
    v.int? low high = none := by
  obtain ⟨n, rfl, hn⟩ := h
  change n.int?.filter _ = none
  cases hint : n.int? with
  | none => rfl
  | some i =>
    obtain ⟨hplain, rfl⟩ := Number.of_int?_eq_some hint
    have hrange := hn.resolve_left hplain
    rw [Option.filter_some, if_neg]
    rw [decide_eq_true_eq]
    omega

theorem int64?_of_unfit {v : Node} (h : v.Unfit (-2 ^ 63) (2 ^ 63 - 1)) : v.int64? = none := by
  unfold int64?
  rw [int?_of_unfit h]
  rfl

theorem nat?_of_unfit {bits : ℕ} {v : Node} (h : v.Unfit 0 (2 ^ bits - 1)) :
    v.nat? bits = none := by
  unfold nat?
  rw [int?_of_unfit h]
  rfl

theorem nullable?_of_unfit {α : Type} {low high : ℤ} {v : Node} (h : v.Unfit low high)
    {read : Node → Option α} (hread : read v = none) : nullable? read v = none := by
  obtain ⟨n, rfl, -⟩ := h
  change (read (.number n)).map some = none
  rw [hread]
  rfl

theorem string?_text (s : String) : (Value.text s).node.string? = some s := Text.decode?_content s

theorem int?_int {low high n : ℤ} (hlow : -2 ^ 63 ≤ n) (hhigh : n < 2 ^ 64)
    (hrange : low ≤ n ∧ n ≤ high) : (Value.int n).node.int? low high = some n := by
  change (Number.ofInt n).int?.filter _ = _
  rw [Number.int?_ofInt hlow hhigh, Option.filter_some, if_pos (decide_eq_true hrange)]

theorem int64?_int (n : Int64) : (Value.int n.toInt).node.int64? = some n := by
  have hlow := n.le_toInt
  have hhigh := n.toInt_lt
  unfold int64?
  rw [int?_int hlow (by omega) (by omega), Option.map_some, Int64.ofInt_toInt]

theorem nat?_nat {bits : ℕ} (hbits : bits ≤ 64) {n : ℕ} (h : n < 2 ^ bits) :
    (Value.nat n).node.nat? bits = some n := by
  have hlarge : n < 2 ^ 64 := Nat.lt_of_lt_of_le h (Nat.pow_le_pow_right (by decide) hbits)
  have hhigh : (n : ℤ) < 2 ^ bits := by exact_mod_cast h
  unfold nat? Value.nat
  rw [int?_int (by omega) (by omega) (by omega)]
  rfl

theorem nullable?_nat {α : Type} {bits : ℕ} (hbits : bits ≤ 64) {size : α → ℕ}
    (hsize : ∀ a, size a < 2 ^ bits) (o : Option α) :
    nullable? (nat? bits) (Value.ofOption (fun a => .nat (size a)) o).node =
      some (o.map size) := by
  cases o with
  | none => rfl
  | some a =>
    change (nat? bits (Value.nat (size a)).node).map some = _
    rw [nat?_nat hbits (hsize a)]
    rfl

theorem map_size_back {α : Type} {size : α → ℕ} {back : ℕ → α} (h : ∀ a, back (size a) = a)
    (o : Option α) : (o.map size).map back = o := by
  cases o with
  | none => rfl
  | some a => exact congrArg some (h a)

/-- A name is read as its bearer where no two bear it. -/
theorem choice?_text {α : Type} {all : List α} {name : α → String} (hname : (all.map name).Nodup)
    {a : α} (ha : a ∈ all) (buffered : Bool) :
    choice? buffered all name (Value.text (name a)).node = some a := by
  change (Text.decode? (Text.content (name a))).bind (fun s => all.find? fun x => name x == s) = _
  rw [Text.decode?_content, Option.bind_some]
  cases hfound : all.find? fun x => name x == name a with
  | none =>
    have hnone := List.find?_eq_none.mp hfound a ha
    exact absurd (beq_self_eq_true _) hnone
  | some x =>
    have hx := List.find?_some hfound
    rw [beq_iff_eq] at hx
    have hmem := List.mem_of_find?_eq_some hfound
    exact congrArg some (List.inj_on_of_nodup_map hname hmem ha hx)

theorem required?_of_get {α : Type} {r : Fields Node} {i : ℕ} {v : Node} (h : r.get i = some v)
    (read : Node → Option α) : r.required? i read = read v := by
  unfold Fields.required?
  rw [h, Option.bind_some]

/-- An object with its kind in front is split into the kind and the other members. -/
theorem tagged?_object {tag kind : String} {members : List (String × Value)}
    (h : ∀ e ∈ members, e.1 ≠ tag) :
    (Value.object ((tag, .text kind) :: members)).node.tagged? tag =
      some (kind, (Value.object members).node) := by
  let isTag : List UInt8 × Node → Bool := fun e => Text.decode? e.1 == some tag
  have hfirst : isTag (Text.content tag, (Value.text kind).node) = true := by
    change (Text.decode? (Text.content tag) == some tag) = true
    rw [Text.decode?_content, beq_self_eq_true]
  have hothers : ∀ e ∈ Value.memberNodes members, isTag e = false := by
    induction members with
    | nil => exact nofun
    | cons e rest ih =>
      obtain ⟨hkey, hrest⟩ := List.forall_mem_cons.mp h
      refine List.forall_mem_cons.mpr ⟨?_, ih hrest⟩
      change (Text.decode? (Text.content e.1) == some tag) = false
      rw [Text.decode?_content]
      exact beq_false_of_ne fun heq => hkey (Option.some.inj heq)
  have hfound : ((Text.content tag, (Value.text kind).node) ::
      Value.memberNodes members).filter isTag = [(Text.content tag, (Value.text kind).node)] := by
    rw [List.filter_cons_of_pos hfirst, List.filter_eq_nil_iff.mpr]
    exact fun e he => Bool.eq_false_iff.mp (hothers e he)
  have hrest : ((Text.content tag, (Value.text kind).node) ::
      Value.memberNodes members).filter (fun e => !isTag e) = Value.memberNodes members := by
    rw [List.filter_cons_of_neg (by rw [hfirst]; decide), List.filter_eq_self]
    intro e he
    rw [hothers e he]
    rfl
  unfold tagged?
  rw [Value.node, Value.memberNodes]
  dsimp only
  rw [hfound, hrest]
  dsimp only
  rw [string?_text]
  rfl

end Node

namespace Value

/-- All strings and numbers of the written value can be read, and no container stands too deep. -/
def Within (depth : ℕ) (v : Value) : Prop := (v.node.toValue? depth).isSome

theorem within_text (depth : ℕ) (s : String) : (text s).Within depth := by
  unfold Within
  rw [node, Node.toValue?, Text.decode?_content]
  rfl

theorem within_int (depth : ℕ) {n : ℤ} (hlow : -2 ^ 63 ≤ n) (hhigh : n < 2 ^ 64) :
    (int n).Within depth := by
  unfold Within
  rw [node, Node.toValue?, Number.toValue?, Number.int?_ofInt hlow hhigh]
  rfl

theorem within_ofOption (depth : ℕ) {α : Type} {size : α → ℕ} (hsize : ∀ a, size a < 2 ^ 64)
    (o : Option α) : (ofOption (fun a => nat (size a)) o).Within depth := by
  cases o with
  | none =>
    unfold Within
    rw [ofOption, node, Node.toValue?]
    rfl
  | some a =>
    have := hsize a
    exact within_int depth (by omega) (by omega)

/-- The members of an object that is written are read one by one. -/
theorem toValue?_object {depth : ℕ} {members : List (String × Value)}
    (h : ∀ e ∈ members, e.2.Within depth) :
    ∃ read, (object members).node.toValue? (depth + 1) = some (object read) ∧
      List.Forall₂ (fun e r => e.1 = r.1 ∧ e.2.node.toValue? depth = some r.2) members read := by
  rw [node, Node.toValue?]
  induction members with
  | nil => exact ⟨[], rfl, .nil⟩
  | cons e rest ih =>
    obtain ⟨key, v⟩ := e
    obtain ⟨w, hw⟩ := Option.isSome_iff_exists.mp (h (key, v) List.mem_cons_self)
    obtain ⟨read, hread, hall⟩ := ih fun f hf => h f (List.mem_cons_of_mem _ hf)
    obtain ⟨ws, hws, hsame⟩ := Option.map_eq_some_iff.mp hread
    obtain rfl := Value.object.inj hsame
    refine ⟨(key, w) :: ws, ?_, .cons ⟨rfl, hw⟩ hall⟩
    dsimp only at hw
    rw [memberNodes, List.mapM_cons, hws]
    dsimp only
    rw [Text.decode?_content, Option.bind_some, hw]
    rfl

theorem within_object {depth : ℕ} {members : List (String × Value)}
    (h : ∀ e ∈ members, e.2.Within depth) : (object members).Within (depth + 1) := by
  obtain ⟨read, hread, -⟩ := toValue?_object h
  exact Option.isSome_of_eq_some hread

/-- A member that is looked up in what was read is the reading of the member that was written. -/
theorem get?_of_forall₂ {read : Value → Option Value} {members found : List (String × Value)}
    (h : List.Forall₂ (fun e r => e.1 = r.1 ∧ read e.2 = some r.2) members found) (key : String) :
    (object found).get? key = ((object members).get? key).bind read := by
  unfold get?
  dsimp only
  have hreversed := List.forall₂_reverse_iff.mpr h
  generalize members.reverse = written at hreversed
  generalize found.reverse = back at hreversed
  induction hreversed with
  | nil => rfl
  | @cons e r _ _ hsame _ ih =>
    obtain ⟨hkey, hread⟩ := hsame
    rw [List.find?_cons, List.find?_cons, hkey]
    cases r.1 == key with
    | true => exact hread.symm
    | false => exact ih

/-- The text of an object is read as an object with the same members. -/
theorem get?_of_written {members : List (String × Value)}
    (hlegible : ∀ x ∈ (object members).floats, Legible x)
    (hwithin : ∀ e ∈ members, e.2.Within 126) :
    ∃ v, parse? (bytesOf (object members).render) = some v ∧ ∀ key,
      v.get? key = ((object members).get? key).bind fun w => w.node.toValue? 126 := by
  obtain ⟨read, hread, hall⟩ := toValue?_object hwithin
  refine ⟨object read, ?_, get?_of_forall₂ hall⟩
  unfold parse?
  rw [parse?_render _ hlegible, Option.bind_some]
  exact hread

end Value

end LiveMedia.Json
