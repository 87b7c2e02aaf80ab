import LiveMedia.Proofs.Json.Integers
import LiveMedia.Proofs.Json.Records
import LiveMedia.Proofs.Json.Scanner

/-!
# Values that are written and read

A value is written as a text of a tree: strings with their escapes, integers and doubles with their
digits. That text is read as this tree.
-/

namespace LiveMedia.Json
set_option autoImplicit false

namespace Value

/-- The tree of a double; one that is not finite is written as null. -/
def floatNode (x : Float) : Node := (Number.ofText? (bytesOf (floatText x))).elim .null .number

mutual

/-- The tree that a value is written as. -/
def node : Value → Node
  | null => .null
  | boolean b => .boolean b
  | int n => .number (.ofInt n)
  | float x => floatNode x
  | text s => .text (Text.content s)
  | array items => .array (itemNodes items)
  | object members => .object (memberNodes members)

def itemNodes : List Value → List Node
  | [] => []
  | v :: rest => v.node :: itemNodes rest

def memberNodes : List (String × Value) → List (List UInt8 × Node)
  | [] => []
  | (key, v) :: rest => (Text.content key, v.node) :: memberNodes rest

end

mutual

def floats : Value → List Float
  | float x => [x]
  | array items => itemFloats items
  | object members => memberFloats members
  | _ => []

def itemFloats : List Value → List Float
  | [] => []
  | v :: rest => v.floats ++ itemFloats rest

def memberFloats : List (String × Value) → List Float
  | [] => []
  | (_, v) :: rest => v.floats ++ memberFloats rest

end

/-- The text of the double is a number, or null. -/
def Legible (x : Float) : Prop := Spells (bytesOf (floatText x)) (floatNode x).tokens

theorem bytesOf_encode (s : String) :
    bytesOf (Text.encode s) = 34 :: Text.content s ++ [34] := by
  have hquote : String.utf8EncodeChar '"' = [34] := by decide
  unfold bytesOf Text.encode Text.content
  rw [String.toUTF8_eq_toByteArray, String.toByteArray_ofList, List.utf8Encode,
    List.toList_data_toByteArray, List.cons_append, List.flatMap_cons, List.flatMap_append,
    List.flatMap_singleton, hquote]
  rfl

theorem spells_encode (s : String) : Closes (bytesOf (Text.encode s)) [.text (Text.content s)] := by
  rw [bytesOf_encode]
  exact .text (Text.spelling_content s).wellFormed

theorem spells_intText (n : Int) : Spells (bytesOf (intText n)) [.number (.ofInt n)] := by
  rw [bytesOf_intText]
  exact .number (Number.spelling_ofInt n)

theorem bytesOf_commaSeparated (first : String) (rest : List String) :
    bytesOf (commaSeparated (first :: rest)) =
      bytesOf first ++ rest.flatMap fun s => 44 :: bytesOf s := by
  change bytesOf (rest.foldl (fun joined item => joined ++ "," ++ item) first) = _
  induction rest generalizing first with
  | nil => rw [List.foldl_nil, List.flatMap_nil, List.append_nil]
  | cons next rest ih =>
    have hcomma : bytesOf "," = [44] := by decide
    rw [List.foldl_cons, ih, bytesOf_append, bytesOf_append, hcomma, List.flatMap_cons]
    simp

/-- Parts that are written with commas between them, up to the end of their container. -/
theorem spells_commaSeparated {parts : List String} {tokens : List (List Token)}
    (h : List.Forall₂ (fun s ts => Spells (bytesOf s) ts) parts tokens) {b : UInt8} {t : Token}
    (hb : Token.punctuation? b = some t) :
    Spells (bytesOf (commaSeparated parts) ++ [b]) (Token.commaJoined tokens ++ [t]) := by
  have hends : ∀ {c : UInt8} {u : Token}, Token.punctuation? c = some u → ∀ rest,
      Breaks (c :: rest) := by
    rintro c u hc rest d hd
    cases hd
    unfold Scanner.endsWord
    rw [hc]
    exact Bool.or_true _
  cases h with
  | nil => exact (Closes.punctuation hb).spells
  | @cons first ts rest tokens hfirst hrest =>
    rw [bytesOf_commaSeparated, Token.commaJoined]
    have hbehind : Breaks ((rest.flatMap fun s => 44 :: bytesOf s) ++ [b]) ∧
        Spells ((rest.flatMap fun s => 44 :: bytesOf s) ++ [b])
          ((tokens.flatMap fun ts => Token.comma :: ts) ++ [t]) := by
      clear hfirst
      induction hrest with
      | nil => exact ⟨hends hb [], (Closes.punctuation hb).spells⟩
      | @cons s us rest tokens hs hrest ih =>
        rw [List.flatMap_cons, List.flatMap_cons, List.append_assoc, List.append_assoc]
        exact ⟨hends (u := .comma) rfl _,
          (Closes.punctuation (t := .comma) rfl).append (hs.append ih.1 ih.2)⟩
    rw [List.append_assoc, List.append_assoc]
    exact hfirst.append hbehind.1 hbehind.2

/-- A property of all values follows from the leaves up. -/
@[elab_as_elim]
theorem inductionOn {motive : Value → Prop} (v : Value) (null : motive .null)
    (boolean : ∀ b, motive (.boolean b)) (int : ∀ n, motive (.int n))
    (float : ∀ x, motive (.float x)) (text : ∀ s, motive (.text s))
    (array : ∀ items, (∀ v ∈ items, motive v) → motive (.array items))
    (object : ∀ members, (∀ e ∈ members, motive e.2) → motive (.object members)) : motive v :=
  match v with
  | .null => null
  | .boolean b => boolean b
  | .int n => int n
  | .float x => float x
  | .text s => text s
  | .array items => array items fun v _ => inductionOn v null boolean int float text array object
  | .object members =>
    object members fun e _ => inductionOn e.2 null boolean int float text array object
termination_by sizeOf v
decreasing_by
  · rename_i hv
    have := List.sizeOf_lt_of_mem hv
    simp only [Value.array.sizeOf_spec]
    omega
  · rename_i he
    have := List.sizeOf_lt_of_mem he
    cases e
    simp only [Value.object.sizeOf_spec, Prod.mk.sizeOf_spec] at *
    omega

/-- Whatever is written spells its tree, as long as its doubles do. -/
def Written (v : Value) : Prop :=
  (∀ x ∈ v.floats, Legible x) → Spells (bytesOf v.render) v.node.tokens

theorem spells_items {items : List Value} (h : ∀ v ∈ items, v.Written)
    (hfloats : ∀ x ∈ itemFloats items, Legible x) :
    List.Forall₂ (fun s ts => Spells (bytesOf s) ts) (renderItems items)
      (Node.itemTokens (itemNodes items)) := by
  induction items with
  | nil => exact .nil
  | cons v rest ih =>
    rw [renderItems, itemNodes, Node.itemTokens]
    rw [itemFloats] at hfloats
    refine .cons (h v List.mem_cons_self fun x hx => ?_) (ih ?_ fun x hx => ?_)
    · exact hfloats x (List.mem_append_left _ hx)
    · exact fun w hw => h w (List.mem_cons_of_mem v hw)
    · exact hfloats x (List.mem_append_right _ hx)

theorem spells_members {members : List (String × Value)} (h : ∀ e ∈ members, e.2.Written)
    (hfloats : ∀ x ∈ memberFloats members, Legible x) :
    List.Forall₂ (fun s ts => Spells (bytesOf s) ts) (renderMembers members)
      (Node.memberTokens (memberNodes members)) := by
  induction members with
  | nil => exact .nil
  | cons e rest ih =>
    obtain ⟨key, v⟩ := e
    rw [renderMembers, memberNodes, Node.memberTokens]
    rw [memberFloats] at hfloats
    refine .cons ?_ (ih ?_ fun x hx => ?_)
    · have hcolon : bytesOf ":" = [58] := by decide
      have hv := h (key, v) List.mem_cons_self fun x hx => hfloats x (List.mem_append_left _ hx)
      rw [bytesOf_append, bytesOf_append, hcolon, List.append_assoc]
      exact (spells_encode key).append ((Closes.punctuation (t := .colon) rfl).append hv)
    · exact fun w hw => h w (List.mem_cons_of_mem _ hw)
    · exact hfloats x (List.mem_append_right _ hx)

theorem written (v : Value) : v.Written := by
  induction v using inductionOn with
  | null => exact fun _ => .word rfl (by decide) (Scanner.endsWord_of_any rfl)
  | boolean b =>
    cases b
    · exact fun _ => .word rfl (by decide) (Scanner.endsWord_of_any rfl)
    · exact fun _ => .word rfl (by decide) (Scanner.endsWord_of_any rfl)
  | int n => exact fun _ => spells_intText n
  | float x => exact fun h => h x (List.mem_singleton_self x)
  | text s => exact fun _ => (spells_encode s).spells
  | array items ih =>
    intro hfloats
    have hopen : bytesOf "[" = [91] := by decide
    have hclose : bytesOf "]" = [93] := by decide
    rw [floats] at hfloats
    rw [render, node, Node.tokens, bytesOf_append, bytesOf_append, hopen, hclose, List.append_assoc]
    exact (Closes.punctuation (t := .beginArray) rfl).append
      (spells_commaSeparated (spells_items ih hfloats) rfl)
  | object members ih =>
    intro hfloats
    have hopen : bytesOf "\x7b" = [123] := by decide
    have hclose : bytesOf "\x7d" = [125] := by decide
    rw [floats] at hfloats
    rw [render, node, Node.tokens, bytesOf_append, bytesOf_append, hopen, hclose, List.append_assoc]
    exact (Closes.punctuation (t := .beginObject) rfl).append
      (spells_commaSeparated (spells_members ih hfloats) rfl)

theorem parse?_render (v : Value) (h : ∀ x ∈ v.floats, Legible x) :
    Node.parse? (bytesOf v.render) = some v.node := by
  unfold Node.parse?
  rw [(v.written h).tokens?, Option.bind_some, Node.ofTokens?_tokens]

/-- The keys of an object are spelled in its tree. -/
theorem keyed_memberNodes (members : List (String × Value)) :
    Node.Keyed (members.map fun e => (e.1, e.2.node)) (memberNodes members) := by
  induction members with
  | nil => exact .nil
  | cons e rest ih => exact .cons ⟨Text.spelling_content e.1, rfl⟩ ih

end Value

end LiveMedia.Json
