import Mathlib.Data.List.Chain
import LiveMedia.Json.Node

/-!
# Trees and their tokens

A tree stands for one list of tokens, and that list is folded into the same tree, however deep its
containers are nested. No two words of the list stand beside each other.
-/

namespace LiveMedia.Json
set_option autoImplicit false

namespace Token

/-- A token that ends only where another byte is seen. -/
def isWord : Token → Bool
  | null | boolean _ | number _ => true
  | _ => false

/-- Parts of a list, with a comma between two of them. -/
def commaJoined : List (List Token) → List Token
  | [] => []
  | first :: rest => first ++ rest.flatMap fun ts => comma :: ts

/-- Of two tokens that stand beside each other, one is no word. -/
def Apart (ts : List Token) : Prop := ts.IsChain fun t u => t.isWord = false ∨ u.isWord = false

theorem apart_nil : Apart [] := List.IsChain.nil

theorem apart_singleton (t : Token) : Apart [t] := List.IsChain.singleton t

theorem Apart.append {ts us : List Token} (hts : Apart ts) {t : Token} (ht : t.isWord = false)
    (hus : Apart us) : Apart (ts ++ t :: us) := by
  refine List.isChain_append.mpr ⟨hts, ?_, ?_⟩
  · exact List.isChain_cons.mpr ⟨fun u _ => Or.inl ht, hus⟩
  · rintro x - y hy
    cases hy
    exact Or.inr ht

theorem apart_commaJoined {parts : List (List Token)} (h : ∀ ts ∈ parts, Apart ts) :
    Apart (commaJoined parts) := by
  cases parts with
  | nil => exact apart_nil
  | cons first rest =>
    have hrest : ∀ front, Apart front → Apart (front ++ rest.flatMap fun ts => comma :: ts) := by
      induction rest with
      | nil =>
        intro front hfront
        rw [List.flatMap_nil, List.append_nil]
        exact hfront
      | cons next rest ih =>
        intro front hfront
        have hnext : Apart next := h next (by simp)
        rw [List.flatMap_cons, ← List.append_assoc]
        refine ih (fun ts hts => h ts ?_) _ (hfront.append rfl hnext)
        rcases List.mem_cons.mp hts with rfl | hts
        · exact List.mem_cons_self
        · exact List.mem_cons_of_mem _ (List.mem_cons_of_mem _ hts)
    exact hrest first (h first List.mem_cons_self)

end Token

namespace Node

mutual

def tokens : Node → List Token
  | null => [.null]
  | boolean b => [.boolean b]
  | number n => [.number n]
  | text raw => [.text raw]
  | array items => .beginArray :: Token.commaJoined (itemTokens items) ++ [.endArray]
  | object members => .beginObject :: Token.commaJoined (memberTokens members) ++ [.endObject]

def itemTokens : List Node → List (List Token)
  | [] => []
  | v :: rest => v.tokens :: itemTokens rest

def memberTokens : List (List UInt8 × Node) → List (List Token)
  | [] => []
  | (key, v) :: rest => (.text key :: .colon :: v.tokens) :: memberTokens rest

end

/-- A property of all trees follows from the leaves up. -/
@[elab_as_elim]
theorem inductionOn {motive : Node → Prop} (v : Node) (null : motive .null)
    (boolean : ∀ b, motive (.boolean b)) (number : ∀ n, motive (.number n))
    (text : ∀ raw, motive (.text raw))
    (array : ∀ items, (∀ v ∈ items, motive v) → motive (.array items))
    (object : ∀ members, (∀ e ∈ members, motive e.2) → motive (.object members)) : motive v :=
  match v with
  | .null => null
  | .boolean b => boolean b
  | .number n => number n
  | .text raw => text raw
  | .array items => array items fun v _ => inductionOn v null boolean number text array object
  | .object members =>
    object members fun e _ => inductionOn e.2 null boolean number text array object
termination_by sizeOf v
decreasing_by
  · rename_i hv
    have := List.sizeOf_lt_of_mem hv
    simp only [Node.array.sizeOf_spec]
    omega
  · rename_i he
    have := List.sizeOf_lt_of_mem he
    cases e
    simp only [Node.object.sizeOf_spec, Prod.mk.sizeOf_spec] at *
    omega

theorem apart_itemTokens {items : List Node} (h : ∀ v ∈ items, Token.Apart v.tokens) :
    ∀ ts ∈ itemTokens items, Token.Apart ts := by
  induction items with
  | nil => exact nofun
  | cons v rest ih =>
    intro ts hts
    rw [itemTokens] at hts
    rcases List.mem_cons.mp hts with rfl | hts
    · exact h v List.mem_cons_self
    · exact ih (fun w hw => h w (List.mem_cons_of_mem v hw)) ts hts

theorem apart_memberTokens {members : List (List UInt8 × Node)}
    (h : ∀ e ∈ members, Token.Apart e.2.tokens) :
    ∀ ts ∈ memberTokens members, Token.Apart ts := by
  induction members with
  | nil => exact nofun
  | cons e rest ih =>
    obtain ⟨key, v⟩ := e
    intro ts hts
    rw [memberTokens] at hts
    rcases List.mem_cons.mp hts with rfl | hts
    · exact (Token.apart_singleton (.text key)).append rfl (h (key, v) List.mem_cons_self)
    · exact ih (fun w hw => h w (List.mem_cons_of_mem _ hw)) ts hts

theorem apart_tokens (v : Node) : Token.Apart v.tokens := by
  induction v using inductionOn with
  | null => exact Token.apart_singleton _
  | boolean b => exact Token.apart_singleton _
  | number n => exact Token.apart_singleton _
  | text raw => exact Token.apart_singleton _
  | array items ih =>
    have hitems := Token.apart_commaJoined (apart_itemTokens ih)
    rw [tokens]
    exact Token.Apart.append Token.apart_nil rfl (hitems.append rfl Token.apart_nil)
  | object members ih =>
    have hmembers := Token.apart_commaJoined (apart_memberTokens ih)
    rw [tokens]
    exact Token.Apart.append Token.apart_nil rfl (hmembers.append rfl Token.apart_nil)

/-- Where a value may begin, its tokens put it in its place. -/
def Builds (v : Node) : Prop :=
  ∀ stack, v.tokens.foldlM Builder.step ⟨stack, .value⟩ = Builder.put stack v

theorem Builds.foldlM_append {v : Node} (h : v.Builds) (stack : List Frame) (ts : List Token) :
    (v.tokens ++ ts).foldlM Builder.step ⟨stack, .value⟩ =
      (Builder.put stack v).bind fun s => ts.foldlM Builder.step s := by
  rw [List.foldlM_append, h stack]
  rfl

/-- The part of an array behind its first item. -/
theorem foldlM_items {rest : List Node} (h : ∀ v ∈ rest, v.Builds) (items : List Node)
    (stack : List Frame) :
    ((itemTokens rest).flatMap (Token.comma :: ·) ++ [Token.endArray]).foldlM Builder.step
      ⟨.array items :: stack, .separator⟩ = Builder.put stack (.array (items.reverse ++ rest)) := by
  induction rest generalizing items with
  | nil =>
    rw [List.append_nil]
    exact bind_pure _
  | cons v rest ih =>
    have hcomma : Builder.step ⟨.array items :: stack, .separator⟩ .comma =
        some ⟨.array items :: stack, .value⟩ := rfl
    rw [itemTokens, List.flatMap_cons, List.append_assoc, List.cons_append, List.foldlM_cons,
      hcomma]
    change List.foldlM _ _ (v.tokens ++ _) = _
    rw [(h v List.mem_cons_self).foldlM_append]
    change List.foldlM Builder.step ⟨.array (v :: items) :: stack, .separator⟩ _ = _
    rw [ih (fun w hw => h w (List.mem_cons_of_mem v hw)), List.reverse_cons, List.append_assoc]
    rfl

/-- The part of an object behind its first member. -/
theorem foldlM_members {rest : List (List UInt8 × Node)} (h : ∀ e ∈ rest, e.2.Builds)
    (members : List (List UInt8 × Node)) (stack : List Frame) :
    ((memberTokens rest).flatMap (Token.comma :: ·) ++ [Token.endObject]).foldlM Builder.step
      ⟨.object members :: stack, .separator⟩ =
        Builder.put stack (.object (members.reverse ++ rest)) := by
  induction rest generalizing members with
  | nil =>
    rw [List.append_nil]
    exact bind_pure _
  | cons e rest ih =>
    obtain ⟨key, v⟩ := e
    have hfront : [Token.comma, .text key, .colon].foldlM Builder.step
        ⟨.object members :: stack, .separator⟩ = some ⟨.member members key :: stack, .value⟩ := rfl
    have hsplit : (memberTokens ((key, v) :: rest)).flatMap (Token.comma :: ·) ++ [.endObject] =
        [.comma, .text key, .colon] ++ (v.tokens ++
          ((memberTokens rest).flatMap (Token.comma :: ·) ++ [.endObject])) := by
      rw [memberTokens, List.flatMap_cons]
      simp
    rw [hsplit, List.foldlM_append, hfront]
    change List.foldlM _ _ (v.tokens ++ _) = _
    rw [(h (key, v) List.mem_cons_self).foldlM_append]
    change List.foldlM Builder.step ⟨.object ((key, v) :: members) :: stack, .separator⟩ _ = _
    rw [ih (fun w hw => h w (List.mem_cons_of_mem _ hw)), List.reverse_cons, List.append_assoc]
    rfl

/-- No value begins with the end of an array. -/
theorem step_head (v : Node) : ∃ t ts, v.tokens = t :: ts ∧
    ∀ stack, Builder.step ⟨stack, .valueOrEnd⟩ t = Builder.step ⟨stack, .value⟩ t := by
  cases v with
  | null => exact ⟨_, _, rfl, fun _ => rfl⟩
  | boolean b => exact ⟨_, _, rfl, fun _ => rfl⟩
  | number n => exact ⟨_, _, rfl, fun _ => rfl⟩
  | text raw => exact ⟨_, _, rfl, fun _ => rfl⟩
  | array items => exact ⟨_, _, rfl, fun _ => rfl⟩
  | object members => exact ⟨_, _, rfl, fun _ => rfl⟩

theorem builds_array {items : List Node} (h : ∀ v ∈ items, v.Builds) : (array items).Builds := by
  intro stack
  have hopen : Builder.step ⟨stack, .value⟩ .beginArray =
      some ⟨.array [] :: stack, .valueOrEnd⟩ := rfl
  rw [tokens, List.cons_append, List.foldlM_cons, hopen]
  change List.foldlM Builder.step ⟨.array [] :: stack, .valueOrEnd⟩ _ = _
  cases items with
  | nil => exact bind_pure _
  | cons v rest =>
    have hv := (h v List.mem_cons_self).foldlM_append (.array [] :: stack)
      ((itemTokens rest).flatMap (Token.comma :: ·) ++ [.endArray])
    obtain ⟨t, ts, htokens, hstep⟩ := v.step_head
    rw [itemTokens, Token.commaJoined, List.append_assoc]
    rw [htokens, List.cons_append, List.foldlM_cons] at hv ⊢
    rw [hstep, hv]
    exact foldlM_items (fun w hw => h w (List.mem_cons_of_mem v hw)) [v] stack

theorem builds_object {members : List (List UInt8 × Node)} (h : ∀ e ∈ members, e.2.Builds) :
    (object members).Builds := by
  intro stack
  have hopen : Builder.step ⟨stack, .value⟩ .beginObject =
      some ⟨.object [] :: stack, .keyOrEnd⟩ := rfl
  rw [tokens, List.cons_append, List.foldlM_cons, hopen]
  change List.foldlM Builder.step ⟨.object [] :: stack, .keyOrEnd⟩ _ = _
  cases members with
  | nil => exact bind_pure _
  | cons e rest =>
    obtain ⟨key, v⟩ := e
    have hfront : [Token.text key, .colon].foldlM Builder.step ⟨.object [] :: stack, .keyOrEnd⟩ =
        some ⟨.member [] key :: stack, .value⟩ := rfl
    have hsplit : Token.commaJoined (memberTokens ((key, v) :: rest)) ++ [Token.endObject] =
        [.text key, .colon] ++ (v.tokens ++
          ((memberTokens rest).flatMap (Token.comma :: ·) ++ [.endObject])) := by
      rw [memberTokens, Token.commaJoined]
      simp
    rw [hsplit, List.foldlM_append, hfront]
    change List.foldlM _ _ (v.tokens ++ _) = _
    rw [(h (key, v) List.mem_cons_self).foldlM_append]
    exact foldlM_members (fun w hw => h w (List.mem_cons_of_mem _ hw)) [(key, v)] stack

theorem builds (v : Node) : v.Builds := by
  induction v using inductionOn with
  | null => exact fun stack => bind_pure _
  | boolean b => exact fun stack => bind_pure _
  | number n => exact fun stack => bind_pure _
  | text raw => exact fun stack => bind_pure _
  | array items ih => exact builds_array ih
  | object members ih => exact builds_object ih

theorem foldlM_tokens (v : Node) :
    v.tokens.foldlM Builder.step Builder.start = some ⟨[], .nothing v⟩ := v.builds []

theorem ofTokens?_tokens (v : Node) : ofTokens? v.tokens = some v := by
  unfold ofTokens?
  rw [v.foldlM_tokens]
  rfl

/-- Behind a value there are no more tokens. -/
theorem ofTokens?_tokens_append (v : Node) {ts : List Token} (h : ts ≠ []) :
    ofTokens? (v.tokens ++ ts) = none := by
  obtain ⟨t, rest, rfl⟩ := List.exists_cons_of_ne_nil h
  unfold ofTokens?
  rw [List.foldlM_append, v.foldlM_tokens]
  rfl

end Node

end LiveMedia.Json
