import LiveMedia.Proofs.Json.Grammar

/-!
# Scanning JSON text

A text spells some tokens when the scanner finds them in it from any point between two tokens. A
word is found only when the byte behind it is seen, so two texts may be joined where the second
begins with a byte that ends words. Every text of the grammar spells its tokens.
-/

namespace LiveMedia.Json
set_option autoImplicit false

namespace Scanner

/-- What has been found, the latest first, once a word that is still open is counted. -/
def Holds (s : Scanner) (found : List Token) : Prop :=
  match s.mode with
  | .between => s.found = found
  | .word held => ∃ t, Token.ofWord? held.reverse = some t ∧ found = t :: s.found
  | _ => False

theorem Holds.finish? {s : Scanner} {found : List Token} (h : s.Holds found) :
    s.finish? = some found.reverse := by
  obtain ⟨before, mode⟩ := s
  cases mode with
  | between =>
    cases h
    rfl
  | word held =>
    obtain ⟨t, ht, rfl⟩ := h
    change (Token.ofWord? held.reverse).map (fun t => (t :: before).reverse) = _
    rw [ht]
    rfl
  | text held => cases h
  | escape held => cases h
  | hex missing held => cases h

/-- A byte that ends words is seen in the same way behind a word and behind nothing. -/
theorem Holds.step {s : Scanner} {found : List Token} (h : s.Holds found) {b : UInt8}
    (hb : endsWord b = true) : s.step b = Scanner.step ⟨found, .between⟩ b := by
  obtain ⟨before, mode⟩ := s
  cases mode with
  | between =>
    cases h
    rfl
  | word held =>
    obtain ⟨t, ht, rfl⟩ := h
    change (if endsWord b then _ else _) = _
    rw [if_pos hb, ht]
    rfl
  | text held => cases h
  | escape held => cases h
  | hex missing held => cases h

theorem fresh_punctuation {b : UInt8} {t : Token} (hb : Token.punctuation? b = some t)
    (found : List Token) : fresh found b = ⟨t :: found, .between⟩ := by
  unfold Token.punctuation? at hb
  repeat' split at hb
  all_goals cases hb
  all_goals
    subst b
    rfl

theorem fresh_word {b : UInt8} (hb : endsWord b = false) (found : List Token) :
    fresh found b = ⟨found, .word [b]⟩ := by
  unfold endsWord at hb
  rw [Bool.or_eq_false_iff, Bool.or_eq_false_iff] at hb
  obtain ⟨⟨hspace, hquote⟩, hpunctuation⟩ := hb
  unfold fresh
  rw [hspace, if_neg Bool.false_ne_true, if_neg (of_decide_eq_false hquote),
    Option.not_isSome_iff_eq_none.mp (Bool.eq_false_iff.mp hpunctuation)]

theorem foldlM_word {w : List UInt8} (hw : ∀ b ∈ w, endsWord b = false) (found : List Token)
    (held : List UInt8) :
    w.foldlM step ⟨found, .word held⟩ = some ⟨found, .word (w.reverse ++ held)⟩ := by
  induction w generalizing held with
  | nil => rfl
  | cons b rest ih =>
    have hstep : step ⟨found, .word held⟩ b = some ⟨found, .word (b :: held)⟩ := by
      change (if endsWord b then _ else _) = _
      rw [hw b List.mem_cons_self, if_neg Bool.false_ne_true]
    rw [List.foldlM_cons, hstep, List.reverse_cons, List.append_assoc]
    exact ih (fun x hx => hw x (List.mem_cons_of_mem b hx)) (b :: held)

theorem isHexDigit_of_hexDigit {b : UInt8} {d : ℕ} (h : Text.HexDigit b d) :
    Token.isHexDigit b = true := by
  unfold Token.isHexDigit
  simp only [UInt8.le_iff_toNat_le, decide_eq_true_eq]
  rcases h with ⟨hd, hb⟩ | ⟨hlow, hhigh, hb | hb⟩ <;> rw [hb] <;> simp <;> omega

theorem foldlM_hexUnit {bs : List UInt8} {u : ℕ} (h : Text.HexUnit bs u) (found : List Token)
    (held : List UInt8) :
    bs.foldlM step ⟨found, .hex 4 held⟩ = some ⟨found, .text (bs.reverse ++ held)⟩ := by
  obtain ⟨a, b, c, d, w, x, y, z, rfl, ha, hb, hc, hd, -⟩ := h
  have hstep : ∀ missing held e v, Text.HexDigit e v → step ⟨found, .hex missing held⟩ e =
      if missing ≤ 1 then some ⟨found, .text (e :: held)⟩
      else some ⟨found, .hex (missing - 1) (e :: held)⟩ :=
    fun missing held e v he => if_pos (isHexDigit_of_hexDigit he)
  simp [hstep _ _ _ _ ha, hstep _ _ _ _ hb, hstep _ _ _ _ hc, hstep _ _ _ _ hd]

theorem foldlM_text {raw : List UInt8} (h : Text.WellFormed raw) (found : List Token)
    (held : List UInt8) :
    raw.foldlM step ⟨found, .text held⟩ = some ⟨found, .text (raw.reverse ++ held)⟩ := by
  induction h generalizing held with
  | nil => rfl
  | @plain b raw hquote hescape hcontrol h ih =>
    have hstep : step ⟨found, .text held⟩ b = some ⟨found, .text (b :: held)⟩ := by
      change (if b = 34 then _ else _) = _
      rw [if_neg hquote, if_neg hescape, if_neg (UInt8.not_lt.mpr hcontrol)]
    rw [List.foldlM_cons, hstep, List.reverse_cons, List.append_assoc]
    exact ih (b :: held)
  | @short b c raw hb h ih =>
    have hletter : ∀ e ∈ Text.shortEscapes, e.1 ≠ 117 ∧ Token.isEscapeLetter e.1 = true := by
      decide
    obtain ⟨hunit, hb⟩ := hletter _ hb
    have hopen : step ⟨found, .text held⟩ 92 = some ⟨found, .escape (92 :: held)⟩ := rfl
    have hstep : step ⟨found, .escape (92 :: held)⟩ b =
        some ⟨found, .text (b :: 92 :: held)⟩ := by
      change (if b = 117 then _ else _) = _
      rw [if_neg hunit, if_pos hb]
    have hrest := ih (b :: 92 :: held)
    rw [List.foldlM_cons, hopen]
    change List.foldlM step _ (b :: raw) = _
    rw [List.foldlM_cons, hstep]
    change List.foldlM step _ raw = _
    rw [hrest]
    simp
  | @unit bs raw u hu h ih =>
    have hopen : [92, 117].foldlM step ⟨found, .text held⟩ =
        some ⟨found, .hex 4 (117 :: 92 :: held)⟩ := rfl
    have hrest := ih (bs.reverse ++ 117 :: 92 :: held)
    change ([92, 117] ++ (bs ++ raw)).foldlM step _ = _
    rw [List.foldlM_append, hopen]
    change List.foldlM step _ (bs ++ raw) = _
    rw [List.foldlM_append, foldlM_hexUnit hu]
    change List.foldlM step _ raw = _
    rw [hrest]
    simp

theorem fresh_found (found : List Token) (b : UInt8) :
    ∃ new, (fresh found b).found = new ++ found := by
  unfold fresh
  split
  · exact ⟨[], rfl⟩
  split
  · exact ⟨[], rfl⟩
  split
  · exact ⟨[_], rfl⟩
  · exact ⟨[], rfl⟩

/-- Tokens are only added, and a token that has been begun is added in the end. -/
theorem step_found {s r : Scanner} {b : UInt8} (h : s.step b = some r) :
    ∃ new, r.found = new ++ s.found ∧ (new = [] → s.mode ≠ .between → r.mode ≠ .between) := by
  obtain ⟨found, mode⟩ := s
  cases mode with
  | between =>
    cases h
    obtain ⟨new, hnew⟩ := fresh_found found b
    exact ⟨new, hnew, fun _ hmode => absurd rfl hmode⟩
  | word held =>
    change (if endsWord b then _ else _) = _ at h
    split at h
    · obtain ⟨t, -, rfl⟩ := Option.map_eq_some_iff.mp h
      obtain ⟨new, hnew⟩ := fresh_found (t :: found) b
      exact ⟨new ++ [t], by rw [hnew, List.append_assoc]; rfl, by simp⟩
    · cases h
      exact ⟨[], rfl, fun _ _ => nofun⟩
  | text held =>
    change (if b = 34 then _ else if b = 92 then _ else if b < 32 then _ else _) = _ at h
    split at h
    · cases h
      exact ⟨[_], rfl, nofun⟩
    split at h
    · cases h
      exact ⟨[], rfl, fun _ _ => nofun⟩
    split at h
    · cases h
    · cases h
      exact ⟨[], rfl, fun _ _ => nofun⟩
  | escape held =>
    change (if b = 117 then _ else if Token.isEscapeLetter b then _ else _) = _ at h
    split at h
    · cases h
      exact ⟨[], rfl, fun _ _ => nofun⟩
    split at h
    · cases h
      exact ⟨[], rfl, fun _ _ => nofun⟩
    · cases h
  | hex missing held =>
    change (if Token.isHexDigit b then if missing ≤ 1 then _ else _ else _) = _ at h
    split at h
    · split at h
      · cases h
        exact ⟨[], rfl, fun _ _ => nofun⟩
      · cases h
        exact ⟨[], rfl, fun _ _ => nofun⟩
    · cases h

/-- More than these tokens has been found or begun. -/
def Beyond (found : List Token) (s : Scanner) : Prop :=
  ∃ more, s.found = more ++ found ∧ (more = [] → s.mode ≠ .between)

namespace Beyond

variable {found : List Token} {s r : Scanner}

theorem step (h : s.Beyond found) {b : UInt8} (hr : s.step b = some r) : r.Beyond found := by
  obtain ⟨more, hmore, hmode⟩ := h
  obtain ⟨new, hnew, hkept⟩ := step_found hr
  refine ⟨new ++ more, by rw [hnew, hmore, List.append_assoc], fun hnil => ?_⟩
  obtain ⟨hnil, hnil'⟩ := List.append_eq_nil_iff.mp hnil
  exact hkept hnil (hmode hnil')

theorem run (h : s.Beyond found) {bs : List UInt8} (hr : bs.foldlM Scanner.step s = some r) :
    r.Beyond found := by
  induction bs generalizing s with
  | nil =>
    cases hr
    exact h
  | cons b rest ih =>
    rw [List.foldlM_cons] at hr
    obtain ⟨t, ht, hr⟩ := Option.bind_eq_some_iff.mp hr
    exact ih (h.step ht) hr

theorem finish? (h : s.Beyond found) {all : List Token} (hall : s.finish? = some all) :
    ∃ more, more ≠ [] ∧ all = found.reverse ++ more := by
  obtain ⟨more, hmore, hmode⟩ := h
  obtain ⟨before, mode⟩ := s
  dsimp only at hmore
  subst hmore
  cases mode with
  | between =>
    cases hall
    exact ⟨more.reverse, by simpa using hmode, List.reverse_append⟩
  | word held =>
    obtain ⟨t, -, rfl⟩ := Option.map_eq_some_iff.mp hall
    exact ⟨(t :: more).reverse, by simp, by simp⟩
  | text held => cases hall
  | escape held => cases hall
  | hex missing held => cases hall

/-- A byte that is not blank begins a token. -/
theorem of_nonblank {bs : List UInt8} (hbs : ¬ Blank bs)
    (hr : bs.foldlM Scanner.step ⟨found, .between⟩ = some r) : r.Beyond found := by
  induction bs with
  | nil => exact absurd nofun hbs
  | cons b rest ih =>
    have hstep : Scanner.step ⟨found, .between⟩ b = some (fresh found b) := rfl
    rw [List.foldlM_cons, hstep] at hr
    by_cases hb : b = 32 ∨ b = 9 ∨ b = 10 ∨ b = 13
    · have hfresh : fresh found b = ⟨found, .between⟩ := if_pos (decide_eq_true hb)
      rw [hfresh] at hr
      exact ih (fun hrest => hbs (List.forall_mem_cons.mpr ⟨hb, hrest⟩)) hr
    · refine run ?_ hr
      have hspace : Token.isSpace b = false := decide_eq_false hb
      unfold fresh
      rw [hspace, if_neg Bool.false_ne_true]
      split
      · exact ⟨[], rfl, fun _ => nofun⟩
      split
      · exact ⟨[_], rfl, nofun⟩
      · exact ⟨[], rfl, fun _ => nofun⟩

end Beyond

end Scanner

theorem Scanner.endsWord_of_any {w : List UInt8} (h : w.any endsWord = false) :
    ∀ b ∈ w, endsWord b = false :=
  fun b hb => Bool.eq_false_iff.mpr (List.any_eq_false.mp h b hb)

theorem Scanner.endsWord_numeric : ∀ b ∈ Number.numericBytes, endsWord b = false :=
  endsWord_of_any rfl

/-- No numeric byte begins a literal. -/
theorem Token.ofWord?_numeric {w : List UInt8} (h : ∀ b ∈ w, b ∈ Number.numericBytes) :
    ofWord? w = (Number.ofText? w).map number := by
  have hword : ∀ b rest, b ∉ Number.numericBytes → w ≠ b :: rest := by
    rintro b rest hb rfl
    exact hb (h b List.mem_cons_self)
  unfold ofWord?
  rw [if_neg (hword _ _ (by decide)), if_neg (hword _ _ (by decide)),
    if_neg (hword _ _ (by decide))]

theorem Token.isWord_of_ofWord? {w : List UInt8} {t : Token} (h : ofWord? w = some t) :
    t.isWord = true := by
  unfold ofWord? at h
  repeat' split at h
  · cases h
    rfl
  · cases h
    rfl
  · cases h
    rfl
  · obtain ⟨n, -, rfl⟩ := Option.map_eq_some_iff.mp h
    rfl

theorem tokens?_word {w : List UInt8} (hne : w ≠ []) (h : ∀ b ∈ w, Scanner.endsWord b = false) :
    tokens? w = (Token.ofWord? w).map fun t => [t] := by
  obtain ⟨b, rest, rfl⟩ := List.exists_cons_of_ne_nil hne
  have hfirst : Scanner.step Scanner.start b = some ⟨[], .word [b]⟩ :=
    congrArg some (Scanner.fresh_word (h b List.mem_cons_self) [])
  unfold tokens?
  rw [List.foldlM_cons, hfirst]
  change (rest.foldlM Scanner.step ⟨[], .word [b]⟩).bind _ = _
  rw [Scanner.foldlM_word fun c hc => h c (List.mem_cons_of_mem b hc), Option.bind_some]
  change (Token.ofWord? (rest.reverse ++ [b]).reverse).map _ = _
  rw [List.reverse_append, List.reverse_reverse]
  rfl

/-- From any point between two tokens, the text is read as these tokens. -/
def Spells (bs : List UInt8) (ts : List Token) : Prop :=
  ∀ found, ∃ s, bs.foldlM Scanner.step ⟨found, .between⟩ = some s ∧
    s.Holds (ts.reverse ++ found)

/-- The text spells these tokens and ends between two tokens. -/
def Closes (bs : List UInt8) (ts : List Token) : Prop :=
  ∀ found, bs.foldlM Scanner.step ⟨found, .between⟩ = some ⟨ts.reverse ++ found, .between⟩

/-- Ends a word that stands in front of it. -/
def Breaks (bs : List UInt8) : Prop := ∀ b ∈ bs.head?, Scanner.endsWord b = true

namespace Closes

theorem spells {bs : List UInt8} {ts : List Token} (h : Closes bs ts) : Spells bs ts :=
  fun found => ⟨_, h found, rfl⟩

theorem append {as bs : List UInt8} {ts us : List Token} (h : Closes as ts) (hrest : Spells bs us) :
    Spells (as ++ bs) (ts ++ us) := by
  intro found
  obtain ⟨s, hs, hholds⟩ := hrest (ts.reverse ++ found)
  refine ⟨s, ?_, ?_⟩
  · rw [List.foldlM_append, h found]
    exact hs
  · rw [List.reverse_append, List.append_assoc]
    exact hholds

theorem nil : Closes [] [] := fun _ => rfl

theorem blank {ws : List UInt8} (h : Blank ws) : Closes ws [] := by
  induction ws with
  | nil => exact nil
  | cons b rest ih =>
    intro found
    have hspace : Token.isSpace b = true := decide_eq_true (h b List.mem_cons_self)
    have hfresh : Scanner.fresh found b = ⟨found, .between⟩ := if_pos hspace
    have hstep : Scanner.step ⟨found, .between⟩ b = some ⟨found, .between⟩ := congrArg some hfresh
    rw [List.foldlM_cons, hstep]
    exact ih (fun c hc => h c (List.mem_cons_of_mem b hc)) found

theorem punctuation {b : UInt8} {t : Token} (h : Token.punctuation? b = some t) :
    Closes [b] [t] := by
  intro found
  have hstep : Scanner.step ⟨found, .between⟩ b = some ⟨t :: found, .between⟩ :=
    congrArg some (Scanner.fresh_punctuation h found)
  rw [List.foldlM_cons, hstep]
  rfl

theorem text {raw : List UInt8} (h : Text.WellFormed raw) :
    Closes (34 :: raw ++ [34]) [.text raw] := by
  intro found
  have hopen : Scanner.step ⟨found, .between⟩ 34 = some ⟨found, .text []⟩ := rfl
  have hclose : Scanner.step ⟨found, .text raw.reverse⟩ 34 =
      some ⟨.text raw.reverse.reverse :: found, .between⟩ := rfl
  rw [List.reverse_reverse] at hclose
  rw [List.cons_append, List.foldlM_cons, hopen]
  change List.foldlM Scanner.step _ (raw ++ [34]) = _
  rw [List.foldlM_append, Scanner.foldlM_text h, List.append_nil]
  change (Scanner.step ⟨found, .text raw.reverse⟩ 34).bind pure = _
  rw [hclose]
  rfl

end Closes

namespace Spells

theorem tokens? {bs : List UInt8} {ts : List Token} (h : Spells bs ts) : tokens? bs = some ts := by
  obtain ⟨s, hs, hholds⟩ := h []
  unfold Json.tokens? Scanner.start
  rw [hs, Option.bind_some, hholds.finish?, List.append_nil, List.reverse_reverse]

theorem append {as bs : List UInt8} {ts us : List Token} (h : Spells as ts) (hbs : Breaks bs)
    (hrest : Spells bs us) : Spells (as ++ bs) (ts ++ us) := by
  intro found
  obtain ⟨s, hs, hholds⟩ := h found
  obtain ⟨r, hr, hlast⟩ := hrest (ts.reverse ++ found)
  rw [List.foldlM_append, hs, List.reverse_append, List.append_assoc]
  cases bs with
  | nil =>
    -- Nothing stands behind the word, so nothing has to end it.
    cases us with
    | nil => exact ⟨s, rfl, hholds⟩
    | cons u us =>
      cases hr
      have hlength := congrArg List.length hlast
      simp at hlength
      omega
  | cons b rest =>
    refine ⟨r, ?_, hlast⟩
    change (b :: rest).foldlM Scanner.step s = _
    rw [List.foldlM_cons] at hr ⊢
    rw [hholds.step (hbs b rfl)]
    exact hr

theorem word {w : List UInt8} {t : Token} (hw : Token.ofWord? w = some t) (hne : w ≠ [])
    (hplain : ∀ b ∈ w, Scanner.endsWord b = false) : Spells w [t] := by
  intro found
  cases w with
  | nil => exact absurd rfl hne
  | cons b rest =>
    have hfirst : Scanner.step ⟨found, .between⟩ b = some ⟨found, .word [b]⟩ :=
      congrArg some (Scanner.fresh_word (hplain b List.mem_cons_self) found)
    refine ⟨⟨found, .word (rest.reverse ++ [b])⟩, ?_, t, ?_, rfl⟩
    · rw [List.foldlM_cons, hfirst]
      exact Scanner.foldlM_word (fun x hx => hplain x (List.mem_cons_of_mem b hx)) found [b]
    · rw [List.reverse_append, List.reverse_reverse]
      exact hw

theorem number {n : Number} {w : List UInt8} (h : n.Spelling w) : Spells w [.number n] := by
  have hbytes := h.mem_numericBytes
  refine word ?_ h.ne_nil fun b hb => Scanner.endsWord_numeric b (hbytes b hb)
  rw [Token.ofWord?_numeric hbytes, h.ofText?]
  rfl

/-- A text that spells a last token other than a word ends behind it. -/
theorem closes {bs : List UInt8} {ts : List Token} {t : Token} (h : Spells bs (ts ++ [t]))
    (ht : t.isWord = false) : Closes bs (ts ++ [t]) := by
  intro found
  obtain ⟨⟨before, mode⟩, hs, hholds⟩ := h found
  rw [hs]
  cases mode with
  | between =>
    cases hholds
    rfl
  | word held =>
    obtain ⟨u, hu, hfound⟩ := hholds
    rw [List.reverse_append, List.reverse_singleton, List.singleton_append,
      List.cons_append] at hfound
    have hword := Token.isWord_of_ofWord? hu
    rw [← (List.cons.inj hfound).1, ht] at hword
    cases hword
  | text held => cases hholds
  | escape held => cases hholds
  | hex missing held => cases hholds

end Spells

namespace TokenText

variable {t : Token} {w : List UInt8}

theorem closes (h : TokenText t w) (ht : t.isWord = false) : Closes w [t] := by
  cases h with
  | beginObject => exact .punctuation rfl
  | endObject => exact .punctuation rfl
  | beginArray => exact .punctuation rfl
  | endArray => exact .punctuation rfl
  | colon => exact .punctuation rfl
  | comma => exact .punctuation rfl
  | null => cases ht
  | yes => cases ht
  | no => cases ht
  | number h => cases ht
  | text h => exact .text h

/-- A token other than a word begins with a byte that ends words. -/
theorem breaks (h : TokenText t w) (ht : t.isWord = false) (rest : List UInt8) :
    Breaks (w ++ rest) := by
  intro b hb
  cases h with
  | beginObject | endObject | beginArray | endArray | colon | comma | text h =>
    cases hb
    rfl
  | null | yes | no | number h => cases ht

theorem spells (h : TokenText t w) : Spells w [t] := by
  cases h with
  | beginObject | endObject | beginArray | endArray | colon | comma | text h =>
    exact (TokenText.closes (by constructor <;> assumption) rfl).spells
  | null => exact .word rfl (by decide) (Scanner.endsWord_of_any rfl)
  | yes => exact .word rfl (by decide) (Scanner.endsWord_of_any rfl)
  | no => exact .word rfl (by decide) (Scanner.endsWord_of_any rfl)
  | number h => exact .number h

end TokenText

namespace Layout

variable {ts : List Token} {bs : List UInt8}

theorem breaks (h : Layout ts bs) (hts : ∀ t ∈ ts.head?, t.isWord = false) : Breaks bs := by
  have hblank : ∀ {ws rest : List UInt8}, Blank ws → Breaks rest → Breaks (ws ++ rest) := by
    intro ws rest hws hrest
    cases ws with
    | nil => exact hrest
    | cons b ws =>
      rintro c hc
      cases hc
      rcases hws b List.mem_cons_self with rfl | rfl | rfl | rfl <;> rfl
  cases h with
  | nil hws =>
    rw [← List.append_nil bs]
    exact hblank hws nofun
  | cons hws hw h => exact hblank hws (hw.breaks (hts _ rfl) _)

/-- A text of the grammar is read as its tokens, as long as no two words stand beside each other. -/
theorem spells (h : Layout ts bs) (hts : Token.Apart ts) : Spells bs ts := by
  induction h with
  | nil hws => exact (Closes.blank hws).spells
  | @cons t ts ws w bs hws hw h ih =>
    obtain ⟨hhead, hrest⟩ := List.isChain_cons.mp hts
    have htoken : Spells (w ++ bs) ([t] ++ ts) := by
      cases ht : t.isWord with
      | false => exact (hw.closes ht).append (ih hrest)
      | true =>
        refine hw.spells.append (h.breaks fun u hu => ?_) (ih hrest)
        have := hhead u hu
        rw [ht] at this
        exact this.resolve_left Bool.noConfusion
    exact (Closes.blank hws).append htoken

theorem parse? {v : Node} (h : Layout v.tokens bs) : Node.parse? bs = some v := by
  unfold Node.parse?
  rw [(h.spells v.apart_tokens).tokens?, Option.bind_some, v.ofTokens?_tokens]

/-- Where something other than blanks stands behind an object, the text is refused. -/
theorem parse?_append {members : List (List UInt8 × Node)}
    (h : Layout (Node.object members).tokens bs) {rest : List UInt8} (hrest : ¬ Blank rest) :
    Node.parse? (bs ++ rest) = none := by
  have hclosed : Closes bs (Node.object members).tokens :=
    (h.spells (Node.apart_tokens _)).closes rfl
  unfold Node.parse? tokens? Scanner.start
  rw [List.foldlM_append, hclosed []]
  change ((rest.foldlM Scanner.step _).bind Scanner.finish?).bind Node.ofTokens? = none
  cases hscan : rest.foldlM Scanner.step ⟨(Node.object members).tokens.reverse ++ [], .between⟩ with
  | none => rfl
  | some r =>
    have hbeyond := Scanner.Beyond.of_nonblank hrest hscan
    rw [Option.bind_some]
    cases hall : r.finish? with
    | none => rfl
    | some all =>
      obtain ⟨more, hmore, rfl⟩ := hbeyond.finish? hall
      rw [List.append_nil, List.reverse_reverse]
      exact Node.ofTokens?_tokens_append _ hmore

end Layout

end LiveMedia.Json
