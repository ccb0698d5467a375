import Stepwise.Proofs.Lexing
import Stepwise.Proofs.TokenStages

/-!
# Writing tokens down

From `blocks` on every list of tokens can be written down and read again: each in its source
form, with one space between two of them (`tokenize_render`).

- `Writable`: a token apart from where it stands, and `Writable.source` its source form. All
  texts are writable, so a source form may hold spaces, quotes and slashes. That is why
  `Lexeme.CutOff` asks of characters only where they end;
- `Writable.lead`: what stands in front of a token.
-/

namespace Stepwise

namespace Lexeme

/-- A quoted text ends with its quote, unless another one follows. -/
theorem cutOff_string (st : Stage) (value : List Char) :
    CutOff st .string ('"' :: (doubled value ++ ['"'])) where
  starts := ⟨'"', _, rfl, by decide⟩
  kept := rfl
  classify {rest} hrest := by
    refine classify_string st value fun hquote => ?_
    exact absurd (hrest.halted '"' hquote) (by decide)

theorem cutOff_truth (b : Bool) :
    CutOff .returns .boolean (if b then "true" else "false").toList := by
  cases b with
  | true => exact Spelled.cutOff ⟨rfl, rfl, rfl⟩
  | false => exact Spelled.cutOff ⟨rfl, rfl, rfl⟩

/-- All stages from `blocks` on cut alike. -/
theorem CutOff.of_blocks {st : Stage} (hst : st.has .blocks = true) {kind : LexClass}
    {cs : List Char} (h : CutOff .returns kind cs) : CutOff st kind cs where
  starts := h.starts
  kept := by
    have hkept := h.kept
    cases kind with
    | comment | blank => cases hkept
    | number | string | boolean | word | name => rfl
  classify hrest :=
    (classify_eq (Stage.classes_eq rfl (Stage.booleans_of_blocks hst)) _).trans (h.classify hrest)

end Lexeme

/-- A token that can be written down, apart from where it stands. -/
inductive Writable (st : Stage) where
  /-- A keyword or an operator. -/
  | word (tag : String) (known : tag ∈ Stage.keywords ++ st.operators)
  | truth (b : Bool)
  | name (x : Identifier) (unreserved : Lexeme.isUnreserved x.text.toList = true)
  | number (n : Nat) (short : (Nat.toDigits 10 n).length ≤ Value.digitLimit)
  | string (value : String)

namespace Writable

variable {st : Stage}

def tag : Writable st → String
  | .word tag _ => tag
  | .truth _ => "<boolean>"
  | .name .. => "<identifier>"
  | .number .. => "<number>"
  | .string _ => "<string>"

def value? : Writable st → Option Value
  | .word .. => none
  | .truth b => some (.int (if b then 1 else 0))
  | .name x _ => some (.text x.text)
  | .number n _ => some (.int n)
  | .string value => some (.text value)

/-- The token, where it stands behind so many characters. -/
def token (w : Writable st) (position : Nat) : Token :=
  Token.make w.tag w.value? position

/-- How the token is written. -/
def source : Writable st → String
  | .word tag _ => tag
  | .truth b => if b then "true" else "false"
  | .name x _ => x.text
  | .number n _ => toString n
  | .string value => String.ofList ('"' :: (Lexeme.doubled value.toList ++ ['"']))

/-- The tokens with one space between two of them. -/
def render (ws : List (Writable st)) : String :=
  " ".intercalate (ws.map source)

/-- What stands in front of a token behind these: each of them, and a space. -/
def lead (before : List (Writable st)) : String :=
  String.join (before.map fun w => w.source ++ " ")

/-- The class of the source form. -/
def kind : Writable st → LexClass
  | .word tag _ => .word tag
  | .truth _ => .boolean
  | .name .. => .name
  | .number .. => .number
  | .string _ => .string

/-- **The source form is cut off at a space.** -/
theorem cutOff (hst : st.has .blocks = true) (w : Writable st) :
    Lexeme.CutOff st w.kind w.source.toList := by
  cases w with
  | word tag known =>
    have hoperators : st.operators = Stage.operators .returns := by
      have hlast : Stage.has .returns .booleans = true := rfl
      simp [Stage.operators, Stage.booleans_of_blocks hst, hlast]
    rw [hoperators] at known
    exact (Lexeme.spelled_word known).cutOff.of_blocks hst
  | truth b => exact (Lexeme.cutOff_truth b).of_blocks hst
  | name x unreserved => exact (Lexeme.spelled_name x.spelled unreserved).cutOff
  | number n short =>
    have hsource : (toString n).toList = Nat.toDigits 10 n := Nat.toList_repr
    rw [source, hsource]
    exact (Lexeme.spelled_toDigits st n).cutOff
  | string value =>
    rw [source, String.toList_ofList]
    exact Lexeme.cutOff_string st value.toList

/-- **The lexeme of the source form makes the token.** -/
theorem token_source (hst : st.has .blocks = true) (w : Writable st) (position : Nat) :
    Lexeme.token st ⟨w.kind, w.source.toList, position⟩ = .ok (w.token position) := by
  have htag : ∀ word, st.literalTag word = "<" ++ word ++ ">" := Lexeme.literalTag_of_blocks hst
  cases w with
  | word tag known => exact Lexeme.token_word hst tag _ position
  | truth b =>
    have hvalue : Lexeme.truthValue st (if b then "true" else "false").toList =
        .int (if b then 1 else 0) := by
      cases b <;> simp [Lexeme.truthValue, Stage.booleans_of_blocks hst]
    simp only [kind, source, Lexeme.token, Stage.booleanTag, htag, hvalue]
    rfl
  | name x unreserved =>
    simp only [kind, source, Lexeme.token, Stage.nameTag, htag, String.ofList_toList]
    rfl
  | number n short =>
    -- an integer is written with its digits, which are read back
    have hsource : (toString n).toList = Nat.toDigits 10 n := Nat.toList_repr
    simp only [kind, source, hsource, Lexeme.token, Stage.numberTag, htag,
      Lexeme.numeral_toDigits short]
    rfl
  | string value =>
    have hvalue : Lexeme.unquote ('"' :: (Lexeme.doubled value.toList ++ ['"'])) = value := by
      simp [Lexeme.unquote, Lexeme.undouble_doubled]
    simp only [kind, source, String.toList_ofList, Lexeme.token, Stage.stringTag, htag, hvalue]
    rfl

/-- The tokens of the rendering, where it stands behind `position` characters. -/
def tokensFrom : Nat → List (Writable st) → List Token
  | _, [] => []
  | position, w :: ws => w.token position :: tokensFrom (position + w.source.length + 1) ws

theorem length_tokensFrom (ws : List (Writable st)) (position : Nat) :
    (tokensFrom position ws).length = ws.length := by
  induction ws generalizing position with
  | nil => rfl
  | cons w ws ih => rw [tokensFrom, List.length_cons, ih, List.length_cons]

/-- The lexemes of the source forms make the tokens. -/
theorem mapM_token_placed (hst : st.has .blocks = true) (ws : List (Writable st))
    (position : Nat) :
    (Lexeme.placed position (ws.map fun w => (w.kind, w.source.toList))).mapM
      (Lexeme.token st) = .ok (tokensFrom position ws) := by
  induction ws generalizing position with
  | nil => rfl
  | cons w ws ih =>
    rw [List.map_cons, Lexeme.placed, List.mapM_cons, token_source hst, ih]
    simp only [String.length_toList]
    rfl

theorem toList_render (ws : List (Writable st)) :
    (render ws).toList =
      [' '].intercalate ((ws.map fun w => (w.kind, w.source.toList)).map Prod.snd) := by
  rw [render, String.toList_intercalate, List.map_map, List.map_map]
  rfl

/-- **The text is cut into the tokens**, each at its place. -/
theorem tokenize_eq_tokensFrom (hst : st.has .blocks = true) (ws : List (Writable st)) :
    tokenize st (render ws) = .ok (tokensFrom 0 ws) := by
  have hcut : ∀ x ∈ ws.map fun w => (w.kind, w.source.toList), Lexeme.CutOff st x.1 x.2 := by
    simp only [List.mem_map]
    rintro _ ⟨w, -, rfl⟩
    exact w.cutOff hst
  have hscan := Lexeme.scanFrom_joined hcut 0
  rw [← toList_render] at hscan
  show Lexeme.scanFrom st 0 0 (render ws).toList >>= _ = _
  rw [hscan]
  exact mapM_token_placed hst ws 0

/-- What stands in front of a token is the first one and a space, and what stands between them. -/
theorem lead_cons (w : Writable st) (before : List (Writable st)) :
    lead (w :: before) = w.source ++ " " ++ lead before := by
  simp [lead]

/-- A token stands behind its lead. -/
theorem tokensFrom_getElem? (before : List (Writable st)) (w : Writable st)
    (after : List (Writable st)) (position : Nat) :
    (tokensFrom position (before ++ w :: after))[before.length]? =
      some (w.token (position + (lead before).length)) := by
  induction before generalizing position with
  | nil => rfl
  | cons u before ih =>
    rw [List.cons_append, tokensFrom, List.length_cons, List.getElem?_cons_succ, ih, lead_cons]
    have hlength : (u.source ++ " " ++ lead before).length =
        u.source.length + 1 + (lead before).length := by
      rw [String.length_append, String.length_append]
      rfl
    rw [hlength, Nat.add_assoc, Nat.add_assoc, Nat.add_assoc]

theorem render_cons_cons (w u : Writable st) (ws : List (Writable st)) :
    render (w :: u :: ws) = w.source ++ " " ++ render (u :: ws) := by
  simp [render]

/-- The rendering of tokens in two parts. -/
theorem render_append (before : List (Writable st)) (w : Writable st)
    (after : List (Writable st)) :
    render (before ++ w :: after) = lead before ++ render (w :: after) := by
  induction before with
  | nil => simp [lead]
  | cons u before ih =>
    obtain ⟨v, more, hmore⟩ := List.exists_cons_of_ne_nil (l := before ++ w :: after) (by simp)
    rw [List.cons_append, hmore, render_cons_cons, ← hmore, ih, lead_cons]
    simp only [String.append_assoc]

/-- The text starts with the first source form. -/
theorem render_cons (w : Writable st) (ws : List (Writable st)) :
    ∃ rest, render (w :: ws) = w.source ++ rest := by
  cases ws with
  | nil => exact ⟨"", by simp [render]⟩
  | cons u ws => exact ⟨" " ++ render (u :: ws), by rw [render_cons_cons, String.append_assoc]⟩

end Writable

/-- **Tokens can be written down and read again.** From `blocks` on the source forms of any
tokens, with one space between two of them, are a text that has these tokens, with their tags and
values and in their order. The position of each is how many characters stand before its source
form. -/
theorem tokenize_render {st : Stage} (hst : st.has .blocks = true) (ws : List (Writable st)) :
    ∃ ts, tokenize st (Writable.render ws) = .ok ts ∧ ts.length = ws.length ∧
      ∀ before w after, ws = before ++ w :: after →
        (∃ rest, Writable.render ws = Writable.lead before ++ w.source ++ rest) ∧
        ts[before.length]? = some (w.token (Writable.lead before).length) := by
  refine ⟨_, Writable.tokenize_eq_tokensFrom hst ws, Writable.length_tokensFrom ws 0, ?_⟩
  rintro before w after rfl
  constructor
  · obtain ⟨rest, hrest⟩ := Writable.render_cons w after
    exact ⟨rest, by rw [Writable.render_append, hrest, String.append_assoc]⟩
  · rw [Writable.tokensFrom_getElem?, Nat.zero_add]

/-- Operators that would be one if they stood together, a number in two halves, and a text that
holds quotes, a comment and a line end. -/
def tangled : List (Writable .returns) :=
  [.word "=" (by decide), .word "=" (by decide), .number 3 (by decide), .word "." (by decide),
   .number 5 (by decide), .string "\"//\n\"\"x", .name ⟨"nul", by decide⟩ (by decide), .truth true]

theorem tokenize_render_of_tangled :
    Stage.has .returns .blocks = true ∧ ∃ ts,
      tokenize .returns "= = 3 . 5 \"\"\"//\n\"\"\"\"x\" nul true" = .ok ts ∧
      ts.length = tangled.length ∧
      ∀ before w after, tangled = before ++ w :: after →
        (∃ rest, Writable.render tangled = Writable.lead before ++ w.source ++ rest) ∧
        ts[before.length]? = some (w.token (Writable.lead before).length) :=
  ⟨rfl, tokenize_render rfl tangled⟩

end Stepwise
