import SheetImports.Proofs.Characters
import SheetImports.Proofs.Comments
import SheetImports.Proofs.Offsets

/-!
# Url values in declarations

The first scan passes a url as a whole, up to the first closing parenthesis. The second scan knows
no url outside the targets of a statement and goes through the value octet by octet. So the value of
a url is opaque if both come out of it together: nothing in it begins a statement and its literals
are closed (`Inert`), and the parenthesis that ends it is the first one, or up to some place behind
it the first scan finds no comment, with the value or without it (`PassedBefore`). Then what follows
is read as if the url were empty (`imports_declaration`).
-/

namespace SheetImports.Grammar

open Stylesheet Utf8

/-! ## Inert values -/

/-- What follows an `@` is the keyword of a statement and no longer word. -/
def BeginsKeyword (text : Text) : Prop :=
  ∃ keyword rest, text = keyword ++ rest ∧ keyword.map Char.toLower = importKeyword ∧
    ∀ b ∈ (encode rest).head?, isWordByte b = false

/-- The texts in which every literal is closed and no statement begins outside a literal. -/
inductive Inert : Text → Prop
  | nil : Inert []
  | plain {c : Char} {text : Text} (hquote : c ∉ quotes) (hkeyword : c = '@' → ¬ BeginsKeyword text)
      (h : Inert text) : Inert (c :: text)
  | literal (literal : Literal) {text : Text} (h : Inert text) : Inert (literal.text ++ text)

theorem Inert.append_plain {first text : Text} (hfirst : ∀ c ∈ first, c ∉ quotes ∧ c ≠ '@')
    (h : Inert text) : Inert (first ++ text) := by
  induction first with
  | nil => exact h
  | cons c first ih =>
    obtain ⟨hquote, hat⟩ := hfirst c List.mem_cons_self
    apply Inert.plain hquote
    · intro heq
      exact absurd heq hat
    · apply ih
      intro d hd
      exact hfirst d (List.mem_cons_of_mem _ hd)

theorem importKeyword_lt : ∀ c ∈ importKeyword, c.toNat < 0x80 := forall_mem_of_all (by decide)

/-- The parenthesis behind a value ends a word that the value ends with. -/
theorem afterImport?_eq_none {text : Text} (h : ¬ BeginsKeyword text) (rest : Bytes) :
    afterImport? atSign (encode text ++ closeParen :: rest) = none := by
  rw [afterImport?, if_pos rfl, Option.filter_eq_none_iff]
  intro after hafter
  by_cases hprefix : importKeyword <+: text.map Char.toLower
  · obtain ⟨others, hothers⟩ := hprefix
    obtain ⟨keyword, behind, rfl, hkeyword, -⟩ := List.map_eq_append_iff.1 hothers.symm
    have hword : afterWord? importWord (encode keyword ++ (encode behind ++ closeParen :: rest))
        = some (encode behind ++ closeParen :: rest) :=
      afterWord?_encode_of_eq importKeyword_lt hkeyword _
    rw [encode_append, List.append_assoc, hword] at hafter
    obtain rfl := Option.some.inj hafter
    -- the keyword goes on, or else it would begin a statement
    cases hbehind : encode behind with
    | nil =>
      exact absurd ⟨keyword, behind, rfl, hkeyword, by simp [hbehind]⟩ h
    | cons b bytes =>
      cases hb : isWordByte b with
      | true => simp [hb]
      | false =>
        refine absurd ⟨keyword, behind, rfl, hkeyword, ?_⟩ h
        intro d hd
        rw [hbehind] at hd
        rw [← Option.some.inj hd]
        exact hb
  · have hnone : afterWord? importWord (encode text ++ closeParen :: rest) = none := by
      have hclose : ∀ c ∈ importKeyword, lower closeParen ≠ octet c :=
        forall_mem_of_all (by decide)
      apply afterWord?_encode_eq_none importKeyword_lt hprefix
      intro b hb
      rw [← Option.some.inj hb]
      exact hclose
    rw [hnone] at hafter
    cases hafter

/-- The second scan comes out of an inert value at its end. -/
theorem statements_inert {value : Text} (h : Inert value) (size : Nat) (rest : Bytes) :
    statements size (encode value ++ closeParen :: rest)
      = statements size (closeParen :: rest) := by
  induction h with
  | nil => rfl
  | @plain c text hquote hkeyword _ ih =>
    rcases Nat.lt_or_ge c.toNat 0x80 with hlt | hge
    · rw [encode_cons_of_lt hlt, List.cons_append]
      have hnone : afterImport? (octet c) (encode text ++ closeParen :: rest) = none := by
        by_cases hat : c = '@'
        · rw [hat]
          exact afterImport?_eq_none (hkeyword hat) rest
        · apply if_neg
          intro heq
          exact hat (octet_injective hlt (by decide) heq)
      rw [statements_of_none ?_ hnone, ih]
      rw [isQuote_octet hlt, isQuote_of_notMem hquote]
    · rw [encode_cons, List.append_assoc, statements_append_of_skip, ih]
      intro b hb
      have hhigh := le_of_mem_utf8EncodeChar hge hb
      exact ⟨isQuote_of_le hhigh, ne_of_high (by decide) hhigh⟩
  | literal literal _ ih =>
    rw [encode_append, List.append_assoc, encode_literal_append,
      statements_literal (isQuote_quote _), literalTail_encode literal.enclosed]
    exact ih

/-! ## Texts without comments -/

/-- No comment begins in the text, wherever its literals and urls are. -/
def CommentFree (text : Text) : Prop := ¬ "//".toList <:+: text ∧ ¬ "/*".toList <:+: text

theorem CommentFree.of_append {first rest : Text} (h : CommentFree (first ++ rest)) :
    CommentFree rest := by
  have hrest : rest <:+: first ++ rest := List.IsSuffix.isInfix (List.suffix_append first rest)
  exact ⟨fun hline => h.1 (hline.trans hrest), fun hblock => h.2 (hblock.trans hrest)⟩

/-- A text without a slash does not begin what opens a comment. -/
theorem infix_of_append {d : Char} {first rest : Text} (hfirst : '/' ∉ first)
    (h : ['/', d] <:+: first ++ rest) : ['/', d] <:+: rest := by
  induction first with
  | nil => exact h
  | cons c first ih =>
    rcases List.infix_cons_iff.1 h with hprefix | hinfix
    · exact absurd (List.cons_prefix_cons.1 hprefix).1 fun heq => hfirst (heq ▸ List.mem_cons_self)
    · exact ih (fun hmem => hfirst (List.mem_cons_of_mem _ hmem)) hinfix

theorem CommentFree.append {first rest : Text} (hfirst : '/' ∉ first) (h : CommentFree rest) :
    CommentFree (first ++ rest) :=
  ⟨fun hline => h.1 (infix_of_append hfirst hline),
    fun hblock => h.2 (infix_of_append hfirst hblock)⟩

/-- Two ASCII octets in a row are two characters in a row. -/
theorem infix_of_encode {c d : Char} (hc : c.toNat < 0x80) (hd : d.toNat < 0x80) {text : Text}
    (h : [octet c, octet d] <:+: encode text) : [c, d] <:+: text := by
  obtain ⟨x, y, h⟩ := h
  have hlt : ∀ e : Char, e.toNat < 0x80 → octet e < 0x80 := by
    intro e he
    rw [UInt8.lt_iff_toNat_lt, octet_toNat he]
    exact he
  have htext : IsText (x ++ octet c :: (octet d :: y)) := by
    refine ⟨text, ?_⟩
    rw [← h, List.append_assoc]
    rfl
  obtain ⟨⟨before, rfl⟩, -, hbehind⟩ := htext.split (hlt c hc)
  obtain ⟨behind, rfl⟩ := hbehind.tail (hlt d hd)
  refine ⟨before, behind, ?_⟩
  rw [← decode_encode text, ← h, ← decode_encode (before ++ [c, d] ++ behind), encode_append,
    encode_append, encode_cons_of_lt hc, encode_cons_of_lt hd]
  rfl

theorem source_infix {piece : Piece} {bytes : Bytes} (h : piece ∈ pieces bytes) :
    piece.source <:+: bytes := by
  obtain ⟨first, rest, hsplit⟩ := List.append_of_mem h
  refine ⟨first.flatMap Piece.source, rest.flatMap Piece.source, ?_⟩
  rw [← flatMap_source_pieces bytes, hsplit, List.flatMap_append, List.flatMap_cons,
    List.append_assoc]

/-- The first scan leaves the text as it is, and goes on at the rest behind it. -/
def PassedBefore (rest text : Text) : Prop :=
  ∃ cut, pieces (encode (text ++ rest)) = cut ++ pieces (encode rest) ∧
    ∀ piece ∈ cut, piece.blanked = piece.source

/-- A text in which the first scan finds no comment is kept, and the scan goes on behind it. -/
theorem blank_of_passedBefore {text rest : Text} (h : PassedBefore rest text) :
    blank (encode (text ++ rest)) = encode text ++ blank (encode rest) := by
  obtain ⟨cut, hpieces, hcut⟩ := h
  have hsource : encode text ++ encode rest = cut.flatMap Piece.source ++ encode rest := by
    rw [← encode_append, ← flatMap_source_pieces (encode (text ++ rest)), hpieces,
      List.flatMap_append, flatMap_source_pieces]
  rw [blank, hpieces, List.flatMap_append, List.flatMap_congr hcut,
    List.append_cancel_right hsource]
  rfl

/-- Nothing in a text without comments is removed. -/
theorem passedBefore_nil {text : Text} (h : CommentFree text) : PassedBefore [] text := by
  refine ⟨pieces (encode text), ?_, ?_⟩
  · rw [List.append_nil, encode_nil, pieces, List.append_nil]
  intro piece hpiece
  have hinfix := source_infix hpiece
  cases piece with
  | literal => rfl
  | url => rfl
  | plain => rfl
  | lineComment body =>
    have hmarks : [octet '/', octet '/'] <:+: encode text :=
      List.IsInfix.trans ⟨[], body, rfl⟩ hinfix
    exact absurd (infix_of_encode (by decide) (by decide) hmarks) h.1
  | blockComment body closed =>
    have hmarks : [octet '/', octet '*'] <:+: encode text :=
      List.IsInfix.trans ⟨[], body ++ if closed then [star, slash] else [], rfl⟩ hinfix
    exact absurd (infix_of_encode (by decide) (by decide) hmarks) h.2

/-! ## Declarations -/

def beforeUrl : Text := "a\x7bb:".toList

/-- A rule with one declaration, whose value is a url. -/
def declaration (value : Text) : Text :=
  beforeUrl ++ (urlOpening ++ (value ++ [')'])) ++ ['\x7d']

theorem encode_declaration (value : Text) (rest : Bytes) :
    encode (declaration value) ++ rest
      = encode (beforeUrl ++ urlOpening) ++ (encode value ++ (closeParen :: 0x7D :: rest)) := by
  rw [declaration, encode_append, encode_append, encode_append, encode_append, encode_append]
  simp only [List.append_assoc]
  rfl

/-- A url that ends where its value does is a piece. -/
theorem blanks_declaration {value : Text} (h : ')' ∉ value) :
    Blanks (declaration value) (declaration value) := by
  have hbefore : Blanks beforeUrl beforeUrl := blanks_of_plain (forall_mem_of_all (by decide))
  have hbehind : Blanks ['\x7d'] ['\x7d'] := blanks_of_plain (forall_mem_of_all (by decide))
  exact (hbefore.append (blanks_url rfl h)).append hbehind

/-- What is left behind the declaration does not depend on the value of its url. -/
theorem blank_declaration {value rest : Text}
    (h : ')' ∉ value ∨ ∃ first others, rest = first ++ others ∧
      PassedBefore others (declaration value ++ first) ∧
      PassedBefore others (declaration [] ++ first)) :
    ∃ left, blank (encode (declaration value ++ rest)) = encode (declaration value) ++ left ∧
      blank (encode (declaration [] ++ rest)) = encode (declaration []) ++ left := by
  rcases h with hparen | ⟨first, others, rfl, hvalue, hempty⟩
  · rw [encode_append, encode_append]
    exact ⟨blank (encode rest), blanks_declaration hparen _, blanks_declaration List.not_mem_nil _⟩
  · refine ⟨encode first ++ blank (encode others), ?_, ?_⟩
    · rw [← List.append_assoc, blank_of_passedBefore hvalue, encode_append, List.append_assoc]
    · rw [← List.append_assoc, blank_of_passedBefore hempty, encode_append, List.append_assoc]

/-- A text without comments is passed as a whole, with the value or without it. -/
theorem exists_passedBefore {value rest : Text} (h : CommentFree (declaration value ++ rest)) :
    ∃ first others, rest = first ++ others ∧ PassedBefore others (declaration value ++ first) ∧
      PassedBefore others (declaration [] ++ first) := by
  have hempty : CommentFree (declaration [] ++ rest) := CommentFree.append (by decide) h.of_append
  exact ⟨rest, [], (List.append_nil rest).symm, passedBefore_nil h, passedBefore_nil hempty⟩

/-- The scan comes out of the declaration where its value ends. -/
theorem directives_declaration {value : Text} (hinert : Inert value) (hline : '\n' ∉ value)
    (rest : Bytes) :
    directives (encode (declaration value) ++ rest)
      = (directives (closeParen :: 0x7D :: rest)).map (·.below 0) := by
  have hskip : ∀ b ∈ encode (beforeUrl ++ urlOpening), isQuote b = false ∧ b ≠ atSign :=
    forall_mem_of_all (by decide +kernel)
  have hlines : newlines (encode (beforeUrl ++ urlOpening) ++ encode value) = 0 := by
    have hvalue : newlines (encode value) = 0 := by
      rw [newlines_encode]
      exact List.count_eq_zero.2 hline
    rw [newlines_append, hvalue]
    decide
  have hbehind := directivesIn_append (encode (beforeUrl ++ urlOpening) ++ encode value)
    (closeParen :: 0x7D :: rest)
  rw [hlines] at hbehind
  rw [← hbehind, encode_declaration, directives, directivesIn, statements_append_of_skip hskip,
    statements_inert hinert, List.append_assoc]

/-- What follows a declaration is read as if its url were empty. If the value holds a parenthesis,
then up to some place in what follows there must be no comment for the first scan, whether it goes
through the value or not. -/
theorem imports_declaration {value : Text} (hinert : Inert value) (hline : '\n' ∉ value)
    {rest : Text}
    (h : ')' ∉ value ∨ ∃ first others, rest = first ++ others ∧
      PassedBefore others (declaration value ++ first) ∧
      PassedBefore others (declaration [] ++ first)) :
    imports (declaration value ++ rest) = imports (declaration [] ++ rest) := by
  obtain ⟨left, hvalue, hempty⟩ := blank_declaration h
  rw [imports, imports, hvalue, hempty, directives_declaration hinert hline,
    directives_declaration .nil List.not_mem_nil]

/-- A literal that begins a statement, a url and a comment, and ends none of them. -/
def loudLiteral : Literal :=
  ⟨.double, "@import url(z;/*".toList, enclosed_of_plain (forall_mem_of_all (by decide))⟩

/-- A literal that closes the parenthesis of the url that it stands in. -/
def closingLiteral : Literal :=
  ⟨.double, "a)b".toList, enclosed_of_plain (forall_mem_of_all (by decide))⟩

/-- A line with a literal that is not closed. -/
def openLine : Text := "u'r".toList

/-- An import on the next line, behind a comment with a quote in it. -/
def commentedImport : Text := "\n/*'*/@import 'y';".toList

theorem passedBefore_openLine :
    ∀ text ∈ [declaration (closingLiteral.text ++ []), declaration []],
      PassedBefore commentedImport (text ++ openLine) := by
  have hcut : ∀ text ∈ [declaration (closingLiteral.text ++ []), declaration []], ∃ n ≤ 20,
      pieces (encode (text ++ openLine ++ commentedImport))
          = (pieces (encode (text ++ openLine ++ commentedImport))).take n
            ++ pieces (encode commentedImport) ∧
        ∀ piece ∈ (pieces (encode (text ++ openLine ++ commentedImport))).take n,
          piece.blanked = piece.source := by
    decide +kernel
  intro text htext
  obtain ⟨n, -, hpieces, hblanked⟩ := hcut text htext
  exact ⟨_, hpieces, hblanked⟩

theorem imports_loudDeclaration :
    Inert ("//x?".toList ++ (loudLiteral.text ++ [])) ∧
      imports (declaration ("//x?".toList ++ (loudLiteral.text ++ []))
          ++ "/*'\n*/@import 'y';".toList)
        = imports (declaration [] ++ "/*'\n*/@import 'y';".toList) ∧
      imports (declaration [] ++ "/*'\n*/@import 'y';".toList) = [⟨"y".toList, 2, .stylesheet⟩] ∧
      Inert (closingLiteral.text ++ []) ∧
      imports (declaration (closingLiteral.text ++ []) ++ (openLine ++ commentedImport))
        = imports (declaration [] ++ (openLine ++ commentedImport)) ∧
      imports (declaration [] ++ (openLine ++ commentedImport))
        = [⟨"y".toList, 2, .stylesheet⟩] ∧
      CommentFree (declaration (closingLiteral.text ++ []) ++ "\n@import 'y';".toList) ∧
      imports (declaration (closingLiteral.text ++ []) ++ "\n@import 'y';".toList)
        = imports (declaration [] ++ "\n@import 'y';".toList) := by
  have hloud : Inert ("//x?".toList ++ (loudLiteral.text ++ [])) :=
    Inert.append_plain (forall_mem_of_all (by decide)) (.literal loudLiteral .nil)
  have hclosing : Inert (closingLiteral.text ++ []) := .literal closingLiteral .nil
  have hfree : CommentFree
      (declaration (closingLiteral.text ++ []) ++ "\n@import 'y';".toList) := by
    constructor <;> decide +kernel
  refine ⟨hloud, ?_, by decide +kernel, hclosing, ?_, by decide +kernel, hfree, ?_⟩
  · exact imports_declaration hloud (by decide) (.inl (by decide))
  · refine imports_declaration hclosing (by decide) (.inr ⟨_, _, rfl, ?_, ?_⟩)
    · exact passedBefore_openLine _ List.mem_cons_self
    · exact passedBefore_openLine _ (List.mem_cons_of_mem _ List.mem_cons_self)
  · exact imports_declaration hclosing (by decide) (.inr (exists_passedBefore hfree))

/-- Otherwise a value may bring an import out of a comment behind it, hide one, or make one. -/
theorem imports_declaration_ne :
    imports (declaration closingLiteral.text ++ "/*\n@import 'x';*/\"".toList)
        = [⟨"x".toList, 2, .stylesheet⟩] ∧
      imports (declaration [] ++ "/*\n@import 'x';*/\"".toList) = [] ∧
      imports (declaration "it's".toList ++ "@import 'x';".toList) = [] ∧
      imports (declaration [] ++ "@import 'x';".toList) = [⟨"x".toList, 1, .stylesheet⟩] ∧
      imports (declaration "@import url(x".toList) = [⟨"x".toList, 1, .plainCss⟩] ∧
      imports (declaration []) = [] := by
  decide +kernel

end SheetImports.Grammar
