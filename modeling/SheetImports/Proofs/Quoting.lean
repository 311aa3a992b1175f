import SheetImports.Proofs.RoundTrip

/-!
# Quoted targets

Between its quotes a target may hold anything but its own quote, a backslash and a line feed: marks
of comments, urls and statements are no marks there, and the other quote is none either. So a
statement that names one target is read as that one (`imports_quotedImport`). But the target is read
without the quotes of either kind at its ends, not only without the two that enclose it. It is
reported as written if and only if no quote stands at either end of it (`quoted_name_kept_iff`).
-/

namespace SheetImports.Text

/-! ## Trimming -/

variable {drop : Char → Bool}

/-- What is dropped from a text stood at its ends, and goes on to where nothing may be dropped. -/
theorem exists_trim (drop : Char → Bool) (text : Text) :
    ∃ before after, text = before ++ trim drop text ++ after ∧
      (∀ c ∈ before ++ after, drop c = true) ∧
      ∀ c, (trim drop text).head? = some c ∨ (trim drop text).getLast? = some c →
        drop c = false := by
  generalize hrest : text.dropWhile drop = rest
  have htrim : trim drop text = (rest.reverse.dropWhile drop).reverse := by
    rw [trim, hrest, trimEnd]
  have hsplit : rest = trim drop text ++ (rest.reverse.takeWhile drop).reverse := by
    rw [htrim, ← List.reverse_append, List.takeWhile_append_dropWhile, List.reverse_reverse]
  refine ⟨text.takeWhile drop, (rest.reverse.takeWhile drop).reverse, ?_, ?_, ?_⟩
  · rw [List.append_assoc, ← hsplit, ← hrest, List.takeWhile_append_dropWhile]
  · intro c hc
    rw [List.mem_append, List.mem_reverse] at hc
    rcases hc with hc | hc
    · exact List.all_eq_true.1 List.all_takeWhile c hc
    · exact List.all_eq_true.1 List.all_takeWhile c hc
  · rintro c (hc | hc)
    · have hhead := List.head?_dropWhile_not drop text
      rw [hrest, hsplit, List.head?_append, hc] at hhead
      exact hhead
    · have hlast := List.head?_dropWhile_not drop rest.reverse
      rw [htrim, List.getLast?_reverse] at hc
      rw [hc] at hlast
      exact hlast

/-- Trimming changes a text only where a character at one of its ends is dropped. -/
theorem trim_eq_self_iff {text : Text} :
    trim drop text = text ↔
      ∀ c, text.head? = some c ∨ text.getLast? = some c → drop c = false := by
  constructor
  · intro h
    obtain ⟨-, -, -, -, hends⟩ := exists_trim drop text
    rwa [h] at hends
  · intro h
    by_cases hne : text = []
    · rw [hne]
      rfl
    · have hnone : ∀ c ∈ ([] : Text), drop c = true := fun c hc => absurd hc List.not_mem_nil
      have htrim := trim_append hnone hnone h hne
      rwa [List.nil_append, List.append_nil] at htrim

/-- A character that may be dropped makes no difference at either end. -/
theorem trim_enclosed {c : Char} (hc : drop c = true) (text : Text) :
    trim drop (c :: (text ++ [c])) = trim drop text := by
  rw [trim, List.dropWhile_cons_of_pos hc, List.dropWhile_append, trim]
  split
  next hempty =>
    rw [List.isEmpty_iff.1 hempty, List.dropWhile_cons_of_pos hc]
    rfl
  next => exact trimEnd_concat_of_drop hc _

end SheetImports.Text

namespace SheetImports.Grammar

open Stylesheet Utf8

/-- What may be written between two quotes as it is. -/
structure Quotable (quote : Quote) (name : Text) : Prop where
  nonempty : name ≠ []
  plain : ∀ c ∈ name, c ≠ quote.char ∧ c ≠ '\\' ∧ c ≠ '\n'

/-- No quote stands at either end. -/
def PlainEnds (name : Text) : Prop := ∀ c, name.head? = some c ∨ name.getLast? = some c → c ∉ quotes

/-! ## Reading the statement -/

section Reading

variable {quote : Quote} {name : Text}

/-- A name between quotes, and the mark behind it. -/
def quotedEnd (quote : Quote) (name : Text) : Text :=
  quote.char :: (name ++ [quote.char]) ++ [';']

/-- The statement that imports a quoted name. -/
def quotedImport (quote : Quote) (name : Text) : Text :=
  "@import ".toList ++ quotedEnd quote name

theorem encode_quotedEnd (quote : Quote) (name : Text) :
    encode (quotedEnd quote name)
      = octet quote.char :: (encode name ++ octet quote.char :: encode [';']) := by
  rw [quotedEnd, encode_append, encode_quoted, List.cons_append, List.append_assoc,
    List.singleton_append]

theorem blank_quotedImport (h : Enclosed quote name) :
    blank (encode (quotedImport quote name)) = encode (quotedImport quote name) := by
  have hkeyword : Blanks "@import ".toList "@import ".toList :=
    blanks_of_plain (forall_mem_of_all (by decide))
  have hmark : Blanks [';'] [';'] := blanks_of_plain (forall_mem_of_all (by decide))
  have hblanks := (hkeyword.append ((blanks_literal ⟨quote, name, h⟩).append hmark)) []
  rw [blank_nil, List.append_nil] at hblanks
  exact hblanks

/-- The list of targets is the literal, whatever is enclosed in it. -/
theorem targets_quotedEnd (h : Enclosed quote name) (size : Nat) :
    targets size (encode (' ' :: quotedEnd quote name))
      = ([⟨size - (encode (quotedEnd quote name)).length,
          ⟨size - (encode (quotedEnd quote name)).length,
            encode (quote.char :: (name ++ [quote.char]))⟩, false⟩], encode [';']) := by
  have hspace : (' ' :: quotedEnd quote name).dropWhile (· ∈ spaces) = quotedEnd quote name := by
    have hquote : quote.char ∉ spaces := by cases quote <;> decide
    rw [List.dropWhile_cons_of_pos (by decide), quotedEnd, List.cons_append,
      List.dropWhile_cons_of_neg (by simpa using hquote)]
  apply targets_last
  · rw [dropWhile_isGap_encode, hspace, encode_quotedEnd, encode_quoted]
    exact target?_literal (isQuote_quote quote) (literalTail_encode h _)
  · decide

/-- The scan finds one statement with one target, which opens on the first line. -/
theorem exists_statement (h : Enclosed quote name) {total : Bytes}
    (htotal : total = encode (quotedImport quote name)) :
    ∃ statement target, statements total.length total = [statement] ∧
      statement.targets = [target] ∧ statement.hasMedia = false ∧ target.isUrl = false ∧
      target.text = unquote name ∧ lineAt total target.mark = 1 := by
  have hkeyword : quotedImport quote name = '@' :: (importKeyword ++ ' ' :: quotedEnd quote name) :=
    rfl
  have hafter : afterImport? atSign (encode (importKeyword ++ ' ' :: quotedEnd quote name))
      = some (encode (' ' :: quotedEnd quote name)) :=
    afterImport?_keyword rfl (by decide) (quotedEnd quote name)
  have hat : octet '@' = atSign := rfl
  have hend : afterStatement (encode [';']) = [] := rfl
  have htargets := targets_quotedEnd h total.length
  have hfound : statements total.length total
      = [statement total.length 0 (encode (' ' :: quotedEnd quote name))] := by
    have hscan := @statements_import total.length _ _ hafter
    rw [htargets, hend, statements, ← hat, ← encode_cons_of_lt (by decide), ← hkeyword, ← htotal,
      Nat.sub_self] at hscan
    exact hscan
  have hline : lineAt total (total.length - (encode (quotedEnd quote name)).length) = 1 := by
    have hfirst : newlines (encode "@import ".toList) = 0 := by decide
    have hsplit : total = encode "@import ".toList ++ encode (quotedEnd quote name) :=
      htotal.trans (encode_append _ _)
    rw [hsplit, lineAt_append, hfirst]
  have htext : unquote (decode (encode (quote.char :: (name ++ [quote.char])))) = unquote name := by
    rw [decode_encode]
    exact Text.trim_enclosed (isQuote_of_mem _ (mem_quotes quote)) name
  refine ⟨_, _, hfound, congrArg Prod.fst htargets, ?_, rfl, htext, hline⟩
  rw [statement, htargets]
  rfl

/-- A quoted name is imported without the quotes at its ends, if anything else is in it. -/
theorem imports_quotedImport (h : Enclosed quote name) :
    imports (quotedImport quote name)
      = if unquote name = [] then []
        else [⟨unquote name, 1, if namesCss (unquote name) then .plainCss else .stylesheet⟩] := by
  generalize htotal : encode (quotedImport quote name) = total
  obtain ⟨statement, target, hstatements, htargets, hmedia, hurl, htext, hline⟩ :=
    exists_statement h htotal.symm
  have hkind : kindOf statement target
      = if namesCss (unquote name) then .plainCss else .stylesheet := by
    rw [kindOf, hurl, hmedia, htext]
    rfl
  rw [imports, blank_quotedImport h, htotal, directives, hstatements, List.flatMap_singleton,
    Statement.directives, htargets, List.filterMap_cons, directive?, htext, hline, hkind]
  by_cases hname : unquote name = []
  · rw [if_pos hname, if_pos hname]
    rfl
  · rw [if_neg hname, if_neg hname]
    rfl

end Reading

/-! ## What is reported -/

theorem mem_quotes_iff {c : Char} : c ∈ quotes ↔ (c == '"' || c == '\'') = true := by
  simp [quotes]

/-- A name is reported as it is if it neither begins nor ends with a quote. -/
theorem unquote_eq_self_iff {name : Text} : unquote name = name ↔ PlainEnds name := by
  rw [unquote, Text.trim_eq_self_iff, PlainEnds]
  simp only [mem_quotes_iff, Bool.not_eq_true]

/-- Only quotes are left out, and none is left at the ends. -/
theorem exists_unquote (name : Text) :
    ∃ before after, name = before ++ unquote name ++ after ∧ (∀ c ∈ before ++ after, c ∈ quotes) ∧
      PlainEnds (unquote name) := by
  obtain ⟨before, after, hname, hdropped, hends⟩ :=
    Text.exists_trim (fun c => c == '"' || c == '\'') name
  refine ⟨before, after, hname, ?_, ?_⟩
  · intro c hc
    exact mem_quotes_iff.2 (hdropped c hc)
  · intro c hc hquote
    rw [mem_quotes_iff, hends c hc] at hquote
    cases hquote

theorem targets_quotedImport {quote : Quote} {name : Text} (h : Quotable quote name)
    (hplain : PlainEnds name) : (imports (quotedImport quote name)).map (·.target) = [name] := by
  rw [imports_quotedImport (enclosed_of_ne h.plain), unquote_eq_self_iff.2 hplain,
    if_neg h.nonempty]
  rfl

/-- A name that stands between quotes in a statement is reported as written if and only if no quote
stands at either end of it. In any case it is reported without the quotes at its ends, or not at all
if nothing else is in it. Names without quotes at their ends are told apart. -/
theorem quoted_name_kept_iff {quote : Quote} {name : Text} (h : Quotable quote name) :
    ((∃ kind, imports (quotedImport quote name) = [⟨name, 1, kind⟩]) ↔ PlainEnds name) ∧
      (∃ before inner after, name = before ++ inner ++ after ∧ (∀ c ∈ before ++ after, c ∈ quotes) ∧
        PlainEnds inner ∧
        imports (quotedImport quote name) = if inner = [] then []
          else [⟨inner, 1, if namesCss inner then .plainCss else .stylesheet⟩]) ∧
      ∀ quote' name', Quotable quote' name' → PlainEnds name → PlainEnds name' →
        (imports (quotedImport quote name)).map (·.target)
          = (imports (quotedImport quote' name')).map (·.target) → name = name' := by
  have himports := imports_quotedImport (enclosed_of_ne h.plain)
  refine ⟨⟨?_, ?_⟩, ?_, ?_⟩
  · rintro ⟨kind, hkind⟩
    rw [himports] at hkind
    split at hkind
    next => cases hkind
    next => exact unquote_eq_self_iff.1 (congrArg Directive.target (List.cons.inj hkind).1)
  · intro hplain
    rw [unquote_eq_self_iff.2 hplain, if_neg h.nonempty] at himports
    exact ⟨_, himports⟩
  · obtain ⟨before, after, hname, hquotes, hends⟩ := exists_unquote name
    exact ⟨before, unquote name, after, hname, hquotes, hends, himports⟩
  · intro quote' name' h' hplain hplain' htargets
    rw [targets_quotedImport h hplain, targets_quotedImport h' hplain'] at htargets
    exact (List.cons.inj htargets).1

/-- A name with marks of every kind in it, and a quote. -/
def markedName : Text := "it's//x;/*@import url(,".toList

/-- A name between quotes of its own. -/
def quotedName : Text := "'x'.css'".toList

theorem quoted_name_kept_marked :
    Quotable .double markedName ∧ Quotable .double quotedName ∧
      Quotable .single "a\"b".toList ∧ PlainEnds markedName ∧
      (∃ kind, imports (quotedImport .double markedName) = [⟨markedName, 1, kind⟩]) ∧
      (imports (quotedImport .double markedName)).map (·.target)
        ≠ (imports (quotedImport .single "a\"b".toList)).map (·.target) ∧
      ¬ ∃ kind, imports (quotedImport .double quotedName) = [⟨quotedName, 1, kind⟩] := by
  have hmarked : Quotable .double markedName := ⟨by decide, forall_mem_of_all (by decide)⟩
  have hquoted : Quotable .double quotedName := ⟨by decide, forall_mem_of_all (by decide)⟩
  have hother : Quotable .single "a\"b".toList := ⟨by decide, forall_mem_of_all (by decide)⟩
  have hplain : PlainEnds markedName := unquote_eq_self_iff.1 (by decide)
  have hplain' : PlainEnds "a\"b".toList := unquote_eq_self_iff.1 (by decide)
  obtain ⟨hkept, -, hapart⟩ := quoted_name_kept_iff hmarked
  refine ⟨hmarked, hquoted, hother, hplain, hkept.2 hplain, ?_, ?_⟩
  · intro heq
    exact absurd (hapart _ _ hother hplain hplain' heq) (by decide)
  · intro hwhole
    have hends := (quoted_name_kept_iff hquoted).1.1 hwhole
    exact absurd (unquote_eq_self_iff.2 hends) (by decide)

/-- Otherwise quotes that belong to a name are lost: two names are reported alike, and a name of
quotes alone is not reported. -/
theorem quoted_name_lost :
    Quotable .double "'a'".toList ∧ Quotable .double "a".toList ∧ Quotable .double "'".toList ∧
      imports (quotedImport .double "'a'".toList) = [⟨"a".toList, 1, .stylesheet⟩] ∧
      imports (quotedImport .double "a".toList) = [⟨"a".toList, 1, .stylesheet⟩] ∧
      imports (quotedImport .double "'".toList) = [] := by
  refine ⟨⟨by decide, ?_⟩, ⟨by decide, ?_⟩, ⟨by decide, ?_⟩, by decide +kernel⟩
  · exact forall_mem_of_all (by decide)
  · exact forall_mem_of_all (by decide)
  · exact forall_mem_of_all (by decide)

end SheetImports.Grammar
