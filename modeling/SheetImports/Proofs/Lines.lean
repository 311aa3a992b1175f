import Mathlib.Data.List.Forall2
import SheetImports.Proofs.Origins

/-!
# Lines of a stylesheet without comments

Blanking out comments leaves out characters and puts in spaces, and does not touch line feeds
(`Thinned`). Each piece is thinned by itself, so the whole text is (`exists_thinned_blank`), and
with it each of its lines (`Thinned.splitOn`). Targets are read in the order in which they open
(`statements_read`), each of them on the line of the stylesheet on which it opens
(`imports_lines_kept`).
-/

namespace SheetImports.Stylesheet

open Utf8

/-! ## Lines with less on them -/

/-- The second text is the first one with characters left out and spaces put in. Line feeds stay. -/
inductive Thinned : Text → Text → Prop
  | nil : Thinned [] []
  | keep (c : Char) {source line : Text} (h : Thinned source line) :
    Thinned (c :: source) (c :: line)
  | leaveOut {c : Char} (hc : c ≠ '\n') {source line : Text} (h : Thinned source line) :
    Thinned (c :: source) line
  | putIn {source line : Text} (h : Thinned source line) : Thinned source (' ' :: line)

namespace Thinned

variable {source line source' line' : Text}

theorem refl (text : Text) : Thinned text text := by
  induction text with
  | nil => exact .nil
  | cons c text ih => exact .keep c ih

theorem append (h : Thinned source line) (h' : Thinned source' line') :
    Thinned (source ++ source') (line ++ line') := by
  induction h with
  | nil => exact h'
  | keep c _ ih => exact .keep c ih
  | leaveOut hc _ ih => exact .leaveOut hc ih
  | putIn _ ih => exact .putIn ih

/-- Of a text, nothing is left but its line feeds. -/
theorem lineFeeds (text : Text) : Thinned text (text.filter (· == '\n')) := by
  induction text with
  | nil => exact .nil
  | cons c text ih =>
    by_cases hc : c = '\n'
    · rw [List.filter_cons_of_pos (by simpa using hc)]
      exact .keep c ih
    · rw [List.filter_cons_of_neg (by simpa using hc)]
      exact .leaveOut hc ih

/-- Thinning a text keeps its line feeds. -/
theorem count_eq (h : Thinned source line) : line.count '\n' = source.count '\n' := by
  induction h with
  | nil => rfl
  | keep c _ ih => rw [List.count_cons, List.count_cons, ih]
  | leaveOut hc _ ih => rw [List.count_cons_of_ne hc, ih]
  | putIn _ ih => rw [List.count_cons_of_ne (by decide), ih]

/-- The lines of a thinned text are those of the text, each of them thinned. -/
theorem splitOn (h : Thinned source line) :
    List.Forall₂ Thinned (source.splitOn '\n') (line.splitOn '\n') := by
  -- what changes the first line of a text leaves the others as they are
  have hfirst : ∀ {lines lines' : List Text} {f g : Text → Text},
      (∀ {s t}, Thinned s t → Thinned (f s) (g t)) → List.Forall₂ Thinned lines lines' →
        List.Forall₂ Thinned (lines.modifyHead f) (lines'.modifyHead g) := by
    intro lines lines' f g hfg hlines
    cases hlines with
    | nil => exact .nil
    | cons hhead htail => exact .cons (hfg hhead) htail
  induction h with
  | nil => exact .cons .nil .nil
  | keep c _ ih =>
    rw [List.splitOn_cons_eq_if_modifyHead, List.splitOn_cons_eq_if_modifyHead]
    split
    · exact .cons .nil ih
    · exact hfirst (.keep c) ih
  | @leaveOut c hc source line _ ih =>
    rw [List.splitOn_cons_eq_if_modifyHead, if_neg (by simpa using hc)]
    simpa using hfirst (f := List.cons c) (g := id) (.leaveOut hc) ih
  | @putIn source line _ ih =>
    rw [List.splitOn_cons_eq_if_modifyHead, if_neg (by decide)]
    simpa using hfirst (f := id) (g := List.cons ' ') .putIn ih

end Thinned

/-! ## Blanking -/

/-- A piece stays as it is, or nothing is left of it but its line feeds, and perhaps a space. -/
theorem blanked_next_cases (b : UInt8) (bytes : Bytes) :
    (next b bytes).1.blanked = (next b bytes).1.source ∨
      ∃ gap ∈ [[], [space]], (next b bytes).1.blanked
        = (next b bytes).1.source.filter (· == newline) ++ gap := by
  unfold next
  split
  · exact Or.inl rfl
  split
  · exact Or.inl rfl
  split
  · refine Or.inr ⟨[], List.mem_cons_self, ?_⟩
    have hline : ((bytes.drop 1).takeWhile (· ≠ newline)).filter (· == newline) = [] := by
      refine List.filter_eq_nil_iff.2 fun d hd => ?_
      simpa using List.all_eq_true.1 List.all_takeWhile d hd
    simp only [Piece.blanked, Piece.source]
    rw [List.filter_cons_of_neg (by decide), List.filter_cons_of_neg (by decide), hline,
      List.append_nil]
  split
  · refine Or.inr ⟨[space], List.mem_cons_of_mem _ List.mem_cons_self, ?_⟩
    have hclose : (if (blockBody (bytes.drop 1)).2.2 then [star, slash] else []).filter
        (· == newline) = [] := by
      split <;> rfl
    simp only [Piece.blanked, Piece.source]
    rw [List.filter_cons_of_neg (by decide), List.filter_cons_of_neg (by decide),
      List.filter_append, hclose, List.append_nil]
  · exact Or.inl rfl

/-- What is left of a text without its comments is a thinned text. -/
theorem exists_thinned_blank (text : Text) :
    ∃ stripped, blank (encode text) = encode stripped ∧ Thinned text stripped := by
  induction text using text_induction with
  | nil => exact ⟨[], by rw [encode_nil, blank_nil], .nil⟩
  | high c text hge ih =>
    obtain ⟨stripped, hstripped, hthinned⟩ := ih
    refine ⟨c :: stripped, ?_, .keep c hthinned⟩
    rw [encode_cons, encode_cons, ← hstripped]
    exact blank_append_of_plain
      (fun b hb => beginsNoPiece_of_le (le_of_mem_utf8EncodeChar hge hb)) _
  | piece b bytes first rest htext hfirst hrest ih =>
    obtain ⟨stripped, hstripped, hthinned⟩ := ih
    have hpiece : ∃ left, (next b bytes).1.blanked = encode left ∧ Thinned first left := by
      rcases blanked_next_cases b bytes with hsame | ⟨gap, hgap, hfilter⟩
      · exact ⟨first, hsame.trans hfirst, .refl first⟩
      · rw [hfirst, Grammar.filter_newline_encode] at hfilter
        rcases List.mem_pair.1 hgap with rfl | rfl
        · exact ⟨_, hfilter.trans (List.append_nil _), .lineFeeds first⟩
        · refine ⟨first.filter (· == '\n') ++ [' '], ?_, ?_⟩
          · rw [hfilter, encode_append]
            rfl
          · have hgap := (Thinned.lineFeeds first).append (.putIn .nil)
            rwa [List.append_nil] at hgap
    obtain ⟨left, hleft, hthin⟩ := hpiece
    refine ⟨left ++ stripped, ?_, hthin.append hthinned⟩
    rw [htext, blank_cons, hrest, hleft, hstripped, encode_append]

/-! ## Where targets are read -/

section Reads

variable {size : Nat} {bytes rest : Bytes} {target : Target}

/-- The target is read somewhere in the octets, before the rest of them. -/
def ReadIn (size : Nat) (bytes rest : Bytes) (target : Target) : Prop :=
  ∃ here after, here <:+ bytes ∧ rest <:+ here ∧ target? size here = some (target, after)

/-- A target that was read in a stretch was read in any longer one. -/
theorem ReadIn.mono {bytes' rest' : Bytes} (h : ReadIn size bytes rest target)
    (hbytes : bytes <:+ bytes') (hrest : rest' <:+ rest) : ReadIn size bytes' rest' target := by
  obtain ⟨here, after, hhere, hleft, htarget⟩ := h
  exact ⟨here, after, hhere.trans hbytes, hrest.trans hleft, htarget⟩

/-- Of two targets, the one that is read first opens first. -/
theorem ReadIn.mark_le {rest' : Bytes} {other : Target} (h : ReadIn size bytes rest target)
    (hother : ReadIn size rest rest' other) : target.mark ≤ other.mark := by
  obtain ⟨here, after, -, hleft, htarget⟩ := h
  obtain ⟨here', after', hhere', -, htarget'⟩ := hother
  rw [(target?_opens htarget).1, (target?_opens htarget').1]
  exact Nat.sub_le_sub_left (hhere'.trans hleft).length_le size

theorem readIn_of_target? (h : target? size (bytes.dropWhile isGap) = some (target, rest)) :
    ReadIn size bytes rest target :=
  ⟨_, rest, List.dropWhile_suffix _, (carried_suffix _).target? (List.suffix_refl _) h, h⟩

/-- One statement: its targets are read in the stretch that it takes, in order. -/
theorem targets_read (size : Nat) (bytes : Bytes) :
    (∀ target ∈ (targets size bytes).1, ReadIn size bytes (targets size bytes).2 target) ∧
      (targets size bytes).1.Pairwise (·.mark ≤ ·.mark) := by
  fun_induction targets size bytes with
  | case1 => exact ⟨fun target hmem => absurd hmem List.not_mem_nil, .nil⟩
  | case2 bytes t rest ht _ _ =>
    refine ⟨fun target hmem => ?_, List.pairwise_singleton _ _⟩
    rw [List.mem_singleton.1 hmem]
    exact readIn_of_target? ht
  | case3 bytes t rest ht _ more hmore _ ih =>
    have hread := readIn_of_target? ht
    have hrest : more <:+ rest :=
      (List.suffix_cons comma more).trans (hmore ▸ List.dropWhile_suffix _)
    have hmore : more <:+ bytes :=
      hrest.trans ((carried_suffix _).target? (List.dropWhile_suffix _) ht)
    have hend : (targets size more).2 <:+ more :=
      (carried_suffix _).targets size (List.suffix_refl _)
    constructor
    · intro target hmem
      rcases List.mem_cons.1 hmem with rfl | hmem
      · exact hread.mono (List.suffix_refl _) (hend.trans hrest)
      · exact (ih.1 target hmem).mono hmore (List.suffix_refl _)
    · refine List.pairwise_cons.2 ⟨fun other hother => ?_, ih.2⟩
      exact (hread.mono (List.suffix_refl _) hrest).mark_le (ih.1 other hother)
  | case4 bytes t rest ht _ b more _ _ _ =>
    refine ⟨fun target hmem => ?_, List.pairwise_singleton _ _⟩
    rw [List.mem_singleton.1 hmem]
    exact readIn_of_target? ht

/-- The targets of a stylesheet are read in the order in which they open. -/
theorem statements_read (size : Nat) (bytes : Bytes) :
    (∀ target ∈ (statements size bytes).flatMap (·.targets), ReadIn size bytes [] target) ∧
      ((statements size bytes).flatMap (·.targets)).Pairwise (·.mark ≤ ·.mark) := by
  fun_induction statements size bytes with
  | case1 => exact ⟨fun target hmem => absurd hmem List.not_mem_nil, .nil⟩
  | case2 b bytes _ ih =>
    have hrest : (literalTail b bytes).2 <:+ b :: bytes :=
      List.IsSuffix.trans ⟨_, literalTail_append b bytes⟩ (List.suffix_cons b bytes)
    exact ⟨fun target hmem => (ih.1 target hmem).mono hrest (List.suffix_refl _), ih.2⟩
  | case3 b bytes _ after hafter _ ih =>
    have hcarried := carried_suffix (b :: bytes)
    have hkeyword : after <:+ b :: bytes := hcarried.afterImport? (List.suffix_refl _) hafter
    obtain ⟨hread, hordered⟩ := targets_read size after
    have hrest : afterStatement (targets size after).2 <:+ (targets size after).2 :=
      (carried_suffix _).afterStatement (List.dropWhile_suffix _)
    have htargets : (targets size after).2 <:+ b :: bytes := hcarried.targets size hkeyword
    rw [List.flatMap_cons]
    constructor
    · intro target hmem
      rcases List.mem_append.1 hmem with hmem | hmem
      · exact (hread target hmem).mono hkeyword List.nil_suffix
      · exact (ih.1 target hmem).mono (hrest.trans htargets) (List.suffix_refl _)
    · refine List.pairwise_append.2 ⟨hordered, ih.2, fun target hmem other hother => ?_⟩
      exact ((hread target hmem).mono (List.suffix_refl _) hrest).mark_le (ih.1 other hother)
  | case4 b bytes _ _ ih =>
    exact ⟨fun target hmem => (ih.1 target hmem).mono (List.suffix_cons b bytes)
      (List.suffix_refl _), ih.2⟩

end Reads

/-! ## Lines -/

theorem lineAt_mono (bytes : Bytes) {position other : Nat} (h : position ≤ other) :
    lineAt bytes position ≤ lineAt bytes other :=
  Nat.succ_le_succ ((List.take_prefix_take_left h).sublist.count_le newline)

/-- The line of a directive is that of the opening of its target. -/
theorem line_of_directive? {bytes : Bytes} {statement : Statement} {target : Target}
    {directive : Directive} (h : directive? bytes statement target = some directive) :
    directive.line = lineAt bytes target.mark := by
  rw [directive?] at h
  split at h
  · cases h
  · rw [← Option.some.inj h]

/-- Directives are found line by line. -/
theorem directives_ordered (bytes : Bytes) : (directives bytes).Pairwise (·.line ≤ ·.line) := by
  obtain ⟨hinside, hbetween⟩ :=
    List.pairwise_flatMap.1 (statements_read bytes.length bytes).2
  have hle : ∀ {statement statement' : Statement} {target target' : Target},
      target.mark ≤ target'.mark → ∀ directive, directive? bytes statement target = some directive →
        ∀ directive', directive? bytes statement' target' = some directive' →
          directive.line ≤ directive'.line := by
    intro statement statement' target target' hmark directive h directive' h'
    rw [line_of_directive? h, line_of_directive? h']
    exact lineAt_mono bytes hmark
  refine List.pairwise_flatMap.2 ⟨fun statement hmem => ?_, ?_⟩
  · exact List.pairwise_filterMap.2 ((hinside statement hmem).imp hle)
  · refine hbetween.imp fun hmarks directive hdirective directive' hdirective' => ?_
    obtain ⟨target, htarget, h⟩ := List.mem_filterMap.1 hdirective
    obtain ⟨target', htarget', h'⟩ := List.mem_filterMap.1 hdirective'
    exact hle (hmarks target htarget target' htarget') directive h directive' h'

/-- What stands behind a text without a line feed in it is on one line with it. -/
theorem exists_line (before : Text) {middle : Text} (h : '\n' ∉ middle) (after : Text) :
    ∃ line, ((before ++ middle ++ after).splitOn '\n')[before.count '\n']? = some line ∧
      middle <:+: line := by
  induction before with
  | nil =>
    suffices hfirst : ∃ rest lines, (middle ++ after).splitOn '\n' = (middle ++ rest) :: lines by
      obtain ⟨rest, lines, hfirst⟩ := hfirst
      rw [List.nil_append, hfirst]
      exact ⟨middle ++ rest, rfl, (List.prefix_append middle rest).isInfix⟩
    induction middle with
    | nil => exact List.exists_cons_of_ne_nil (List.splitOn_ne_nil _ _)
    | cons c middle ih =>
      obtain ⟨hc, hmiddle⟩ := not_or.1 (mt List.mem_cons.2 h)
      obtain ⟨rest, lines, hlines⟩ := ih hmiddle
      refine ⟨rest, lines, ?_⟩
      rw [List.cons_append, List.splitOn_cons_eq_if_modifyHead, if_neg (by simpa using Ne.symm hc),
        hlines, List.modifyHead_cons, List.cons_append]
  | cons c before ih =>
    obtain ⟨line, hline, hmiddle⟩ := ih
    rw [List.cons_append, List.cons_append, List.splitOn_cons_eq_if_modifyHead]
    by_cases hc : c = '\n'
    · rw [if_pos (by simpa using hc), hc, List.count_cons_self]
      exact ⟨line, hline, hmiddle⟩
    · rw [if_neg (by simpa using hc), List.count_cons_of_ne hc]
      generalize (before ++ middle ++ after).splitOn '\n' = lines at hline
      generalize before.count '\n' = k at hline
      cases lines with
      | nil => cases hline
      | cons first lines =>
        cases k with
        | zero =>
          obtain rfl := Option.some.inj hline
          exact ⟨c :: first, rfl, hmiddle.trans (List.suffix_cons c first).isInfix⟩
        | succ k => exact ⟨line, hline, hmiddle⟩

/-- Without its comments a stylesheet has the same line feeds, and on every line nothing but spaces
was put in. The line of a directive is the line of the stylesheet on which its target opens, and
directives are found line by line. -/
theorem imports_lines_kept (text : Text) :
    ∃ stripped, blank (encode text) = encode stripped ∧
      stripped.count '\n' = text.count '\n' ∧
      List.Forall₂ Thinned (text.splitOn '\n') (stripped.splitOn '\n') ∧
      (∀ directive ∈ imports text,
        ∃ statement ∈ statements (encode stripped).length (encode stripped),
        ∃ target ∈ statement.targets,
          directive? (encode stripped) statement target = some directive ∧
          ∃ before opening after, text = before ++ opening ++ after ∧
            opening.map Char.toLower ∈ openings target.isUrl ∧
            ComesFrom (encode text) target.mark (encode before).length ∧
            directive.line = before.count '\n' + 1 ∧
            ∃ line, (text.splitOn '\n')[directive.line - 1]? = some line ∧ opening <:+: line) ∧
      (imports text).Pairwise (·.line ≤ ·.line) := by
  obtain ⟨stripped, hstripped, hthinned⟩ := exists_thinned_blank text
  refine ⟨stripped, hstripped, hthinned.count_eq, hthinned.splitOn, ?_, directives_ordered _⟩
  intro directive hdirective
  rw [imports, hstripped] at hdirective
  obtain ⟨statement, hstatement, hmem⟩ := List.mem_flatMap.1 hdirective
  obtain ⟨target, htarget, hfound⟩ := List.mem_filterMap.1 hmem
  refine ⟨statement, hstatement, target, htarget, hfound, ?_⟩
  obtain ⟨here, after, hhere, -, hread⟩ := (statements_read (encode stripped).length _).1 target
    (List.mem_flatMap.2 ⟨statement, hstatement, htarget⟩)
  obtain ⟨hmark, word, hword, rest, hrest⟩ := target?_opens hread
  have hdrop : here = (blank (encode text)).drop target.mark := by
    rw [hmark, hstripped]
    exact List.suffix_iff_eq_drop.1 hhere
  obtain ⟨before, opening, behind, rfl, hopening, hcomes⟩ := exists_opening hword (hdrop ▸ hrest)
  have hline : directive.line = before.count '\n' + 1 := by
    rw [line_of_directive? hfound, lineAt, ← hstripped, hcomes.newlines_take, List.append_assoc,
      encode_append, List.take_left, newlines_encode]
  have hplain : '\n' ∉ opening := by
    intro hfeed
    have hlower : '\n'.toLower ∈ word := hopening ▸ List.mem_map_of_mem hfeed
    exact ((opening_chars hword).2 _ hlower).2 rfl
  refine ⟨before, opening, behind, rfl, hopening ▸ hword, hcomes, hline, ?_⟩
  rw [hline, Nat.add_sub_cancel]
  exact exists_line before hplain behind

end SheetImports.Stylesheet
