import SheetImports.Proofs.Folding

/-!
# Folded uris fold to themselves

Folding leaves a scheme, a root or none, and names that make a settled stack (`IsFolded`). A uri in
that form is read back from its text and folds to itself (`folded_toText`), so folding twice is
folding once (`folded_folded`). The extension of the language makes the last name of a folded uri
longer and changes nothing else, so what a candidate is tried at is folded too
(`folded_of_mem_uris`).
-/

namespace SheetImports

/-- The first occurrence of a pattern stays the first whatever follows it. -/
theorem Text.cut_append {pattern before after : Text} :
    ∀ {text : Text}, cut pattern text = some (before, after) → ∀ other : Text,
      cut pattern (before ++ pattern ++ other) = some (before, other) := by
  intro text
  induction text generalizing before with
  | nil =>
    intro h other
    unfold cut at h
    split at h
    next hnil =>
      obtain ⟨rfl, -⟩ := Prod.mk.inj (Option.some.inj h)
      rw [hnil]
      cases other <;> simp [cut, List.isPrefixOf?]
    next => cases h
  | cons c text ih =>
    intro h other
    unfold cut at h
    split at h
    next rest hprefix =>
      obtain ⟨rfl, -⟩ := Prod.mk.inj (Option.some.inj h)
      have hother : pattern.isPrefixOf? (pattern ++ other) = some other :=
        List.isPrefixOf?_eq_some_iff_append_eq.2 rfl
      rw [List.nil_append]
      cases hpattern : pattern ++ other with
      | nil =>
        obtain ⟨rfl, rfl⟩ := List.append_eq_nil_iff.1 hpattern
        rfl
      | cons d others =>
        rw [hpattern] at hother
        rw [cut, hother]
    next hprefix =>
      obtain ⟨⟨before', after'⟩, hcut, heq⟩ := Option.map_eq_some_iff.1 h
      obtain ⟨rfl, rfl⟩ := Prod.mk.inj heq
      -- an occurrence at `c` would end before `other`
      have hnot : pattern.isPrefixOf? (c :: (before' ++ pattern ++ other)) = none := by
        rw [Option.eq_none_iff_forall_ne_some]
        intro rest hrest
        have hlong : pattern <+: c :: (before' ++ pattern) := by
          have hpattern : pattern <+: c :: (before' ++ pattern ++ other) :=
            ⟨rest, List.isPrefixOf?_eq_some_iff_append_eq.1 hrest⟩
          refine List.prefix_of_prefix_length_le hpattern ⟨other, by simp⟩ ?_
          simp only [List.length_cons, List.length_append]
          omega
        have htext : c :: (before' ++ pattern) <+: c :: text := by
          rw [append_of_cut hcut]
          exact List.prefix_append _ after'
        obtain ⟨tail, htail⟩ := hlong.trans htext
        rw [List.isPrefixOf?_eq_some_iff_append_eq.2 htail] at hprefix
        cases hprefix
      rw [List.cons_append, List.cons_append, cut, hnot, ih hcut]
      rfl

namespace Uri

/-! ## Schemes -/

/-- Nothing, or what stands up to and including the first mark of a scheme. -/
def IsScheme (scheme : Text) : Prop := splitScheme scheme = (scheme, [])

theorem splitScheme_of_no_scheme {text : Text} (h : ¬ schemeMark <:+: text) :
    splitScheme text = ([], text) := by
  have hcut : Text.cut schemeMark text = none := by
    rw [← Option.not_isSome_iff_eq_none, Text.isSome_cut]
    exact h
  rw [splitScheme, hcut]

theorem isScheme_splitScheme (text : Text) : IsScheme (splitScheme text).1 := by
  cases hcut : Text.cut schemeMark text with
  | none =>
    have hnil : splitScheme text = ([], text) := by rw [splitScheme, hcut]
    rw [hnil]
    rfl
  | some parts =>
    obtain ⟨name, rest⟩ := parts
    have hscheme : splitScheme text = (name ++ schemeMark, rest) := by rw [splitScheme, hcut]
    have hagain := Text.cut_append hcut []
    rw [List.append_nil] at hagain
    rw [hscheme, IsScheme, splitScheme, hagain]

/-- A scheme is found in front of any path, and without one the path must have none. -/
theorem splitScheme_isScheme {scheme path : Text} (h : IsScheme scheme)
    (hpath : scheme = [] → ¬ schemeMark <:+: path) :
    splitScheme (scheme ++ path) = (scheme, path) := by
  cases hcut : Text.cut schemeMark scheme with
  | none =>
    have hnil : splitScheme scheme = ([], scheme) := by rw [splitScheme, hcut]
    obtain rfl : [] = scheme := (Prod.mk.inj (hnil.symm.trans h)).1
    exact splitScheme_of_no_scheme (hpath rfl)
  | some parts =>
    obtain ⟨name, rest⟩ := parts
    have hscheme : splitScheme scheme = (name ++ schemeMark, rest) := by rw [splitScheme, hcut]
    obtain ⟨hname, -⟩ := Prod.mk.inj (hscheme.symm.trans h)
    rw [← hname, splitScheme, Text.cut_append hcut]

/-! ## The folded form -/

/-- What folding leaves. -/
structure IsFolded (uri : Uri) : Prop where
  isScheme : IsScheme uri.scheme
  isName : ∀ name ∈ uri.segments, name ≠ [] ∧ '/' ∉ name
  settled : Settled uri.ground uri.segments.reverse

/-- Folding brings any uri into the form: its parts are names, and `..` stands at the front if at
all. -/
theorem isFolded_fold (text : Text) : (ofText text).fold.IsFolded where
  isScheme := isScheme_splitScheme text
  isName name hname := isName_of_mem_stack (List.mem_reverse.1 hname)
  settled := by
    rw [fold, foldSegments, List.reverse_reverse]
    exact settled_stack _ _

/-- A folded uri is read back from its text. -/
theorem IsFolded.fold_ofText {uri : Uri} (h : uri.IsFolded) : (ofText uri.toText).fold = uri := by
  obtain ⟨scheme, rooted, segments⟩ := uri
  have htext : toText ⟨scheme, rooted, segments⟩ = scheme ++ written rooted segments :=
    List.append_assoc ..
  have hsplit : splitScheme (scheme ++ written rooted segments)
      = (scheme, written rooted segments) :=
    splitScheme_isScheme h.isScheme fun _ => no_scheme_written rooted h.isName
  have hof : ofText (scheme ++ written rooted segments)
      = ⟨scheme, rooted, (written rooted segments).splitOn '/'⟩ := by
    rw [ofText, hsplit]
    exact congrArg (Uri.mk scheme · _) (isRooted_written rooted h.isName)
  have hname : ∀ name ∈ segments.reverse.reverse, name ≠ [] ∧ '/' ∉ name := by
    rw [List.reverse_reverse]
    exact h.isName
  have hstack := stack_written rooted h.settled hname
  rw [List.reverse_reverse] at hstack
  have hfold : foldSegments (ground ⟨scheme, rooted, segments⟩)
      ((written rooted segments).splitOn '/') = segments :=
    (congrArg List.reverse hstack).trans (List.reverse_reverse segments)
  rw [htext, hof]
  exact congrArg (Uri.mk scheme rooted) hfold

theorem IsFolded.folded_toText {uri : Uri} (h : uri.IsFolded) : folded uri.toText = uri.toText := by
  rw [folded, h.fold_ofText]

/-- Folding twice is folding once. -/
theorem folded_folded (text : Text) : folded (folded text) = folded text :=
  (isFolded_fold text).folded_toText

/-! ## The extension of a folded uri -/

theorem intercalate_concat (names : List Text) (name more : Text) :
    ['/'].intercalate (names ++ [name ++ more]) = ['/'].intercalate (names ++ [name]) ++ more := by
  induction names with
  | nil =>
    rw [List.nil_append, List.nil_append, List.intercalate_singleton, List.intercalate_singleton]
  | cons first names ih =>
    cases hnames : names ++ [name ++ more] with
    | nil => exact absurd hnames (List.append_ne_nil_of_right_ne_nil _ (List.cons_ne_nil _ _))
    | cons next others =>
      cases hnames' : names ++ [name] with
      | nil => exact absurd hnames' (List.append_ne_nil_of_right_ne_nil _ (List.cons_ne_nil _ _))
      | cons next' others' =>
        rw [hnames, hnames'] at ih
        rw [List.cons_append, List.cons_append, hnames, hnames', List.intercalate_cons_cons,
          List.intercalate_cons_cons, ih, ← List.append_assoc]

/-- A segment that names something. -/
def IsProper (segment : Text) : Prop :=
  segment ≠ [] ∧ segment ≠ ".".toList ∧ segment ≠ "..".toList

instance (segment : Text) : Decidable (IsProper segment) := inferInstanceAs (Decidable (_ ∧ _ ∧ _))

/-- A name stays one, and an empty or dotted one becomes one, when more than two characters are
added. -/
theorem isProper_append (name : Text) {more : Text} (h : 2 < more.length) :
    IsProper (name ++ more) := by
  have hlong : ∀ other : Text, other.length ≤ 2 → name ++ more ≠ other := by
    rintro other hother rfl
    rw [List.length_append] at hother
    omega
  exact ⟨hlong _ (by simp), hlong _ (by simp), hlong _ (by simp)⟩

/-- A name goes on top of any stack. -/
theorem IsProper.push {name : Text} (h : IsProper name) (ground : Ground) (below : List Text) :
    push ground below name = name :: below := by
  unfold Uri.push
  rw [if_neg (not_or.2 ⟨h.1, h.2.1⟩), if_neg h.2.2]

theorem Settled.name {ground : Ground} {below : List Text} (h : Settled ground below) {name : Text}
    (hname : IsProper name) : Settled ground (name :: below) := by
  rw [Settled, List.reverse_cons, stack_concat, h, hname.push]

/-- The last name of a folded uri, or none, can be made longer. -/
theorem IsFolded.exists_last {uri : Uri} (h : uri.IsFolded) :
    ∃ (names : List Text) (last : Text), Settled uri.ground names.reverse ∧
      (∀ name ∈ names, name ≠ [] ∧ '/' ∉ name) ∧ '/' ∉ last ∧
      ∀ more : Text, ['/'].intercalate uri.segments ++ more
        = ['/'].intercalate (names ++ [last ++ more]) := by
  have hname := h.isName
  have hsettled := h.settled
  rcases List.eq_nil_or_concat' uri.segments with hnil | ⟨names, last, hlast⟩
  · rw [hnil] at hname hsettled
    refine ⟨[], [], hsettled, hname, List.not_mem_nil, fun more => ?_⟩
    rw [hnil, List.nil_append, List.nil_append, List.intercalate_singleton]
    rfl
  · rw [hlast] at hname hsettled
    rw [List.reverse_append, List.reverse_singleton, List.singleton_append] at hsettled
    refine ⟨names, last, hsettled.tail, fun name hmem => hname name (List.mem_append_left _ hmem),
      (hname last (List.mem_append_right _ List.mem_cons_self)).2, fun more => ?_⟩
    rw [hlast, intercalate_concat]

/-- What is longer than two dots may stand behind a folded uri. -/
theorem IsFolded.folded_append {uri : Uri} (h : uri.IsFolded) {more : Text}
    (hlength : 2 < more.length) (hslash : '/' ∉ more) :
    folded (uri.toText ++ more) = uri.toText ++ more := by
  obtain ⟨names, last, hsettled, hnames, hlast, hmore⟩ := h.exists_last
  have hproper : IsProper (last ++ more) := isProper_append last hlength
  have hfolded : IsFolded { uri with segments := names ++ [last ++ more] } := by
    refine ⟨h.isScheme, fun name hname => ?_, ?_⟩
    · rcases List.mem_append.1 hname with hname | hname
      · exact hnames name hname
      · rw [List.mem_singleton.1 hname]
        refine ⟨hproper.1, fun hmem => ?_⟩
        rcases List.mem_append.1 hmem with hmem | hmem
        · exact hlast hmem
        · exact hslash hmem
    · show Settled uri.ground (names ++ [last ++ more]).reverse
      rw [List.reverse_append, List.reverse_singleton, List.singleton_append]
      exact hsettled.name hproper
  have htext : toText { uri with segments := names ++ [last ++ more] } = uri.toText ++ more := by
    rw [toText, toText, List.append_assoc _ _ more, hmore]
  rw [← htext, hfolded.folded_toText]

end Uri

namespace Candidate

/-- Completing a folded uri leaves it folded. -/
theorem folded_complete (text : Text) :
    Uri.folded (complete (Uri.folded text)) = complete (Uri.folded text) := by
  unfold complete
  split
  · exact Uri.folded_folded text
  · exact (Uri.isFolded_fold text).folded_append (by decide) (by decide)

theorem exists_folded_of_mem_all {parent : Parent} {roots : List Text} {identifier candidate : Text}
    (h : candidate ∈ all parent roots identifier) : ∃ text, candidate = Uri.folded text := by
  rcases List.mem_cons.1 h with rfl | h
  · exact ⟨_, rfl⟩
  · obtain ⟨root, -, rfl⟩ := List.mem_map.1 h
    unfold under
    split
    · exact ⟨_, rfl⟩
    · exact ⟨_, rfl⟩

/-- An import is tried at folded uris only. -/
theorem folded_of_mem_uris {parent : Parent} {roots : List Text} {identifier uri : Text}
    (h : uri ∈ (all parent roots identifier).map complete) : Uri.folded uri = uri := by
  obtain ⟨candidate, hmem, rfl⟩ := List.mem_map.1 h
  obtain ⟨text, rfl⟩ := exists_folded_of_mem_all hmem
  exact folded_complete text

end Candidate

end SheetImports
