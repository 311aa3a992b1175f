import Mathlib.Data.List.Flatten
import SheetImports.Proofs.Canonical
import SheetImports.Text.Utf8

/-!
# The form of a folded uri

Whatever is pushed, a stack stays a run of `..` with names on top of it, and there is no run but on
a ground that may be left (`Standing.push`). These stacks are all that folding can build
(`settled_iff`), so a text is in its folded form if and only if it folds to itself
(`folded_eq_self_iff`). Folding only leaves characters out (`folded_sublist`), it keeps the scheme
and the root (`splitScheme_folded`), and it keeps the authority (`stack_authority`).
-/

namespace SheetImports.Uri

/-! ## Names on a run of dots -/

theorem segment_cases (segment : Text) :
    (segment = [] ∨ segment = ".".toList) ∨ segment = "..".toList ∨ IsProper segment := by
  unfold IsProper
  tauto

theorem push_idle {segment : Text} (h : segment = [] ∨ segment = ".".toList) (ground : Ground)
    (stack : List Text) : push ground stack segment = stack :=
  if_pos h

theorem push_dots {name : Text} (h : IsProper name) {ground : Ground}
    (hground : ground ≠ .authority) (below : List Text) :
    push ground (name :: below) "..".toList = below := by
  cases ground with
  | here => exact if_neg h.2.2
  | root => rfl
  | authority => exact absurd rfl hground

theorem push_dots_run (ups : Nat) :
    push .here (List.replicate ups "..".toList) "..".toList
      = List.replicate (ups + 1) "..".toList := by
  cases ups <;> rfl

/-- A stack, top first, of names on a run of `..`. Only a place that is not named has the run. -/
def Standing (ground : Ground) (stack : List Text) : Prop :=
  ∃ (names : List Text) (ups : Nat), stack = names ++ List.replicate ups "..".toList ∧
    (∀ name ∈ names, IsProper name) ∧ (ground ≠ .here → ups = 0)

/-- A name goes on top, and `..` takes a name away or, where nothing is named, lengthens the run. -/
theorem Standing.push {ground : Ground} {stack : List Text} (h : Standing ground stack)
    (segment : Text) : Standing ground (push ground stack segment) := by
  rcases segment_cases segment with hidle | rfl | hproper
  · rw [push_idle hidle]
    exact h
  · obtain ⟨names, ups, rfl, hnames, hups⟩ := h
    rcases names with - | ⟨name, names⟩
    · cases ground with
      | here =>
        exact ⟨[], ups + 1, push_dots_run ups, hnames, fun hground => absurd rfl hground⟩
      | root | authority =>
        obtain rfl := hups (by simp)
        exact ⟨[], 0, rfl, hnames, hups⟩
    · obtain ⟨hname, hbelow⟩ := List.forall_mem_cons.1 hnames
      by_cases hground : ground = .authority
      · -- the first name on a scheme is the authority, which stays
        subst hground
        obtain rfl := hups (by simp)
        cases names with
        | nil => exact ⟨[name], 0, rfl, hnames, hups⟩
        | cons next names => exact ⟨next :: names, 0, rfl, hbelow, hups⟩
      · rw [List.cons_append, push_dots hname hground]
        exact ⟨names, ups, rfl, hbelow, hups⟩
  · obtain ⟨names, ups, rfl, hnames, hups⟩ := h
    rw [hproper.push]
    exact ⟨segment :: names, ups, rfl, List.forall_mem_cons.2 ⟨hproper, hnames⟩, hups⟩

theorem standing_stack (ground : Ground) (segments : List Text) :
    Standing ground (stack ground segments) := by
  induction segments using List.reverseRecOn with
  | nil => exact ⟨[], 0, rfl, by simp, fun _ => rfl⟩
  | append_singleton segments segment ih =>
    rw [stack_concat]
    exact ih.push segment

theorem settled_replicate (ups : Nat) : Settled .here (List.replicate ups "..".toList) := by
  induction ups with
  | zero => rfl
  | succ ups ih =>
    rw [Settled, List.replicate_succ, List.reverse_cons, stack_concat, ih]
    exact push_dots_run ups

/-- The stacks that folding can build are those that it leaves as they are. -/
theorem settled_iff {ground : Ground} {stack : List Text} :
    Settled ground stack ↔ Standing ground stack := by
  constructor
  · intro h
    exact h ▸ standing_stack ground stack.reverse
  · rintro ⟨names, ups, rfl, hnames, hups⟩
    induction names with
    | nil =>
      by_cases hground : ground = .here
      · subst hground
        exact settled_replicate ups
      · rw [hups hground]
        rfl
    | cons name names ih =>
      obtain ⟨hname, hbelow⟩ := List.forall_mem_cons.1 hnames
      exact (ih hbelow).name hname

/-- Whatever is pushed, the first segment behind a scheme stays at the bottom. -/
theorem push_authority {name : Text} (front : List Text) (segment : Text) :
    ∃ front', push .authority (front ++ [name]) segment = front' ++ [name] := by
  rcases segment_cases segment with hidle | rfl | hproper
  · exact ⟨front, push_idle hidle _ _⟩
  · rcases front with - | ⟨top, - | ⟨next, front⟩⟩
    · exact ⟨[], rfl⟩
    · exact ⟨[], rfl⟩
    · exact ⟨next :: front, rfl⟩
  · exact ⟨segment :: front, hproper.push _ _⟩

/-- An authority stays below everything that follows it. -/
theorem stack_authority {name : Text} (h : IsProper name) (segments : List Text) :
    ∃ front, stack .authority (name :: segments) = front ++ [name] := by
  induction segments using List.reverseRecOn with
  | nil => exact ⟨[], h.push .authority []⟩
  | append_singleton segments segment ih =>
    obtain ⟨front, hfront⟩ := ih
    rw [← List.cons_append, stack_concat, hfront]
    exact push_authority front segment

/-! ## The parts of a folded text -/

theorem exists_of_isRooted {path : Text} (h : isRooted path = true) :
    ∃ rest, path = '/' :: rest := by
  cases path with
  | nil => cases h
  | cons c path =>
    obtain rfl : c = '/' := by simpa [isRooted] using h
    exact ⟨path, rfl⟩

theorem hasScheme_iff_ne_nil {text : Text} : hasScheme text = true ↔ (splitScheme text).1 ≠ [] := by
  unfold hasScheme splitScheme
  cases Text.cut schemeMark text <;> simp [schemeMark]

theorem ground_ofText (text : Text) :
    (ofText text).ground = if isRooted (splitScheme text).2 then .root
      else if (splitScheme text).1 = [] then .here else .authority :=
  rfl

theorem folded_eq (text : Text) :
    folded text = (splitScheme text).1 ++ written (isRooted (splitScheme text).2)
      (stack (ofText text).ground ((splitScheme text).2.splitOn '/')).reverse :=
  List.append_assoc ..

theorem isName_stack (text : Text) :
    ∀ name ∈ (stack (ofText text).ground ((splitScheme text).2.splitOn '/')).reverse,
      name ≠ [] ∧ '/' ∉ name :=
  fun _ hname => isName_of_mem_stack (List.mem_reverse.1 hname)

/-- Folding keeps the scheme, and what follows it is rooted if it was. -/
theorem splitScheme_folded (text : Text) :
    splitScheme (folded text) = ((splitScheme text).1, written (isRooted (splitScheme text).2)
      (stack (ofText text).ground ((splitScheme text).2.splitOn '/')).reverse) := by
  rw [folded_eq]
  exact splitScheme_isScheme (isScheme_splitScheme text)
    fun _ => no_scheme_written _ (isName_stack text)

theorem scheme_folded (text : Text) : (splitScheme (folded text)).1 = (splitScheme text).1 := by
  rw [splitScheme_folded]

theorem isRooted_folded (text : Text) :
    isRooted (splitScheme (folded text)).2 = isRooted (splitScheme text).2 := by
  rw [splitScheme_folded]
  exact isRooted_written _ (isName_stack text)

theorem intercalate_sublist {names others : List Text} (h : names.Sublist others) :
    (['/'].intercalate names).Sublist (['/'].intercalate others) := by
  induction h with
  | slnil => exact List.Sublist.refl _
  | @cons names others name h ih =>
    cases others with
    | nil => simp [List.sublist_nil.1 h]
    | cons next others =>
      rw [List.intercalate_cons_cons]
      exact ih.trans (List.sublist_append_right _ _)
  | @cons_cons names others name h ih =>
    cases others with
    | nil => simp [List.sublist_nil.1 h]
    | cons next others =>
      rw [List.intercalate_cons_cons]
      cases names with
      | nil => simp
      | cons first names =>
        rw [List.intercalate_cons_cons]
        exact (List.Sublist.refl _).append ih

/-- Segments are left out whole, each with a slash. -/
theorem written_stack_sublist (ground : Ground) (path : Text) :
    (written (isRooted path) (stack ground (path.splitOn '/')).reverse).Sublist path := by
  have hnames : ∀ path : Text,
      (['/'].intercalate (stack ground (path.splitOn '/')).reverse).Sublist path := by
    intro path
    have hnames := intercalate_sublist (stack_sublist ground (path.splitOn '/'))
    rwa [List.intercalate_splitOn] at hnames
  cases hrooted : isRooted path with
  | false => exact hnames path
  | true =>
    obtain ⟨path, rfl⟩ := exists_of_isRooted hrooted
    rw [stack_slash]
    exact (hnames path).cons_cons '/'

/-- Folding leaves characters out and does nothing else. -/
theorem folded_sublist (text : Text) : (folded text).Sublist text := by
  rw [folded_eq]
  conv => rhs; rw [← splitScheme_append text]
  exact (List.Sublist.refl _).append (written_stack_sublist _ _)

/-! ## The folded form -/

/-- A path of slashes between names. A run of `..` may stand in front of them if the place that the
path starts from is not named. -/
def IsFoldedPath (ground : Ground) (path : Text) : Prop :=
  ∃ (ups : Nat) (names : List Text),
    path = written (isRooted path) (List.replicate ups "..".toList ++ names) ∧
      (∀ name ∈ names, IsProper name ∧ '/' ∉ name) ∧ (ground ≠ .here → ups = 0)

/-- What folding gives is in the folded form, on the ground of the text. -/
theorem isFoldedPath_folded (text : Text) :
    IsFoldedPath (ofText text).ground (splitScheme (folded text)).2 := by
  obtain ⟨names, ups, hstack, hnames, hups⟩ :=
    standing_stack (ofText text).ground ((splitScheme text).2.splitOn '/')
  have hslash := isName_stack text
  rw [splitScheme_folded]
  refine ⟨ups, names.reverse, ?_, ?_, hups⟩
  · rw [isRooted_written _ hslash, hstack, List.reverse_append, List.reverse_replicate]
  · intro name hname
    rw [List.mem_reverse] at hname
    refine ⟨hnames name hname, (hslash name ?_).2⟩
    simp [hstack, hname]

/-- A text is in its folded form if and only if it folds to itself. -/
theorem folded_eq_self_iff {text : Text} :
    folded text = text ↔ IsFoldedPath (ofText text).ground (splitScheme text).2 := by
  constructor
  · intro h
    have hfolded := isFoldedPath_folded text
    rwa [h] at hfolded
  · rintro ⟨ups, names, hpath, hnames, hups⟩
    have hfolded : IsFolded ⟨(splitScheme text).1, isRooted (splitScheme text).2,
        List.replicate ups "..".toList ++ names⟩ := by
      refine ⟨isScheme_splitScheme text, ?_, ?_⟩
      · intro name hname
        rcases List.mem_append.1 hname with hname | hname
        · rw [List.eq_of_mem_replicate hname]
          decide
        · exact ⟨(hnames name hname).1.1, (hnames name hname).2⟩
      · rw [List.reverse_append, List.reverse_replicate]
        refine settled_iff.2 ⟨names.reverse, ups, rfl, ?_, hups⟩
        intro name hname
        exact (hnames name (List.mem_reverse.1 hname)).1
    have htext : toText ⟨(splitScheme text).1, isRooted (splitScheme text).2,
        List.replicate ups "..".toList ++ names⟩ = text := by
      conv => rhs; rw [← splitScheme_append text, hpath]
      exact List.append_assoc ..
    rw [← htext]
    exact hfolded.folded_toText

/-- The first segment behind a scheme is kept if it is a name. -/
theorem authority_folded {text authority : Text} {segments : List Text}
    (hscheme : hasScheme text = true)
    (hpath : (splitScheme text).2.splitOn '/' = authority :: segments) (h : IsProper authority) :
    ∃ others, (splitScheme (folded text)).2.splitOn '/' = authority :: others := by
  have hrooted : isRooted (splitScheme text).2 = false := by
    by_contra hrooted
    obtain ⟨rest, hrest⟩ := exists_of_isRooted (by simpa using hrooted)
    have hsplit : ('/' :: rest).splitOn '/' = [] :: rest.splitOn '/' := splitOn_join [] rest
    rw [hrest, hsplit] at hpath
    exact h.1 (List.cons.inj hpath).1.symm
  have hground : (ofText text).ground = .authority := by
    simp [ground_ofText, hrooted, hasScheme_iff_ne_nil.1 hscheme]
  obtain ⟨front, hfront⟩ := stack_authority h segments
  have hslash := isName_stack text
  rw [splitScheme_folded, hrooted]
  rw [hground, hpath, hfront, List.reverse_append] at hslash ⊢
  exact ⟨_, List.splitOn_intercalate '/' (fun name hname => (hslash name hname).2) (by simp)⟩

/-- Folding is done once, makes no text longer, and keeps the scheme, the root and the authority.
What it leaves of a path is in the folded form. -/
theorem folded_canonical (text : Text) :
    folded (folded text) = folded text ∧
      (folded text).length ≤ text.length ∧
      (Utf8.encode (folded text)).length ≤ (Utf8.encode text).length ∧
      hasScheme (folded text) = hasScheme text ∧
      (splitScheme (folded text)).1 = (splitScheme text).1 ∧
      isRooted (splitScheme (folded text)).2 = isRooted (splitScheme text).2 ∧
      IsFoldedPath (ofText text).ground (splitScheme (folded text)).2 ∧
      ∀ (authority : Text) (segments : List Text), hasScheme text = true →
        (splitScheme text).2.splitOn '/' = authority :: segments → IsProper authority →
          ∃ others, (splitScheme (folded text)).2.splitOn '/' = authority :: others := by
  have hscheme : hasScheme (folded text) = hasScheme text := by
    rw [Bool.eq_iff_iff, hasScheme_iff_ne_nil, hasScheme_iff_ne_nil, scheme_folded]
  exact ⟨folded_folded text, (folded_sublist text).length_le,
    ((folded_sublist text).flatMap _).length_le, hscheme, scheme_folded text, isRooted_folded text,
    isFoldedPath_folded text, fun authority segments => authority_folded⟩

theorem folded_canonical_authority :
    hasScheme "http://cdn/../a//./b".toList = true ∧ IsProper "cdn".toList ∧
      ∃ others, (splitScheme (folded "http://cdn/../a//./b".toList)).2.splitOn '/'
        = "cdn".toList :: others := by
  obtain ⟨-, -, -, -, -, -, -, hauthority⟩ := folded_canonical "http://cdn/../a//./b".toList
  exact ⟨by decide, by decide, hauthority _ _ (by decide) rfl (by decide)⟩

end SheetImports.Uri
