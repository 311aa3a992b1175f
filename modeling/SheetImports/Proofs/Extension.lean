import Mathlib.Data.List.TakeWhile
import SheetImports.Proofs.FoldedForm

/-!
# The extension of a candidate

Folding changes nothing of the last segment of a text if that is a name, and what is written behind
the name stays behind it (`fileName_folded`, `folded_append_of_name`). So the extension may be
written before a candidate is made or after it (`map_complete_all`): an import is tried at the same
places as if its extension had been left where it was. There is one exception, a name that ends in
`.css` before its extension. It counts as complete, and its extension is lost
(`extension_kept_iff`).
-/

namespace SheetImports

/-! ## The last segment of a text -/

namespace Uri

/-- What stands behind the last slash of a text. -/
def fileName (text : Text) : Text := (text.reverse.takeWhile (· ≠ '/')).reverse

theorem directory_append_fileName (text : Text) : directory text ++ fileName text = text := by
  unfold directory Text.throughLast fileName
  rw [← List.reverse_append, List.takeWhile_append_dropWhile, List.reverse_reverse]

theorem slash_notMem_fileName (text : Text) : '/' ∉ fileName text := by
  unfold fileName
  intro h
  simpa using List.mem_takeWhile_imp (List.mem_reverse.1 h)

theorem directory_cases (text : Text) :
    directory text = [] ∨ ∃ front, directory text = front ++ ['/'] := by
  unfold directory Text.throughLast
  cases hrest : text.reverse.dropWhile (· ≠ '/') with
  | nil => exact Or.inl rfl
  | cons c rest =>
    have hslash := List.head?_dropWhile_not (· ≠ '/') text.reverse
    rw [hrest] at hslash
    obtain rfl : c = '/' := by simpa using hslash
    exact Or.inr ⟨rest.reverse, List.reverse_cons⟩

theorem fileName_append (text : Text) {more : Text} (h : '/' ∉ more) :
    fileName (text ++ more) = fileName text ++ more := by
  unfold fileName
  rw [List.reverse_append, List.takeWhile_append_of_pos, List.reverse_append, List.reverse_reverse]
  intro c hc
  have hne : c ≠ '/' := fun heq => h (heq ▸ List.mem_reverse.1 hc)
  simpa using hne

theorem fileName_slash (text : Text) : fileName (text ++ ['/']) = [] := by
  simp [fileName]

theorem fileName_join (first second : Text) :
    fileName (first ++ '/' :: second) = fileName second := by
  obtain ⟨front, hfront⟩ : ∃ front, first ++ '/' :: second = front ++ ['/'] ++ fileName second := by
    have hsecond := directory_append_fileName second
    rcases directory_cases second with hnone | ⟨front, hfront⟩
    · rw [hnone, List.nil_append] at hsecond
      exact ⟨first, by simp [hsecond]⟩
    · rw [hfront] at hsecond
      refine ⟨first ++ '/' :: front, ?_⟩
      calc first ++ '/' :: second = first ++ '/' :: (front ++ ['/'] ++ fileName second) := by
            rw [hsecond]
        _ = first ++ '/' :: front ++ ['/'] ++ fileName second := by simp
  rw [hfront, fileName_append _ (slash_notMem_fileName _), fileName_slash, List.nil_append]

/-- Whether a text ends in an extension shows in its file name. -/
theorem suffix_iff_fileName {ending text : Text} (h : '/' ∉ ending) :
    ending <:+ text ↔ ending <:+ fileName text := by
  constructor
  · rintro ⟨front, rfl⟩
    rw [fileName_append front h]
    exact List.suffix_append _ _
  · intro hending
    have hname : fileName text <:+ text := ⟨directory text, directory_append_fileName text⟩
    exact hending.trans hname

theorem fileName_of_slash_notMem {text : Text} (h : '/' ∉ text) : fileName text = text :=
  fileName_append [] h

/-- The file name is the last segment, and it grows with the text. -/
theorem exists_splitOn (text : Text) :
    ∃ before, ∀ more : Text, '/' ∉ more →
      (text ++ more).splitOn '/' = before ++ [fileName text ++ more] := by
  have htext := directory_append_fileName text
  have hname : ∀ more : Text, '/' ∉ more → '/' ∉ fileName text ++ more := fun more hmore hmem =>
    (List.mem_append.1 hmem).elim (slash_notMem_fileName text) hmore
  rcases directory_cases text with hnone | ⟨front, hfront⟩
  · rw [hnone, List.nil_append] at htext
    refine ⟨[], fun more hmore => ?_⟩
    rw [htext, Text.splitOn_of_notMem (htext ▸ hname more hmore)]
    rfl
  · rw [hfront] at htext
    refine ⟨front.splitOn '/', fun more hmore => ?_⟩
    have hsplit : text ++ more = front ++ '/' :: (fileName text ++ more) := by
      conv_lhs => rw [← htext]
      simp
    rw [hsplit, splitOn_join, Text.splitOn_of_notMem (hname more hmore)]

/-! ## Folding a text that ends in a name -/

theorem no_scheme_append {text more : Text} (htext : ¬ schemeMark <:+: text) (hmore : '/' ∉ more) :
    ¬ schemeMark <:+: text ++ more := by
  rintro ⟨before, after, h⟩
  rcases List.append_eq_append_iff.1 h with ⟨rest, rfl, -⟩ | ⟨rest, hrest, rfl⟩
  · exact htext ⟨before, rest, rfl⟩
  · -- the mark ends in a slash, so nothing of it stands in `more`
    rcases List.eq_nil_or_concat' rest with rfl | ⟨start, c, rfl⟩
    · rw [List.append_nil] at hrest
      exact htext ⟨before, [], by rw [List.append_nil, hrest]⟩
    · have hlast := congrArg List.getLast? hrest
      rw [← List.append_assoc, List.getLast?_concat, List.getLast?_append] at hlast
      obtain rfl : '/' = c := by simpa [schemeMark] using hlast
      exact hmore (by simp)

/-- What is added without a slash is added behind the scheme. -/
theorem splitScheme_append_of_notMem (text : Text) {more : Text} (h : '/' ∉ more) :
    splitScheme (text ++ more) = ((splitScheme text).1, (splitScheme text).2 ++ more) := by
  have hpath : (splitScheme text).1 = [] → ¬ schemeMark <:+: (splitScheme text).2 ++ more := by
    intro hnil
    have hscheme : ¬ schemeMark <:+: text := by
      rw [← hasScheme_iff, hasScheme_iff_ne_nil]
      exact not_not.2 hnil
    have htext := splitScheme_append text
    rw [hnil, List.nil_append] at htext
    rw [htext]
    exact no_scheme_append hscheme h
  conv_lhs => rw [← splitScheme_append text, List.append_assoc]
  exact splitScheme_isScheme (isScheme_splitScheme text) hpath

theorem fileName_splitScheme (text : Text) : fileName (splitScheme text).2 = fileName text := by
  unfold splitScheme
  split
  next name rest hcut =>
    have htext : text = name ++ [':', '/'] ++ '/' :: rest := by
      simp [Text.append_of_cut hcut, schemeMark]
    rw [htext, fileName_join]
  next => rfl

theorem fileName_intercalate (names : List Text) {last : Text} (h : '/' ∉ last) :
    fileName (['/'].intercalate (names ++ [last])) = last := by
  induction names with
  | nil =>
    rw [List.nil_append, List.intercalate_singleton]
    exact fileName_of_slash_notMem h
  | cons name names ih =>
    cases hrest : names ++ [last] with
    | nil => simp at hrest
    | cons next others =>
      rw [hrest] at ih
      rw [List.cons_append, hrest, List.intercalate_cons_cons, List.append_assoc]
      exact (fileName_join name _).trans ih

theorem fileName_written (rooted : Bool) (names : List Text) {last : Text} (h : '/' ∉ last) :
    fileName (written rooted (names ++ [last])) = last := by
  cases rooted with
  | true => exact (fileName_join [] _).trans (fileName_intercalate names h)
  | false => exact fileName_intercalate names h

/-- The last name goes on top of the stack of what is in front of it, whatever is added to the
name. -/
theorem exists_stack (text : Text) :
    ∃ names, ∀ more : Text, '/' ∉ more → IsProper (fileName text ++ more) →
      (stack (ofText text).ground (((splitScheme text).2 ++ more).splitOn '/')).reverse
        = names ++ [fileName text ++ more] := by
  obtain ⟨before, hbefore⟩ := exists_splitOn (splitScheme text).2
  rw [fileName_splitScheme] at hbefore
  refine ⟨(stack (ofText text).ground before).reverse, fun more hmore h => ?_⟩
  rw [hbefore more hmore, stack_concat, h.push, List.reverse_cons]

/-- What stands behind a name is still behind it when the text is folded. -/
theorem folded_append_of_name {text more : Text} (htext : IsProper (fileName text))
    (hmore : '/' ∉ more) (h : IsProper (fileName text ++ more)) :
    folded (text ++ more) = folded text ++ more := by
  obtain ⟨names, hnames⟩ := exists_stack text
  have hplain := hnames [] (by simp) (by rwa [List.append_nil])
  rw [List.append_nil, List.append_nil] at hplain
  have hpath : (splitScheme text).2 ≠ [] := by
    intro hnil
    rw [← fileName_splitScheme, hnil] at htext
    exact htext.1 rfl
  have hrooted := isRooted_append hpath more
  have hground : (ofText (text ++ more)).ground = (ofText text).ground := by
    rw [ground_ofText, ground_ofText, splitScheme_append_of_notMem text hmore, hrooted]
  rw [folded_eq, folded_eq, hground, splitScheme_append_of_notMem text hmore, hrooted,
    hnames more hmore h, hplain, written, written, intercalate_concat]
  simp

/-- Folding keeps the file name, if that is a name. -/
theorem fileName_folded {text : Text} (h : IsProper (fileName text)) :
    fileName (folded text) = fileName text := by
  obtain ⟨names, hnames⟩ := exists_stack text
  have hplain := hnames [] (by simp) (by rwa [List.append_nil])
  rw [List.append_nil, List.append_nil] at hplain
  rw [← fileName_splitScheme, splitScheme_folded, hplain]
  exact fileName_written _ _ (slash_notMem_fileName text)

end Uri

/-! ## Completing a candidate -/

namespace Candidate

open Uri

theorem cssExtension_suffix_iff (text : Text) :
    cssExtension <:+ text ↔ cssExtension <:+ fileName text :=
  suffix_iff_fileName (by decide)

theorem complete_of_css {text : Text} (h : cssExtension <:+ text) : complete text = text :=
  if_pos (List.isSuffixOf_iff_suffix.2 h)

theorem complete_of_not_css {text : Text} (h : ¬ cssExtension <:+ text) :
    complete text = text ++ extension :=
  if_neg fun hcss => h (List.isSuffixOf_iff_suffix.1 hcss)

theorem slash_notMem_extension : '/' ∉ extension := by decide

theorem isProper_append_extension (name : Text) : IsProper (name ++ extension) :=
  isProper_append name (by decide)

/-- It makes no difference whether a candidate is completed before it is folded or after. -/
theorem complete_folded {text : Text} (h : IsProper (fileName text)) :
    complete (folded text) = folded (complete text) := by
  have hcss : cssExtension <:+ folded text ↔ cssExtension <:+ text := by
    rw [cssExtension_suffix_iff, fileName_folded h, ← cssExtension_suffix_iff]
  by_cases htext : cssExtension <:+ text
  · rw [complete_of_css htext, complete_of_css (hcss.2 htext)]
  · rw [complete_of_not_css htext, complete_of_not_css (hcss.not.2 htext)]
    exact (folded_append_of_name h slash_notMem_extension (isProper_append_extension _)).symm

theorem complete_append {front name : Text} (h : fileName (front ++ name) = fileName name) :
    complete (front ++ name) = front ++ complete name := by
  have hcss : cssExtension <:+ front ++ name ↔ cssExtension <:+ name := by
    rw [cssExtension_suffix_iff, h, ← cssExtension_suffix_iff]
  by_cases hname : cssExtension <:+ name
  · rw [complete_of_css hname, complete_of_css (hcss.2 hname)]
  · rw [complete_of_not_css hname, complete_of_not_css (hcss.not.2 hname), List.append_assoc]

theorem fileName_dropWhile (text : Text) :
    fileName (text.dropWhile (· == '/')) = fileName text := by
  induction text with
  | nil => rfl
  | cons c text ih =>
    by_cases hc : c = '/'
    · subst hc
      rw [List.dropWhile_cons_of_pos rfl, ih]
      exact (fileName_join [] text).symm
    · rw [List.dropWhile_cons_of_neg (by simpa using hc)]

/-- A name that is completed keeps the slashes in front of it. -/
theorem dropWhile_complete {name : Text} (h : fileName name ≠ []) :
    (complete name).dropWhile (· == '/') = complete (name.dropWhile (· == '/')) := by
  induction name with
  | nil => exact absurd rfl h
  | cons c name ih =>
    by_cases hc : c = '/'
    · subst hc
      have hname : fileName (['/'] ++ name) = fileName name := fileName_join [] name
      have hcomplete : complete ('/' :: name) = '/' :: complete name := complete_append hname
      rw [hcomplete, List.dropWhile_cons_of_pos rfl, List.dropWhile_cons_of_pos rfl]
      exact ih (hname ▸ h)
    · rw [List.dropWhile_cons_of_neg (by simpa using hc)]
      unfold complete
      split <;> exact List.dropWhile_cons_of_neg (by simpa using hc)

/-- A way to make a candidate of a name: a text with the same last segment is folded. -/
structure Placing (place written : Text → Text) : Prop where
  folded : ∀ name, place name = Uri.folded (written name)
  fileName : ∀ name, fileName (written name) = fileName name
  complete : ∀ name, Uri.fileName name ≠ [] → complete (written name) = written (complete name)

namespace Placing

variable {place written : Text → Text} (h : Placing place written) {name : Text}
  (hname : IsProper (Uri.fileName name))

include h hname

theorem complete_place : Candidate.complete (place name) = place (Candidate.complete name) := by
  have hwritten : IsProper (Uri.fileName (written name)) := (h.fileName name).symm ▸ hname
  rw [h.folded, h.folded, complete_folded hwritten, h.complete name hname.1]

theorem fileName_place : Uri.fileName (place name) = Uri.fileName name := by
  have hwritten : IsProper (Uri.fileName (written name)) := (h.fileName name).symm ▸ hname
  rw [h.folded, fileName_folded hwritten, h.fileName]

end Placing

/-- Under a root, candidates are placed: a text in front of the name, folded. -/
theorem exists_placing_under (root : Text) : ∃ written, Placing (under root) written := by
  by_cases hroot : root = []
  · exact ⟨id, fun name => if_pos hroot, fun name => rfl, fun name _ => rfl⟩
  · have hfile : ∀ name : Text,
        fileName (root.trimEnd (· == '/') ++ '/' :: name.dropWhile (· == '/'))
          = fileName name := fun name => (fileName_join _ _).trans (fileName_dropWhile name)
    refine ⟨_, under_of_ne_nil hroot, hfile, fun name hname => ?_⟩
    rw [dropWhile_complete hname, List.append_cons, List.append_cons _ '/' (complete _)]
    apply complete_append
    rw [← List.append_cons]
    exact fileName_join _ _

theorem fileName_directory_append (parent : Parent) (name : Text) :
    fileName (parent.directory ++ name) = fileName name := by
  unfold Parent.directory
  cases parent.uri with
  | none => rfl
  | some uri =>
    rcases directory_cases uri with hnone | ⟨front, hfront⟩
    · simp [hnone]
    · simp [hfront, fileName_join]

theorem isRooted_complete {name : Text} (h : name ≠ []) :
    isRooted (complete name) = isRooted name := by
  unfold complete
  split
  · rfl
  · exact isRooted_append h _

/-- Next to the parent they are as well, also for an identifier that is rooted or has a scheme. -/
theorem exists_placing_default (parent : Parent) : ∃ written, Placing (default parent) written := by
  refine ⟨_, fun name => rfl, fun name => ?_, fun name hname => ?_⟩
  · split
    · rfl
    · exact fileName_directory_append parent name
  · have hne : name ≠ [] := by
      rintro rfl
      exact hname rfl
    rw [isRooted_complete hne]
    split
    · rfl
    · exact complete_append (fileName_directory_append parent name)

/-- Where a name is looked for if nothing is added to it. -/
def places (parent : Parent) (roots : List Text) (name : Text) : List Text :=
  default parent name :: roots.map (under · name)

/-- An import is tried where its name without the extension, completed, is looked for. -/
theorem map_complete_all {identifier : Text} (h : IsProper (fileName (stem identifier)))
    (parent : Parent) (roots : List Text) :
    (all parent roots identifier).map complete
      = places parent roots (complete (stem identifier)) := by
  obtain ⟨_, hdefault⟩ := exists_placing_default parent
  rw [all, places, List.map_cons, hdefault.complete_place h, List.map_map]
  congr 1
  apply List.map_congr_left
  intro root _
  obtain ⟨_, hunder⟩ := exists_placing_under root
  exact hunder.complete_place h

/-- Wherever an import is tried, the file has the name that was asked for. -/
theorem fileName_of_mem_places {name : Text} (h : IsProper (fileName name)) {parent : Parent}
    {roots : List Text} {uri : Text} (hmem : uri ∈ places parent roots name) :
    fileName uri = fileName name := by
  rcases List.mem_cons.1 hmem with rfl | hmem
  · obtain ⟨_, hdefault⟩ := exists_placing_default parent
    exact hdefault.fileName_place h
  · obtain ⟨root, -, rfl⟩ := List.mem_map.1 hmem
    obtain ⟨_, hunder⟩ := exists_placing_under root
    exact hunder.fileName_place h

/-! ## The extension of an identifier -/

theorem stem_append_extension (name : Text) : stem (name ++ extension) = name := by
  rw [stem, List.isSuffixOf?_eq_some_iff_append_eq.2 rfl]
  rfl

theorem stem_of_not_suffix {identifier : Text} (h : ¬ extension <:+ identifier) :
    stem identifier = identifier := by
  unfold stem
  cases hsuffix : extension.isSuffixOf? identifier with
  | none => rfl
  | some name => exact absurd ⟨name, List.isSuffixOf?_eq_some_iff_append_eq.1 hsuffix⟩ h

theorem append_extension_ne (name : Text) : name ++ extension ≠ name := by
  simp [extension]

/-- The extension of an import is added back exactly once, unless what is left without it ends in
`.css`. Then nothing is added, and another file is tried than the one that was written. With or
without its extension, a name is tried at the same places. -/
theorem extension_kept_iff {identifier : Text} (h : IsProper (fileName (stem identifier)))
    (parent : Parent) (roots : List Text) :
    ((all parent roots identifier).map complete
          = places parent roots (stem identifier ++ extension) ↔
        ¬ cssExtension <:+ stem identifier) ∧
      (cssExtension <:+ stem identifier →
        (all parent roots identifier).map complete = places parent roots (stem identifier)) ∧
      (¬ extension <:+ identifier →
        all parent roots (identifier ++ extension) = all parent roots identifier) ∧
      (extension <:+ identifier → ∀ uri ∈ (all parent roots identifier).map complete,
        (extension <:+ uri ∧ fileName uri = fileName identifier ↔
          ¬ cssExtension <:+ stem identifier)) := by
  have hlonger : fileName (stem identifier ++ extension)
      = fileName (stem identifier) ++ extension := fileName_append _ slash_notMem_extension
  have hproper : IsProper (fileName (stem identifier ++ extension)) :=
    hlonger ▸ isProper_append_extension _
  have hcss : cssExtension <:+ stem identifier →
      (all parent roots identifier).map complete = places parent roots (stem identifier) := by
    intro hcss
    rw [map_complete_all h, complete_of_css hcss]
  have hplain : ¬ cssExtension <:+ stem identifier →
      (all parent roots identifier).map complete
        = places parent roots (stem identifier ++ extension) := by
    intro hcss
    rw [map_complete_all h, complete_of_not_css hcss]
  refine ⟨⟨?_, hplain⟩, hcss, ?_, ?_⟩
  · intro hall hstem
    rw [hcss hstem] at hall
    have hfirst : default parent (stem identifier) ∈ places parent roots (stem identifier) :=
      List.mem_cons_self
    have hname := fileName_of_mem_places h hfirst
    rw [hall] at hfirst
    rw [fileName_of_mem_places hproper hfirst, hlonger] at hname
    exact append_extension_ne _ hname
  · intro hextension
    rw [all, all, stem_append_extension, stem_of_not_suffix hextension]
  · rintro ⟨name, rfl⟩ uri huri
    rw [stem_append_extension] at *
    constructor
    · rintro ⟨-, hname⟩ hstem
      rw [hcss hstem] at huri
      rw [fileName_of_mem_places h huri, hlonger] at hname
      exact append_extension_ne _ hname.symm
    · intro hstem
      rw [hplain hstem] at huri
      have hname := fileName_of_mem_places hproper huri
      refine ⟨(suffix_iff_fileName slash_notMem_extension).2 ?_, hname⟩
      rw [hname, hlonger]
      exact List.suffix_append _ _

/-- A file name that begins with two dots, in a sibling directory. -/
def hiddenGrid : Text := "../grid/..grid.scss".toList

theorem extension_kept_grid :
    IsProper (fileName (stem hiddenGrid)) ∧ extension <:+ hiddenGrid ∧
      (all ⟨some "/a/b.scss".toList⟩ ["lib//".toList] hiddenGrid).map complete
        = places ⟨some "/a/b.scss".toList⟩ ["lib//".toList] (stem hiddenGrid ++ extension) ∧
      places ⟨some "/a/b.scss".toList⟩ ["lib//".toList] (stem hiddenGrid ++ extension)
        = ["/grid/..grid.scss".toList, "grid/..grid.scss".toList] ∧
      ∀ uri ∈ (all ⟨some "/a/b.scss".toList⟩ ["lib//".toList] hiddenGrid).map complete,
        extension <:+ uri ∧ fileName uri = "..grid.scss".toList := by
  have hname : IsProper (fileName (stem hiddenGrid)) := by decide
  have hextension : extension <:+ hiddenGrid := by decide
  have hcss : ¬ cssExtension <:+ stem hiddenGrid := by decide
  obtain ⟨hall, -, -, huris⟩ :=
    extension_kept_iff hname ⟨some "/a/b.scss".toList⟩ ["lib//".toList]
  exact ⟨hname, hextension, hall.2 hcss, by decide +kernel,
    fun uri huri => (huris hextension uri huri).2 hcss⟩

/-- The extension behind a name that ends in `.css` is lost. -/
theorem extension_lost :
    ¬ cssExtension <:+ "x.css.scss".toList ∧ IsProper (fileName (stem "x.css.scss".toList)) ∧
      (all ⟨some "/proj/a.scss".toList⟩ [] "x.css.scss".toList).map complete
        = ["/proj/x.css".toList] ∧
      places ⟨some "/proj/a.scss".toList⟩ [] (stem "x.css.scss".toList ++ extension)
        = ["/proj/x.css.scss".toList] := by
  decide +kernel

end Candidate

end SheetImports
