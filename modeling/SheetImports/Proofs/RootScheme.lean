import SheetImports.Proofs.Extension

/-!
# The scheme of a search root

Slashes at the end of a search root are trimmed before an identifier is put behind it. If something
else stands behind the scheme of the root, the scheme is not touched, and every candidate under the
root has it (`splitScheme_under`). If nothing else stands there, the slashes of the scheme itself
are trimmed, and no candidate has it (`not_prefix_under`). So the scheme of a root is kept if and
only if the root is more than a scheme and slashes (`scheme_kept_iff`).
-/

namespace SheetImports

theorem Text.trimEnd_append_of_keep {drop : Char → Bool} (first : Text) {second : Text}
    (h : second.trimEnd drop ≠ []) :
    (first ++ second).trimEnd drop = first ++ second.trimEnd drop := by
  unfold trimEnd at h ⊢
  rw [List.reverse_append, List.dropWhile_append, if_neg]
  · rw [List.reverse_append, List.reverse_reverse]
  · simpa using h

namespace Uri

/-- A text begins with a scheme if and only if that is its own. -/
theorem isScheme_prefix_iff {scheme text : Text} (h : IsScheme scheme) (hne : scheme ≠ []) :
    scheme <+: text ↔ (splitScheme text).1 = scheme := by
  constructor
  · rintro ⟨path, rfl⟩
    rw [splitScheme_isScheme h fun hnil => absurd hnil hne]
  · rintro rfl
    exact ⟨_, splitScheme_append text⟩

theorem slash_prefix_iff {path : Text} : ['/'] <+: path ↔ isRooted path = true := by
  cases path with
  | nil => simp [isRooted]
  | cons c path => simp [isRooted, eq_comm]

end Uri

namespace Candidate

open Uri

section Root

variable {root scheme rest : Text} (hroot : Text.cut schemeMark root = some (scheme, rest))

include hroot in
theorem isScheme_of_cut : IsScheme (scheme ++ schemeMark) := by
  have hsplit : splitScheme root = (scheme ++ schemeMark, rest) := by rw [splitScheme, hroot]
  have hscheme := isScheme_splitScheme root
  rwa [hsplit] at hscheme

include hroot in
theorem under_of_cut (identifier : Text) :
    under root identifier
      = folded (root.trimEnd (· == '/') ++ '/' :: identifier.dropWhile (· == '/')) := by
  have hne : root ≠ [] := by
    rintro rfl
    cases hroot
  exact under_of_ne_nil hne identifier

include hroot in
/-- The scheme of a root that is more than a scheme and slashes is kept, with the slash behind it.
-/
theorem splitScheme_under (hkeep : rest.trimEnd (· == '/') ≠ []) (identifier : Text) :
    (splitScheme (under root identifier)).1 = scheme ++ schemeMark ∧
      isRooted (splitScheme (under root identifier)).2 = isRooted rest := by
  have htrim : root.trimEnd (· == '/') = scheme ++ schemeMark ++ rest.trimEnd (· == '/') := by
    rw [Text.append_of_cut hroot, Text.trimEnd_append_of_keep _ hkeep]
  have hrest : rest ≠ [] := by
    rintro rfl
    exact hkeep rfl
  have hsplit : ∀ path : Text,
      splitScheme (scheme ++ schemeMark ++ path) = (scheme ++ schemeMark, path) := fun path =>
    splitScheme_isScheme (isScheme_of_cut hroot) fun hnil => absurd hnil (by simp [schemeMark])
  rw [under_of_cut hroot, scheme_folded, isRooted_folded, htrim, List.append_assoc, hsplit,
    isRooted_trimEnd_join, isRooted_append hrest]
  exact ⟨rfl, rfl⟩

include hroot in
/-- The scheme of a root that is no more than a scheme and slashes is lost. -/
theorem not_prefix_under (hdrop : rest.trimEnd (· == '/') = []) (identifier : Text) :
    ¬ scheme ++ schemeMark <+: under root identifier := by
  intro h
  have htrim : root.trimEnd (· == '/') = scheme ++ [':'] := by
    have hslashes : ∀ c ∈ ['/', '/'] ++ rest, (c == '/') = true := by
      simpa using Text.trimEnd_eq_nil_iff.1 hdrop
    have hsplit : root = scheme ++ [':'] ++ (['/', '/'] ++ rest) := by
      simp [Text.append_of_cut hroot, schemeMark]
    rw [hsplit, Text.trimEnd_append_of_drop _ hslashes, Text.trimEnd_concat_of_keep rfl]
  -- the scheme would have to stand in the joined text, where the identifier begins with no slash
  have hne : scheme ++ schemeMark ≠ [] := by simp [schemeMark]
  rw [isScheme_prefix_iff (isScheme_of_cut hroot) hne, under_of_cut hroot, scheme_folded,
    ← isScheme_prefix_iff (isScheme_of_cut hroot) hne, htrim, List.append_assoc,
    List.prefix_append_right_inj] at h
  cases hname : identifier.dropWhile (· == '/') with
  | nil => simp [hname, schemeMark] at h
  | cons c name =>
    have hslash := List.head?_dropWhile_not (· == '/') identifier
    rw [hname] at h hslash
    obtain rfl : '/' = c := by simpa [schemeMark] using h
    cases hslash

end Root

/-- Completing a candidate leaves its scheme alone. -/
theorem splitScheme_complete (text : Text) :
    (splitScheme (complete text)).1 = (splitScheme text).1 := by
  unfold complete
  split
  · rfl
  · rw [splitScheme_append_of_notMem text slash_notMem_extension]

/-- A candidate under a root with a scheme has that scheme if and only if something else than
slashes stands behind the scheme of the root. It has a slash behind its scheme if the root has one
as well. -/
theorem scheme_kept_iff {root scheme rest : Text}
    (hroot : Text.cut schemeMark root = some (scheme, rest)) (identifier : Text) :
    (scheme ++ schemeMark <+: under root identifier ↔ ∃ c ∈ rest, c ≠ '/') ∧
      (scheme ++ schemeMark ++ ['/'] <+: under root identifier ↔
        rest.head? = some '/' ∧ ∃ c ∈ rest, c ≠ '/') ∧
      (scheme ++ schemeMark <+: complete (under root identifier) ↔ ∃ c ∈ rest, c ≠ '/') := by
  have hne : scheme ++ schemeMark ≠ [] := by simp [schemeMark]
  have hkeep : (∃ c ∈ rest, c ≠ '/') ↔ rest.trimEnd (· == '/') ≠ [] := by
    simp [Text.trimEnd_eq_nil_iff]
  have hscheme : scheme ++ schemeMark <+: under root identifier ↔ ∃ c ∈ rest, c ≠ '/' := by
    rw [hkeep]
    constructor
    · intro h hdrop
      exact not_prefix_under hroot hdrop identifier h
    · intro h
      exact (isScheme_prefix_iff (isScheme_of_cut hroot) hne).2
        (splitScheme_under hroot h identifier).1
  have hslash : (∃ c ∈ rest, c ≠ '/') →
      (scheme ++ schemeMark ++ ['/'] <+: under root identifier ↔ rest.head? = some '/') := by
    intro hrest
    obtain ⟨hsplit, hrooted⟩ := splitScheme_under hroot (hkeep.1 hrest) identifier
    rw [← splitScheme_append (under root identifier), hsplit, List.prefix_append_right_inj,
      slash_prefix_iff, hrooted]
    exact decide_eq_true_iff
  refine ⟨hscheme, ⟨?_, ?_⟩, ?_⟩
  · intro h
    have hrest := hscheme.1 ((List.prefix_append _ _).trans h)
    exact ⟨(hslash hrest).1 h, hrest⟩
  · rintro ⟨hhead, hrest⟩
    exact (hslash hrest).2 hhead
  · rw [← hscheme, isScheme_prefix_iff (isScheme_of_cut hroot) hne, splitScheme_complete,
      isScheme_prefix_iff (isScheme_of_cut hroot) hne]

theorem scheme_kept_share :
    Text.cut schemeMark "file:///lib//".toList = some ("file".toList, "/lib//".toList) ∧
      "file:///".toList <+: under "file:///lib//".toList "/../http://x".toList := by
  have hroot : Text.cut schemeMark "file:///lib//".toList = some ("file".toList, "/lib//".toList) :=
    rfl
  obtain ⟨-, hslash, -⟩ := scheme_kept_iff hroot "/../http://x".toList
  exact ⟨hroot, hslash.2 ⟨rfl, 'l', by decide, by decide⟩⟩

/-- Roots that are no more than a scheme and slashes give candidates without it. -/
theorem scheme_lost :
    Text.cut schemeMark "file:///".toList = some ("file".toList, "/".toList) ∧
      under "file:///".toList "x".toList = "file:/x".toList ∧
      ¬ "file://".toList <+: under "file:///".toList "x".toList ∧
      Text.cut schemeMark "http://".toList = some ("http".toList, []) ∧
      under "http://".toList "cdn/x".toList = "http:/cdn/x".toList := by
  decide +kernel

end Candidate

end SheetImports
