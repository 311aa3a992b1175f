import SheetImports.Proofs.Spelling
import SheetImports.Uri.Shorten

/-!
# Short names

A short name is the uri itself, or what follows the base directory and a slash (`shorten_cases`). In
a folded path no slash follows another one, so what follows that slash does not look like a path
from the root: looked up from the base, a short name leads to where the uri lies
(`located_shorten`). So uris that lie in different places are never shown alike, and below a base
that is not the root uris that lie in one place always are (`shorten_faithful`).
-/

namespace SheetImports.Uri

/-- Where a uri lies, seen from a directory: a path from the root where it says, and every other one
below the directory. -/
def located (base uri : Text) : Text :=
  if isRooted uri then uri else base.trimEnd (· == '/') ++ '/' :: uri

/-- A path that folds to itself. -/
structure IsCanonical (path : Text) : Prop where
  noScheme : hasScheme path = false
  folded_eq : folded path = path

theorem IsCanonical.no_mark {path : Text} (h : IsCanonical path) : ¬ schemeMark <:+: path := by
  intro hmark
  rw [← hasScheme_iff, h.noScheme] at hmark
  cases hmark

/-! ## Slashes of a folded path

Folding leaves characters out of a path with one slash too many, so such a path is not folded. -/

/-- A path that folds like a shorter one is not folded. -/
theorem not_isCanonical_of_shorter {path shorter : Text} (hfolded : folded path = folded shorter)
    (hlength : shorter.length < path.length) : ¬ IsCanonical path := by
  intro h
  have hle := (folded_sublist shorter).length_le
  rw [← hfolded, h.folded_eq] at hle
  exact absurd hlength (Nat.not_lt.2 hle)

/-- No slash of a folded path follows another one. -/
theorem not_isCanonical_slashes (x y : Text) : ¬ IsCanonical (x ++ '/' :: '/' :: y) := by
  intro h
  have hmark := h.no_mark
  have hpath : x ++ '/' :: '/' :: y = (x ++ ['/']) ++ '/' :: y := by simp
  rw [hpath] at h hmark
  have hfolded := folded_trimEnd_join hmark
  rw [Text.trimEnd_concat_of_drop rfl] at hfolded
  have htrim := (Text.trimEnd_prefix (· == '/') x).length_le
  refine not_isCanonical_of_shorter hfolded.symm ?_ h
  simp only [List.length_append, List.length_cons, List.length_nil]
  omega

/-- A folded path ends with no slash but the root. -/
theorem eq_nil_of_isCanonical {x : Text} (h : IsCanonical (x ++ ['/'])) : x = [] := by
  by_contra hne
  have hmark : ¬ schemeMark <:+: x := fun hx =>
    h.no_mark (hx.trans (List.IsPrefix.isInfix (List.prefix_append x ['/'])))
  have hstack : stack (groundOf (x ++ ['/'])) ((x ++ ['/']).splitOn '/')
      = stack (groundOf (x ++ ['/'])) (x.splitOn '/') := by
    rw [splitOn_join, List.splitOn_nil, stack_concat, push_nil]
  have hfolded := (folded_congr h.no_mark hmark (isRooted_append hne ['/'])).2 hstack
  exact not_isCanonical_of_shorter hfolded (by simp) h

/-! ## Short names -/

/-- A uri is shown as it is, or without the base in front of it. -/
theorem shorten_cases (base uri : Text) :
    shorten base uri = uri ∨
      ∃ c rest, base.trimEnd (· == '/') ≠ [] ∧
        uri = base.trimEnd (· == '/') ++ '/' :: c :: rest ∧ shorten base uri = c :: rest := by
  simp only [shorten]
  split
  next => exact .inl rfl
  next hbase =>
    split
    next c rest hcut =>
      exact .inr ⟨c, rest, hbase, (Text.append_of_isPrefixOf? hcut).symm, rfl⟩
    next => exact .inl rfl

section Base

variable {base : Text} (hrooted : isRooted base = true)

include hrooted in
theorem isRooted_below (path : Text) :
    isRooted (base.trimEnd (· == '/') ++ '/' :: path) = true := by
  obtain ⟨rest, rfl⟩ := exists_of_isRooted hrooted
  rw [isRooted_trimEnd_join]
  rfl

include hrooted in
/-- A short name leads to where the uri lies. -/
theorem located_shorten {uri : Text} (h : IsCanonical uri) :
    located base (shorten base uri) = located base uri := by
  rcases shorten_cases base uri with hwhole | ⟨c, rest, -, rfl, hshort⟩
  · rw [hwhole]
  · have hrelative : isRooted (c :: rest) = false := by
      by_contra hslash
      obtain ⟨rest', heq⟩ := exists_of_isRooted (eq_true_of_ne_false hslash)
      rw [heq] at h
      exact not_isCanonical_slashes _ _ h
    rw [hshort, located, located, hrelative, isRooted_below hrooted]
    rfl

theorem shorten_ne_nil {uri : Text} (h : uri ≠ []) : shorten base uri ≠ [] := by
  rcases shorten_cases base uri with hwhole | ⟨c, rest, -, -, hshort⟩
  · rwa [hwhole]
  · rw [hshort]
    exact List.cons_ne_nil c rest

include hrooted in
theorem shorten_of_relative {uri : Text} (h : isRooted uri = false) : shorten base uri = uri := by
  rcases shorten_cases base uri with hwhole | ⟨c, rest, -, rfl, -⟩
  · exact hwhole
  · rw [isRooted_below hrooted] at h
    cases h

include hrooted in
/-- A path from the root is shown like the path from the base that leads to the same place. -/
theorem shorten_below (hbase : base.trimEnd (· == '/') ≠ []) {uri : Text} (h : isRooted uri = false)
    (hpath : IsCanonical (base.trimEnd (· == '/') ++ '/' :: uri)) :
    shorten base (base.trimEnd (· == '/') ++ '/' :: uri) = shorten base uri := by
  cases uri with
  | nil => exact absurd (eq_nil_of_isCanonical hpath) hbase
  | cons c rest => rw [shorten_append hbase, shorten_of_relative hrooted h]

include hrooted in
/-- Two names for one place are shown alike. -/
theorem shorten_eq_of_located (hbase : base.trimEnd (· == '/') ≠ []) {uri other : Text}
    (h : IsCanonical uri) (hother : IsCanonical other)
    (hplace : located base uri = located base other) : shorten base uri = shorten base other := by
  unfold located at hplace
  cases huri : isRooted uri <;> cases hpath : isRooted other <;>
    simp only [huri, hpath, ↓reduceIte, Bool.false_eq_true] at hplace
  case false.false =>
    rw [(List.cons.inj (List.append_cancel_left hplace)).2]
  case false.true =>
    rw [← hplace] at hother ⊢
    exact (shorten_below hrooted hbase huri hother).symm
  case true.false =>
    rw [hplace] at h ⊢
    exact shorten_below hrooted hbase hpath h
  case true.true => rw [hplace]

include hrooted in
theorem eq_root_of_isCanonical (h : IsCanonical base) (hnil : base.trimEnd (· == '/') = []) :
    base = ['/'] := by
  obtain ⟨rest, rfl⟩ := exists_of_isRooted hrooted
  cases rest with
  | nil => rfl
  | cons c rest =>
    have hslash := Text.trimEnd_eq_nil_iff.1 hnil c (by simp)
    rw [eq_of_beq hslash] at h
    exact absurd h (not_isCanonical_slashes [] rest)

end Base

/-- Short names are faithful. Looked up from the base, a short name leads to where the uri lies, and
it is not empty if the uri is not. So uris that are shown alike lie in one place, and if the base is
not the root then uris that lie in one place are shown alike. -/
theorem shorten_faithful {base : Text} (hrooted : isRooted base = true) (hbase : IsCanonical base) :
    (∀ uri, IsCanonical uri → located base (shorten base uri) = located base uri ∧
        (uri ≠ [] → shorten base uri ≠ [])) ∧
      ∀ uri other, IsCanonical uri → IsCanonical other →
        (shorten base uri = shorten base other → located base uri = located base other) ∧
        (base ≠ ['/'] → located base uri = located base other →
          shorten base uri = shorten base other) := by
  refine ⟨fun uri h => ⟨located_shorten hrooted h, shorten_ne_nil⟩,
    fun uri other h hother => ⟨?_, ?_⟩⟩
  · intro hshort
    rw [← located_shorten hrooted h, hshort, located_shorten hrooted hother]
  · intro hroot
    exact shorten_eq_of_located hrooted (mt (eq_root_of_isCanonical hrooted hbase) hroot) h hother

theorem shorten_faithful_proj :
    isRooted "/proj".toList = true ∧ IsCanonical "/proj".toList ∧
      IsCanonical "/proj/a.scss".toList ∧ IsCanonical "a.scss".toList ∧
      IsCanonical "/project/a.scss".toList ∧
      located "/proj".toList (shorten "/proj".toList "/proj/a.scss".toList)
        = "/proj/a.scss".toList ∧
      shorten "/proj".toList "/proj/a.scss".toList = shorten "/proj".toList "a.scss".toList ∧
      shorten "/proj".toList "/proj/a.scss".toList
        ≠ shorten "/proj".toList "/project/a.scss".toList := by
  have hbase : IsCanonical "/proj".toList := ⟨by decide, by decide⟩
  have hbelow : IsCanonical "/proj/a.scss".toList := ⟨by decide, by decide⟩
  have hrelative : IsCanonical "a.scss".toList := ⟨by decide, by decide⟩
  have hbeside : IsCanonical "/project/a.scss".toList := ⟨by decide, by decide⟩
  obtain ⟨hplace, halike⟩ := shorten_faithful (by decide) hbase
  refine ⟨by decide, hbase, hbelow, hrelative, hbeside, (hplace _ hbelow).1, ?_, ?_⟩
  · exact (halike _ _ hbelow hrelative).2 (by decide) (by decide)
  · intro hshort
    exact absurd ((halike _ _ hbelow hbeside).1 hshort) (by decide)

end SheetImports.Uri
