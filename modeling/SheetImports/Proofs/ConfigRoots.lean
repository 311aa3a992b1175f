import Mathlib.Data.List.Forall2
import SheetImports.Proofs.SearchRoots

/-!
# Where a configuration stands

A relative search path starts at the directory of its configuration. The way up from the start of a
run ends at the root, or for a relative start at the empty path, and a configuration found there has
a name and nothing in front of it. Everywhere else the path of the configuration is that of its
directory, a slash and more (`exists_parent?_of_name`), and its search paths start there. With
nothing in front of the name they start at the root instead (`searchPaths_beside_file_iff`).
-/

namespace SheetImports

open Uri

/-! ## The directory of a file -/

namespace Path

theorem dropName?_concat {name : Text} (hname : isIdle name = false) (segments : List Text) :
    dropName? (segments ++ [name]) = some (dropIdleEnd segments) := by
  simp [dropName?, hname]

theorem dropIdleEnd_cons {segment : Text} (h : isIdle segment = false) (segments : List Text) :
    dropIdleEnd (segment :: segments) = segment :: dropIdleEnd segments := by
  unfold dropIdleEnd
  rw [List.reverse_cons, List.dropWhile_append]
  split
  next hall =>
    rw [List.isEmpty_iff] at hall
    simp [hall, h]
  next => simp

theorem intercalate_append {before after : List Text} (hbefore : before ≠ [])
    (hafter : after ≠ []) :
    ['/'].intercalate (before ++ after)
      = ['/'].intercalate before ++ '/' :: ['/'].intercalate after := by
  induction before with
  | nil => exact absurd rfl hbefore
  | cons first before ih =>
    cases before with
    | nil =>
      obtain ⟨second, after, rfl⟩ := List.exists_cons_of_ne_nil hafter
      simp
    | cons second before =>
      have hrest := ih (List.cons_ne_nil second before)
      rw [List.cons_append] at hrest
      rw [List.cons_append, List.cons_append, List.intercalate_cons_cons, hrest,
        List.intercalate_cons_cons]
      simp

/-- The parent of a path that ends in a name is what stands in front of some slash, or the root. -/
theorem exists_parent?_of_name {path name : Text} {segments : List Text}
    (hpath : path.splitOn '/' = segments ++ [name]) (hsegments : segments ≠ [])
    (hname : isIdle name = false) :
    ∃ above rest, path = above ++ '/' :: rest ∧
      parent? path = some (if above = [] then ['/'] else above) := by
  obtain ⟨first, more, rfl⟩ := List.exists_cons_of_ne_nil hsegments
  obtain ⟨idle, hmore⟩ := eq_append_of_dropWhile_reverse more
  have hkept : first :: (more ++ [name]) = (first :: dropIdleEnd more) ++ (idle ++ [name]) := by
    conv => lhs; rw [hmore]
    simp [dropIdleEnd]
  refine ⟨['/'].intercalate (first :: dropIdleEnd more), ['/'].intercalate (idle ++ [name]), ?_, ?_⟩
  · rw [← intercalate_append (by simp) (by simp), ← hkept, ← List.cons_append, ← hpath,
      List.intercalate_splitOn]
  · unfold parent?
    rw [hpath]
    simp only [List.cons_append]
    split
    next hdot =>
      rw [dropName?_concat hname, hdot]
      cases dropIdleEnd more <;> simp
    next hdot =>
      split
      next hnil =>
        rw [dropName?_concat hname, hnil]
        cases dropIdleEnd more <;> simp
      next hnil =>
        have hfirst : isIdle first = false := by simp [isIdle, hnil, hdot]
        rw [← List.cons_append, dropName?_concat hname, dropIdleEnd_cons hfirst]
        cases dropIdleEnd more <;> simp [hnil]

end Path

/-! ## The path of a configuration -/

namespace Config

/-- The path that was found is that of some directory with the name of a configuration behind it. -/
theorem exists_directory_of_find? {store : Store} {start path : Text}
    (h : find? store start = some path) : ∃ directory, path = Path.join directory fileName := by
  obtain ⟨directory, -, rfl⟩ := List.mem_map.1 (List.mem_of_find?_eq_some h)
  exact ⟨directory, rfl⟩

variable {readJson : JsonReader}

/-- The segments of its path end with that name. -/
theorem splitOn_join_fileName (directory : Text) :
    Path.join directory fileName = fileName ∨
      ∃ segments, segments ≠ [] ∧
        (Path.join directory fileName).splitOn '/' = segments ++ [fileName] := by
  have hname : fileName.splitOn '/' = [fileName] := by decide
  unfold Path.join
  split
  next h =>
    rcases h with rfl | hlast
    · exact Or.inl rfl
    · obtain ⟨above, rfl⟩ := List.getLast?_eq_some_iff.1 hlast
      refine Or.inr ⟨above.splitOn '/', List.splitOn_ne_nil _ _, ?_⟩
      rw [List.append_assoc, List.singleton_append, splitOn_join, hname]
  next =>
    refine Or.inr ⟨directory.splitOn '/', List.splitOn_ne_nil _ _, ?_⟩
    rw [List.append_assoc, List.singleton_append, splitOn_join, hname]

/-- A configuration that was found has nothing in front of its name, or stands in a directory. -/
theorem path_cases {store : Store} {start : Text} {config : Config}
    (h : (load store start readJson).1 = some config) :
    (config.path = fileName ∧ Path.parent? config.path = some []) ∨
      config.path ≠ fileName ∧ ∃ above rest, config.path = above ++ '/' :: rest ∧
        Path.parent? config.path = some (if above = [] then ['/'] else above) := by
  obtain ⟨directory, hdirectory⟩ := exists_directory_of_find? (read_of_load h).1
  by_cases hbare : config.path = fileName
  · refine Or.inl ⟨hbare, ?_⟩
    rw [hbare]
    decide
  refine Or.inr ⟨hbare, ?_⟩
  rcases splitOn_join_fileName directory with hjoin | ⟨segments, hne, hsplit⟩
  · exact absurd (hdirectory.trans hjoin) hbare
  · rw [← hdirectory] at hsplit
    exact Path.exists_parent?_of_name hsplit hne (by decide)

end Config

/-! ## Relative search paths -/

namespace Uri

/-- No scheme arises where the second text does not begin with a slash. -/
theorem no_scheme_append_of_head {x y : Text} (hx : ¬ schemeMark <:+: x)
    (hy : ¬ schemeMark <:+: y) (hstart : y.head? ≠ some '/') : ¬ schemeMark <:+: x ++ y := by
  have hnot : ∀ rest, ¬ '/' :: rest <+: y := by
    rintro rest ⟨after, rfl⟩
    exact hstart rfl
  induction x with
  | nil => exact hy
  | cons c x ih =>
    intro h
    rcases List.infix_cons_iff.1 h with hprefix | hpart
    · obtain ⟨rfl, hslashes⟩ := scheme_prefix_cons.1 hprefix
      rcases x with - | ⟨d, - | ⟨e, x⟩⟩
      · exact hnot _ hslashes
      · exact hnot _ (List.cons_prefix_cons.1 hslashes).2
      · obtain ⟨rfl, hslash⟩ := List.cons_prefix_cons.1 hslashes
        obtain ⟨rfl, -⟩ := List.cons_prefix_cons.1 hslash
        exact hx (List.IsPrefix.isInfix ⟨x, rfl⟩)
    · exact ih (fun hpart => hx (List.infix_cons hpart)) hpart

end Uri

theorem searchRoot_congr {root other : Text} (h : folded root = folded other) :
    searchRoot root = searchRoot other := by
  rw [searchRoot, searchRoot, h]

namespace Config

/-- A relative entry is read under the directory of the file, with one slash between them. -/
theorem rootOf_relative {directory entry : Text} (hrooted : isRooted entry = false)
    (hentry : ¬ schemeMark <:+: entry) (h : ¬ schemeMark <:+: directory ++ '/' :: entry) :
    rootOf directory entry = searchRoot (directory ++ '/' :: entry) := by
  have hscheme : ¬ hasScheme entry = true := fun htrue => hentry (hasScheme_iff.1 htrue)
  rw [rootOf, if_neg (by simp [hrooted, hscheme]), Path.toUri, List.append_assoc,
    List.singleton_append]
  exact searchRoot_congr (folded_trimEnd_join h)

/-- A configuration that is read lists search paths, and each has a root. The root of a relative one
is the directory of the configuration, a slash and the search path, folded, unless nothing stands in
front of the name of the configuration: then the slash is where the path begins. -/
theorem searchPaths_beside_file_iff {readJson : JsonReader} {store : Store} {start : Text}
    {config : Config} (hload : (load store start readJson).1 = some config)
    (hscheme : ¬ schemeMark <:+: config.path) :
    ∃ directory entries, Path.parent? config.path = some directory ∧
      Lists readJson store start directory entries ∧
      List.Forall₂ (fun entry root => isRooted entry = false → ¬ schemeMark <:+: entry →
          (root = searchRoot (givenRoot directory ++ '/' :: entry) ↔ config.path ≠ fileName) ∧
          (isRooted root = isRooted config.path ↔ config.path ≠ fileName) ∧
          (config.path = fileName → root = searchRoot ('/' :: entry)))
        entries config.searchPaths := by
  obtain ⟨-, bytes, text, value, directory, hread, htext, hvalue, hdirectory, hpaths⟩ :=
    read_of_load hload
  refine ⟨directory, listed value, hdirectory,
    .present hload hdirectory hread htext (by rw [hvalue]; rfl), ?_⟩
  rw [hpaths, List.forall₂_map_right_iff, List.forall₂_same]
  intro entry _ hrooted hentry
  have hhead : entry.head? ≠ some '/' := of_decide_eq_false hrooted
  have hslash : ¬ schemeMark <:+: '/' :: entry := fun h => hentry (scheme_slash_cons.1 h)
  rcases path_cases hload with ⟨hbare, hparent⟩ | ⟨hbare, above, rest, hpath, hparent⟩
  · -- nothing is trimmed away in front of the slash, and the root is rooted
    obtain rfl : directory = [] := Option.some.inj (hdirectory.symm.trans hparent)
    have hroot : rootOf [] entry = searchRoot ('/' :: entry) :=
      rootOf_relative hrooted hentry hslash
    have hhere : ¬ schemeMark <:+: ['.'] ++ '/' :: entry :=
      no_scheme_join (by decide) hentry (by decide) hhead
    rw [hroot]
    refine ⟨iff_of_false ?_ (not_not.2 hbare), iff_of_false ?_ (not_not.2 hbare), fun _ => rfl⟩
    · intro heq
      have hsame := congrArg isRooted heq
      rw [(searchRoot_spec hslash).1, givenRoot, if_pos rfl, (searchRoot_spec hhere).1] at hsame
      cases hsame
    · rw [(searchRoot_spec hslash).1, hbare]
      exact Bool.noConfusion
  · have hdirectory' := Option.some.inj (hdirectory.symm.trans hparent)
    have hne : directory ≠ [] := by
      rw [hdirectory']
      split <;> simp_all
    have hjoin : ¬ schemeMark <:+: directory ++ '/' :: entry := by
      rw [hdirectory']
      split
      next => exact fun h => hslash (scheme_slash_cons.1 h)
      next =>
        rw [← List.singleton_append, ← List.append_assoc]
        refine no_scheme_append_of_head (fun h => hscheme ?_) hentry hhead
        exact h.trans (List.IsPrefix.isInfix ⟨rest, by simp [hpath]⟩)
    have hroot := rootOf_relative hrooted hentry hjoin
    have hsame : isRooted directory = isRooted config.path := by
      rw [hdirectory', hpath]
      split
      next hnil =>
        rw [hnil]
        rfl
      next hnil => exact (isRooted_append hnil _).symm
    rw [hroot, givenRoot, if_neg hne]
    refine ⟨iff_of_true rfl hbare, iff_of_true ?_ hbare, fun h => absurd h hbare⟩
    rw [(searchRoot_spec hjoin).1, isRooted_append hne, hsame]

/-- What is at the path of a configuration, and a directory. -/
def themedAt (path directory : Text) : Snapshot where
  answers := [
    (directory, .opened .directory ('/' :: directory)),
    (path, .opened (.file (Utf8.encode themedConfig)) ('/' :: path))]

theorem searchPaths_beside_file_nested :
    (load (themedAt "proj/stylepath.json".toList "proj/src".toList).toStore "proj/src".toList
        Json.parse).1
        = some ⟨"proj/stylepath.json".toList, ["proj/lib".toList, "/shared".toList]⟩ ∧
      ¬ schemeMark <:+: "proj/stylepath.json".toList ∧
      isRooted "themes/../lib".toList = false ∧ ¬ schemeMark <:+: "themes/../lib".toList ∧
      "proj/lib".toList = searchRoot ("proj".toList ++ '/' :: "themes/../lib".toList) := by
  have hload : (load (themedAt "proj/stylepath.json".toList "proj/src".toList).toStore
      "proj/src".toList Json.parse).1
        = some ⟨"proj/stylepath.json".toList, ["proj/lib".toList, "/shared".toList]⟩ := by
    decide +kernel
  have hscheme : ¬ schemeMark <:+: "proj/stylepath.json".toList := by decide
  have hentry : ¬ schemeMark <:+: "themes/../lib".toList := by decide
  refine ⟨hload, hscheme, rfl, hentry, ?_⟩
  obtain ⟨directory, entries, hdirectory, hlists, hroots⟩ :=
    searchPaths_beside_file_iff hload hscheme
  obtain rfl : "proj".toList = directory := Option.some.inj hdirectory
  cases hlists with
  | absent hnone => cases hload.symm.trans hnone
  | present hload' _ hread htext hvalue =>
    obtain rfl := Option.some.inj (hload.symm.trans hload')
    obtain rfl : Utf8.encode themedConfig = _ := Except.ok.inj hread
    obtain rfl := Option.some.inj ((Utf8.decode?_encode themedConfig).symm.trans htext)
    have hlisted : (Json.parse themedConfig).map listed
        = .ok ["themes/../lib".toList, "/shared/".toList] := by
      decide +kernel
    obtain rfl := Except.ok.inj (hlisted.symm.trans hvalue)
    exact ((List.forall₂_cons.1 hroots).1 rfl hentry).1.2 (by decide)

/-- A configuration with nothing in front of its name sends a relative search path to the root. -/
theorem searchPaths_beside_bare_file :
    (load (themedAt fileName "styles".toList).toStore "styles".toList Json.parse).1
        = some ⟨fileName, ["/lib".toList, "/shared".toList]⟩ ∧
      Path.parent? fileName = some [] ∧ ¬ schemeMark <:+: fileName ∧
      (Json.parse themedConfig).map listed = .ok ["themes/../lib".toList, "/shared/".toList] ∧
      isRooted "themes/../lib".toList = false ∧ ¬ schemeMark <:+: "themes/../lib".toList ∧
      searchRoot (givenRoot [] ++ '/' :: "themes/../lib".toList) = "lib".toList ∧
      isRooted "/lib".toList ≠ isRooted fileName := by
  decide +kernel

end Config

end SheetImports
