import SheetImports.Project
import SheetImports.Proofs.Folding
import SheetImports.Store.Snapshot
import SheetImports.Text.Utf8.Lemmas

/-!
# Search roots, as they are written

A search root is folded where it is read, and folded again with each identifier that is looked up
under it. That makes no difference (`under_searchRoot`): a candidate is what folding makes of the
root as it is written, a slash and the identifier. So the candidates of a project are those of its
configuration's entries in the order of the file, and after them those of the include paths in the
order of the command line (`candidates_projectChain`).
-/

namespace SheetImports

open Uri

/-! ## Roots that are folded early -/

namespace Candidate

/-- An identifier as it stands behind a search root: without one extension and without slashes in
front. -/
def name (identifier : Text) : Text := (stem identifier).dropWhile (· == '/')

theorem head?_name (identifier : Text) : (name identifier).head? ≠ some '/' := by
  intro h
  have hslash := List.head?_dropWhile_not (· == '/') (stem identifier)
  rw [← name, h] at hslash
  cases hslash

theorem under_eq {root : Text} (hroot : root ≠ []) (identifier : Text) :
    under root (stem identifier)
      = folded (root.trimEnd (· == '/') ++ '/' :: name identifier) := by
  exact under_of_ne_nil hroot _

/-- Under a root without a scheme, root and name are folded as one path. -/
theorem under_of_no_scheme {root identifier : Text} (hroot : root ≠ [])
    (h : ¬ schemeMark <:+: root ++ '/' :: name identifier) :
    under root (stem identifier) = folded (root ++ '/' :: name identifier) := by
  rw [under_eq hroot, folded_trimEnd_join h]

end Candidate

theorem searchRoot_ne_nil (root : Text) : searchRoot root ≠ [] := by
  unfold searchRoot
  split
  · decide
  · assumption

/-- A search root stands on the same ground as what it was made from, and leaves the same stack. -/
theorem searchRoot_spec {root : Text} (h : ¬ schemeMark <:+: root) :
    isRooted (searchRoot root) = isRooted root ∧
      stack (groundOf root) ((searchRoot root).splitOn '/')
        = stack (groundOf root) (root.splitOn '/') ∧
      ¬ schemeMark <:+: searchRoot root := by
  have hnames : ∀ name ∈ (stack (groundOf root) (root.splitOn '/')).reverse,
      name ≠ [] ∧ '/' ∉ name :=
    fun name hname => isName_of_mem_stack (List.mem_reverse.1 hname)
  have hrooted := isRooted_written (isRooted root) hnames
  have hstack := stack_written (isRooted root) (settled_stack (groundOf root) _) hnames
  have hscheme := no_scheme_written (isRooted root) hnames
  rw [← folded_of_no_scheme h] at hrooted hstack hscheme
  unfold searchRoot
  split
  next hnil =>
    -- what folds to nothing is relative and leaves no stack, like `.`
    rw [hnil] at hrooted hstack
    rw [← hrooted, ← hstack]
    refine ⟨rfl, ?_, by decide⟩
    unfold groundOf
    split <;> rfl
  next => exact ⟨hrooted, hstack, hscheme⟩

/-- So it makes no difference whether the root was folded before. -/
theorem Candidate.under_searchRoot {root identifier : Text} (hroot : root ≠ [])
    (h : ¬ schemeMark <:+: root ++ '/' :: name identifier) :
    under (searchRoot root) (stem identifier) = folded (root ++ '/' :: name identifier) := by
  have hrootScheme : ¬ schemeMark <:+: root := fun hscheme =>
    h (hscheme.trans (List.prefix_append _ _).isInfix)
  have hnameScheme : ¬ schemeMark <:+: name identifier := fun hscheme =>
    h (hscheme.trans (List.IsSuffix.isInfix ⟨root ++ ['/'], by simp⟩))
  obtain ⟨hrooted, hstack, hscheme⟩ := searchRoot_spec hrootScheme
  have htrimmed :
      ¬ schemeMark <:+: (searchRoot root).trimEnd (· == '/') ++ '/' :: name identifier :=
    no_scheme_join (fun hpart => hscheme (hpart.trans (Text.trimEnd_prefix _ _).isInfix))
      hnameScheme (Text.getLast?_trimEnd rfl _) (head?_name identifier)
  have hground : groundOf (root ++ '/' :: name identifier) = groundOf root := by
    rw [groundOf, isRooted_append hroot, groundOf]
  rw [under_eq (searchRoot_ne_nil root)]
  refine (folded_join_congr h htrimmed ?_ ?_).symm
  · rw [isRooted_trimEnd_join, isRooted_append hroot, isRooted_append (searchRoot_ne_nil root),
      hrooted]
  · rw [stack_trimEnd, hground, hstack]

/-! ## Roots of a configuration -/

namespace Config

/-- The strings that a configuration lists as search paths. -/
def listed (value : Json) : List Text :=
  match value.member? searchPathsName with
  | some (.array entries) => entries.filterMap Json.text?
  | _ => []

/-- Where a search path of a configuration leads: a relative one starts at the directory of the
file. -/
def writtenRoot (directory entry : Text) : Text :=
  if isRooted entry then entry else directory ++ '/' :: entry

/-- What is reported of the search paths of a configuration that are no texts. -/
def ignored (path : Text) (value : Json) : List Event :=
  match value.member? searchPathsName with
  | none => []
  | some (.array entries) =>
    (entries.filter (·.text?.isNone)).map (.ignoredSearchPath path)
  | some other => [.ignoredSearchPaths path other]

theorem searchPathsOf_eq (path directory : Text) (value : Json) :
    searchPathsOf path directory value
      = ((listed value).map (rootOf directory), ignored path value) := by
  unfold searchPathsOf listed ignored
  cases hmember : value.member? searchPathsName with
  | none => rfl
  | some other =>
    cases other with
    | array entries =>
      have hreported : (entries.filterMap fun entry =>
          if entry.text?.isSome then none else some (Event.ignoredSearchPath path entry))
          = (entries.filter (·.text?.isNone)).map (.ignoredSearchPath path) := by
        rw [← List.filterMap_eq_map, List.filterMap_filter]
        refine List.filterMap_congr fun entry _ => ?_
        cases entry.text? <;> rfl
      exact Prod.ext (List.map_filterMap ..).symm hreported
    | _ => rfl

section Reader

variable {readJson : JsonReader}

/-- A run from `start` has a configuration in the directory that lists the entries, or it has none
and there are no entries. -/
inductive Lists (readJson : JsonReader) (store : Store) (start directory : Text) : List Text → Prop
  | absent (hload : (load store start readJson).1 = none) : Lists readJson store start directory []
  | present {config : Config} {bytes : Bytes} {text : Text} {entries : List Text}
      (hload : (load store start readJson).1 = some config)
      (hdirectory : Path.parent? config.path = some directory)
      (hread : store.read config.path = .ok bytes) (htext : Utf8.decode? bytes = some text)
      (hvalue : (readJson text).map listed = .ok entries) :
    Lists readJson store start directory entries

/-- A text is read if the file can be read and its octets are UTF-8. -/
theorem readUtf8_eq_ok_iff {store : Store} {path text : Text} :
    store.readUtf8 path = .ok text ↔
      ∃ bytes, store.read path = .ok bytes ∧ Utf8.decode? bytes = some text := by
  unfold Store.readUtf8
  cases store.read path with
  | error cause => simp
  | ok bytes => cases htext : Utf8.decode? bytes <;> simp [htext]

/-- A configuration was found at its path, and was read from the file there. -/
theorem read_of_load {store : Store} {start : Text} {config : Config}
    (h : (load store start readJson).1 = some config) :
    find? store start = some config.path ∧
      ∃ bytes text value directory, store.read config.path = .ok bytes ∧
        Utf8.decode? bytes = some text ∧ readJson text = .ok value ∧
        Path.parent? config.path = some directory ∧
        config.searchPaths = (listed value).map (rootOf directory) := by
  unfold load at h
  split at h
  next => cases h
  next path hpath =>
    split at h
    next => cases h
    next text htext =>
      split at h
      next => cases h
      next => cases h
      next value directory hvalue hdirectory =>
        rw [searchPathsOf_eq] at h
        obtain rfl := Option.some.inj h
        obtain ⟨bytes, hread, hdecode⟩ := readUtf8_eq_ok_iff.1 htext
        exact ⟨hpath, bytes, text, value, directory, hread, hdecode, hvalue, hdirectory, rfl⟩

/-- The roots of a project are those of its configuration, and behind them those that were given. -/
theorem Lists.projectRoots_eq {store : Store} {start directory : Text} {entries : List Text}
    (h : Lists readJson store start directory entries) (includePaths : List Text) :
    (projectRoots store (some start) includePaths readJson).1
      = entries.map (rootOf directory) ++ includePaths.map searchRoot := by
  unfold projectRoots
  rw [Option.map_some]
  cases hpair : load store start readJson with
  | mk found events =>
    cases h with
    | absent hload =>
      rw [hpair] at hload
      obtain rfl : found = none := hload
      rfl
    | @present config bytes text _ hload hdirectory hread htext hvalue =>
      obtain ⟨-, bytes', text', value, directory', hread', htext', hvalue', hdirectory', hpaths⟩ :=
        read_of_load hload
      obtain rfl := Except.ok.inj (hread.symm.trans hread')
      obtain rfl := Option.some.inj (htext.symm.trans htext')
      obtain rfl := Option.some.inj (hdirectory.symm.trans hdirectory')
      rw [hvalue'] at hvalue
      obtain rfl := Except.ok.inj hvalue
      rw [hpair] at hload
      obtain rfl : found = some config := hload
      rw [← hpaths]

end Reader

/-- A search path of a configuration is folded as it is written. -/
theorem under_rootOf {directory entry identifier : Text}
    (h : ¬ schemeMark <:+: writtenRoot directory entry ++ '/' :: Candidate.name identifier) :
    Candidate.under (rootOf directory entry) (Candidate.stem identifier)
      = folded (writtenRoot directory entry ++ '/' :: Candidate.name identifier) := by
  unfold rootOf
  unfold writtenRoot at h ⊢
  by_cases hrooted : isRooted entry = true
  · have hne : entry ≠ [] := by
      rintro rfl
      cases hrooted
    rw [if_pos hrooted] at h ⊢
    rw [if_pos (Or.inl hrooted), Candidate.under_searchRoot hne h]
  · rw [if_neg hrooted, List.append_assoc, List.cons_append] at h
    have hscheme : ¬ hasScheme entry = true := fun htrue =>
      h ((hasScheme_iff.1 htrue).trans
        ⟨directory ++ ['/'], '/' :: Candidate.name identifier, by simp⟩)
    have htrimmed := no_scheme_trimEnd h
    rw [if_neg hrooted, if_neg (not_or.2 ⟨hrooted, hscheme⟩), Path.toUri, List.append_assoc,
      List.singleton_append]
    rw [← List.cons_append, ← List.append_assoc] at htrimmed
    rw [Candidate.under_searchRoot (by simp) htrimmed, List.append_assoc, List.append_assoc,
      List.cons_append, folded_trimEnd_join h]

end Config

/-! ## The candidates of a project -/

/-- Where an include path leads: the empty one is the current directory. -/
def givenRoot (path : Text) : Text := if path = [] then ['.'] else path

theorem searchRoot_givenRoot (path : Text) : searchRoot (givenRoot path) = searchRoot path := by
  unfold givenRoot
  split
  next hnil =>
    rw [hnil]
    rfl
  next => rfl

/-- The search roots of a run as they are written: the search paths of its configuration, then the
include paths. -/
def writtenRoots (directory : Text) (entries includePaths : List Text) : List Text :=
  entries.map (Config.writtenRoot directory) ++ includePaths.map givenRoot

theorem ne_nil_of_mem_writtenRoots {directory root : Text} {entries includePaths : List Text}
    (h : root ∈ writtenRoots directory entries includePaths) : root ≠ [] := by
  rcases List.mem_append.1 h with h | h
  · obtain ⟨entry, -, rfl⟩ := List.mem_map.1 h
    unfold Config.writtenRoot
    split
    next hrooted =>
      rintro rfl
      cases hrooted
    next => simp
  · obtain ⟨path, -, rfl⟩ := List.mem_map.1 h
    unfold givenRoot
    split
    · decide
    · assumption

theorem candidates_filesystem (roots : List Text) (parent : Parent) (identifier : Text) :
    Chain.candidates [Strategy.filesystem roots] parent identifier
      = (Candidate.all parent roots identifier).map Candidate.complete :=
  List.flatMap_singleton _ _

/-- An import in a project has the default candidate, one for each search path of the configuration
in the order of the file, and one for each include path in the order of the command line. If no
scheme stands in any of these roots with a slash and the identifier behind it, the candidate is what
folding makes of that text, and it makes no difference to fold the root alone before. -/
theorem candidates_projectChain {readJson : JsonReader} {store : Store} {start directory : Text}
    {entries : List Text} (hlists : Config.Lists readJson store start directory entries)
    (includePaths : List Text) (parent : Parent) (identifier : Text) :
    ((projectChain store (some start) includePaths readJson).1.candidates parent identifier).length
        = 1 + entries.length + includePaths.length ∧
      ((∀ root ∈ writtenRoots directory entries includePaths,
          ¬ schemeMark <:+: root ++ '/' :: Candidate.name identifier) →
        (projectChain store (some start) includePaths readJson).1.candidates parent identifier
            = Candidate.complete (folded (if isRooted (Candidate.stem identifier)
                then Candidate.stem identifier else parent.directory ++ Candidate.stem identifier))
              :: (writtenRoots directory entries includePaths).map (fun root =>
                Candidate.complete (folded (root ++ '/' :: Candidate.name identifier))) ∧
          ∀ root ∈ writtenRoots directory entries includePaths,
            Candidate.under (searchRoot root) (Candidate.stem identifier)
              = Candidate.under root (Candidate.stem identifier)) := by
  have hcandidates :
      (projectChain store (some start) includePaths readJson).1.candidates parent identifier
      = (Candidate.all parent (entries.map (Config.rootOf directory) ++ includePaths.map searchRoot)
          identifier).map Candidate.complete := by
    rw [← hlists.projectRoots_eq]
    exact candidates_filesystem _ parent identifier
  rw [hcandidates]
  refine ⟨?_, fun hscheme => ⟨?_, fun root hroot => ?_⟩⟩
  · rw [List.length_map, Candidate.length_all, List.length_append, List.length_map, List.length_map]
    omega
  · have hentries : ∀ entry ∈ entries,
        Candidate.under (Config.rootOf directory entry) (Candidate.stem identifier)
          = folded (Config.writtenRoot directory entry ++ '/' :: Candidate.name identifier) :=
      fun entry hentry => Config.under_rootOf
        (hscheme _ (List.mem_append_left _ (List.mem_map_of_mem hentry)))
    have hpaths : ∀ path ∈ includePaths,
        Candidate.under (searchRoot path) (Candidate.stem identifier)
          = folded (givenRoot path ++ '/' :: Candidate.name identifier) := by
      intro path hpath
      have hmem : givenRoot path ∈ writtenRoots directory entries includePaths :=
        List.mem_append_right _ (List.mem_map_of_mem hpath)
      rw [← searchRoot_givenRoot, Candidate.under_searchRoot (ne_nil_of_mem_writtenRoots hmem)
        (hscheme _ hmem)]
    rw [Candidate.all, List.map_cons, Candidate.default, writtenRoots]
    simp only [List.map_append, List.map_map]
    refine congrArg _ (congrArg₂ _ (List.map_congr_left fun entry hentry => ?_)
      (List.map_congr_left fun path hpath => ?_))
    · exact congrArg Candidate.complete (hentries entry hentry)
    · exact congrArg Candidate.complete (hpaths path hpath)
  · have hne := ne_nil_of_mem_writtenRoots hroot
    rw [Candidate.under_searchRoot hne (hscheme root hroot),
      Candidate.under_of_no_scheme hne (hscheme root hroot)]

/-- A configuration that lists a relative path, what is no path, and a path from the root. -/
def themedConfig : Text := "\x7b\"searchPaths\": [\"themes/../lib\", 7, \"/shared/\"]\x7d".toList

/-- A directory of stylesheets, and that configuration in the directory above. -/
def themedProject : Snapshot where
  answers := [
    ("/proj/src".toList, .opened .directory "/proj/src".toList),
    ("/proj/stylepath.json".toList,
      .opened (.file (Utf8.encode themedConfig)) "/proj/stylepath.json".toList)]

theorem candidates_themedProject :
    Config.Lists Json.parse themedProject.toStore "/proj/src".toList "/proj".toList
        ["themes/../lib".toList, "/shared/".toList] ∧
      (projectChain themedProject.toStore (some "/proj/src".toList) [[], "../x/".toList]
          Json.parse).1.candidates ⟨some "/proj/src/a.scss".toList⟩ "mixins.scss".toList
        = ["/proj/src/mixins.scss".toList, "/proj/lib/mixins.scss".toList,
          "/shared/mixins.scss".toList, "mixins.scss".toList, "../x/mixins.scss".toList] := by
  have hlists : Config.Lists Json.parse themedProject.toStore "/proj/src".toList "/proj".toList
      ["themes/../lib".toList, "/shared/".toList] := by
    have hload : (Config.load themedProject.toStore "/proj/src".toList Json.parse).1 = some
        ⟨"/proj/stylepath.json".toList, ["/proj/lib".toList, "/shared".toList]⟩ := by
      decide +kernel
    refine .present hload rfl ?_ (Utf8.decode?_encode themedConfig) ?_
    · decide +kernel
    · decide +kernel
  refine ⟨hlists, ?_⟩
  rw [((candidates_projectChain hlists [[], "../x/".toList] _ _).2 ?_).1]
  · decide +kernel
  · decide +kernel

end SheetImports
