import Mathlib.Data.List.Dedup
import SheetImports.Proofs.Canonical
import SheetImports.Strategy.Bundle

/-!
# What a bundle holds

A bundle is filled by putting stylesheets in, one after the other, each under some spelling of its
uri. What it holds under a uri is what was put in last under a spelling of that uri
(`get?_ofList`), and it holds nothing else. Candidates are tried at folded uris, and the uris of a
bundle are folded, so no spelling is missed: a lookup finds what was put in last under the first
candidate under which anything was (`ofList_holds_last`).
-/

namespace SheetImports

namespace Bundle

/-! ## Putting in one stylesheet after the other -/

/-- Among stylesheets that are put in in this order, these octets come last under a spelling of the
uri. -/
def LastUnder (entries : List (Text × Bytes)) (uri : Text) (bytes : Bytes) : Prop :=
  ∃ before spelling after, entries = before ++ (spelling, bytes) :: after ∧
    Uri.folded spelling = uri ∧ ∀ entry ∈ after, Uri.folded entry.1 ≠ uri

theorem ofList_concat (roots : List Text) (entries : List (Text × Bytes)) (uri : Text)
    (bytes : Bytes) :
    ofList roots (entries ++ [(uri, bytes)]) = (ofList roots entries).insert uri bytes :=
  List.foldl_concat _ _ _ _

theorem roots_ofList (roots : List Text) (entries : List (Text × Bytes)) :
    (ofList roots entries).roots = roots := by
  induction entries using List.reverseRecOn with
  | nil => rfl
  | append_singleton entries entry ih =>
    rw [ofList_concat]
    exact ih

/-- What is put in last is the last under its folded uri, and it alone. -/
theorem lastUnder_concat_same (entries : List (Text × Bytes)) (spelling : Text)
    (last bytes : Bytes) :
    LastUnder (entries ++ [(spelling, last)]) (Uri.folded spelling) bytes ↔ last = bytes := by
  constructor
  · rintro ⟨before, other, after, hentries, hfolded, hafter⟩
    rcases List.eq_nil_or_concat' after with rfl | ⟨after, entry, rfl⟩
    · exact (Prod.mk.inj (List.append_singleton_inj.1 hentries).2).2
    · -- the stylesheet that is put in last would be another one
      rw [← List.cons_append, ← List.append_assoc] at hentries
      obtain ⟨-, rfl⟩ := List.append_singleton_inj.1 hentries
      exact absurd rfl (hafter _ (List.mem_append_right _ List.mem_cons_self))
  · rintro rfl
    exact ⟨entries, spelling, [], rfl, rfl, fun entry hentry => absurd hentry List.not_mem_nil⟩

/-- Under other uris nothing changes. -/
theorem lastUnder_concat_other {spelling uri : Text} (h : Uri.folded spelling ≠ uri)
    (entries : List (Text × Bytes)) (last bytes : Bytes) :
    LastUnder (entries ++ [(spelling, last)]) uri bytes ↔ LastUnder entries uri bytes := by
  constructor
  · rintro ⟨before, other, after, hentries, hfolded, hafter⟩
    rcases List.eq_nil_or_concat' after with rfl | ⟨after, entry, rfl⟩
    · obtain ⟨-, heq⟩ := List.append_singleton_inj.1 hentries
      exact absurd ((congrArg Uri.folded (Prod.mk.inj heq).1).trans hfolded) h
    · rw [← List.cons_append, ← List.append_assoc] at hentries
      obtain ⟨rfl, -⟩ := List.append_singleton_inj.1 hentries
      exact ⟨before, other, after, rfl, hfolded,
        fun entry hentry => hafter entry (List.mem_append_left _ hentry)⟩
  · rintro ⟨before, other, after, rfl, hfolded, hafter⟩
    refine ⟨before, other, after ++ [(spelling, last)], by simp, hfolded, fun entry hentry => ?_⟩
    rcases List.mem_append.1 hentry with hentry | hentry
    · exact hafter entry hentry
    · rw [List.mem_singleton.1 hentry]
      exact h

/-- A bundle holds what was put in last. -/
theorem get?_ofList (roots : List Text) (entries : List (Text × Bytes)) (uri : Text)
    (bytes : Bytes) :
    (ofList roots entries).get? uri = some bytes ↔ LastUnder entries uri bytes := by
  induction entries using List.reverseRecOn with
  | nil =>
    refine ⟨fun h => absurd h (Option.some_ne_none bytes).symm, ?_⟩
    rintro ⟨before, spelling, after, hnil, -⟩
    cases (List.append_eq_nil_iff.1 hnil.symm).2
  | append_singleton entries entry ih =>
    obtain ⟨spelling, last⟩ := entry
    rw [ofList_concat, get?_insert]
    by_cases huri : uri = Uri.folded spelling
    · rw [if_pos huri, huri, lastUnder_concat_same, Option.some.injEq]
    · rw [if_neg huri, lastUnder_concat_other (Ne.symm huri), ih]

theorem get?_ofList_eq_none (roots : List Text) (entries : List (Text × Bytes)) (uri : Text) :
    (ofList roots entries).get? uri = none ↔ ∀ entry ∈ entries, Uri.folded entry.1 ≠ uri := by
  induction entries using List.reverseRecOn with
  | nil => exact ⟨fun _ entry hentry => absurd hentry List.not_mem_nil, fun _ => rfl⟩
  | append_singleton entries entry ih =>
    obtain ⟨spelling, last⟩ := entry
    rw [ofList_concat, get?_insert]
    by_cases huri : uri = Uri.folded spelling
    · rw [if_pos huri]
      refine ⟨fun h => absurd h (Option.some_ne_none last), fun h => ?_⟩
      exact absurd huri.symm (h _ (List.mem_append_right _ List.mem_cons_self))
    · rw [if_neg huri, ih, List.forall_mem_append, List.forall_mem_singleton]
      exact ⟨fun h => ⟨h, Ne.symm huri⟩, And.left⟩

/-! ## The uris of a bundle -/

/-- The uris under which a bundle holds a stylesheet. -/
def uris (bundle : Bundle) : List Text := bundle.entries.map (·.1)

theorem uris_insert (bundle : Bundle) (uri : Text) (bytes : Bytes) :
    (bundle.insert uri bytes).uris
      = Uri.folded uri :: bundle.uris.filter (· ≠ Uri.folded uri) := by
  rw [uris, insert, List.map_cons, uris, List.filter_map]
  rfl

theorem mem_uris_ofList {roots : List Text} {entries : List (Text × Bytes)} {uri : Text} :
    uri ∈ (ofList roots entries).uris ↔ uri ∈ entries.map fun entry => Uri.folded entry.1 := by
  induction entries using List.reverseRecOn with
  | nil => rfl
  | append_singleton entries entry ih =>
    rw [ofList_concat, uris_insert, List.mem_cons, List.mem_filter, ih, List.map_append,
      List.mem_append, List.map_singleton, List.mem_singleton, decide_eq_true_eq]
    by_cases huri : uri = Uri.folded entry.1
    · exact ⟨fun _ => Or.inr huri, fun _ => Or.inl huri⟩
    · exact ⟨fun h => Or.inl (h.resolve_left huri).1, fun h => Or.inr ⟨h.resolve_right huri, huri⟩⟩

/-- Two spellings of one place share one entry. -/
theorem nodup_uris_ofList (roots : List Text) (entries : List (Text × Bytes)) :
    (ofList roots entries).uris.Nodup := by
  induction entries using List.reverseRecOn with
  | nil => exact List.nodup_nil
  | append_singleton entries entry ih =>
    rw [ofList_concat, uris_insert, List.nodup_cons]
    exact ⟨fun hmem => by simp at hmem, ih.filter _⟩

/-- There are as many stylesheets as distinct uris. -/
theorem size_ofList (roots : List Text) (entries : List (Text × Bytes)) :
    (ofList roots entries).size = (entries.map fun entry => Uri.folded entry.1).dedup.length := by
  have hperm : (ofList roots entries).uris.Perm
      (entries.map fun entry => Uri.folded entry.1).dedup :=
    (List.perm_ext_iff_of_nodup (nodup_uris_ofList roots entries) (List.nodup_dedup _)).2
      fun uri => mem_uris_ofList.trans List.mem_dedup.symm
  rw [← hperm.length_eq, uris, List.length_map]
  rfl

theorem isEmpty_ofList (roots : List Text) (entries : List (Text × Bytes)) :
    (ofList roots entries).isEmpty = true ↔ entries = [] := by
  rcases List.eq_nil_or_concat' entries with rfl | ⟨entries, entry, rfl⟩
  · exact ⟨fun _ => rfl, fun _ => rfl⟩
  · rw [ofList_concat]
    exact ⟨fun h => absurd h Bool.false_ne_true, fun h => absurd h (by simp)⟩

/-! ## Looking up -/

theorem openCandidate_bundle (bundle : Bundle) (store : Store) (candidate : Text) :
    (Strategy.bundle bundle).openCandidate store candidate
      = .ok ((bundle.get? (Candidate.complete candidate)).map
        fun bytes => ⟨Candidate.complete candidate, .ofBytes bytes⟩) := by
  have hopen : (Strategy.bundle bundle).openUri store (Candidate.complete candidate)
      = .ok ((bundle.get? (Candidate.complete candidate)).map .ofBytes) := rfl
  rw [Resolver.openCandidate, hopen]
  exact congrArg Except.ok (Option.map_map ..)

/-- A lookup in a bundle finds the first candidate under which there is something. -/
theorem outcome_probe_bundle (bundle : Bundle) (store : Store) (identifier : Text)
    (candidates : List Text) :
    ((Strategy.bundle bundle).probe store identifier candidates).outcome
      = .ok ((candidates.map Candidate.complete).findSome? fun uri =>
        (bundle.get? uri).map fun bytes => ⟨uri, .ofBytes bytes⟩) := by
  induction candidates with
  | nil => rfl
  | cons candidate candidates ih =>
    rw [Resolver.probe, openCandidate_bundle, List.map_cons, List.findSome?_cons]
    cases hget : bundle.get? (Candidate.complete candidate) with
    | none => exact ih
    | some bytes => rfl

/-- The uris that a bundle tries for an import. -/
def tried (roots : List Text) (parent : Parent) (identifier : Text) : List Text :=
  (Candidate.all parent roots identifier).map Candidate.complete

theorem candidates_ofList (roots : List Text) (entries : List (Text × Bytes)) (parent : Parent)
    (identifier : Text) :
    (Strategy.bundle (ofList roots entries)).candidates parent identifier
      = Candidate.all parent roots identifier :=
  congrArg (Candidate.all parent · identifier) (roots_ofList roots entries)

/-- The first candidate under which there is an entry is found. -/
theorem outcome_resolve_ofList (roots : List Text) (entries : List (Text × Bytes)) (store : Store)
    (parent : Parent) (identifier : Text) :
    ((Strategy.bundle (ofList roots entries)).resolve store parent identifier).outcome
      = .ok ((tried roots parent identifier).findSome? fun uri =>
        ((ofList roots entries).get? uri).map fun bytes => ⟨uri, .ofBytes bytes⟩) := by
  rw [Resolver.resolve, outcome_probe_bundle, candidates_ofList]
  rfl

/-- A bundle into which stylesheets were put in some order holds folded uris only, as many as there
are distinct ones among those of the stylesheets, and it is empty only if nothing was put in. Under
the uri of an identifier the stylesheet is opened that was put in last under a spelling of that uri,
and nothing if there is none. Every uri that an import is tried at is folded. The first of them
under a spelling of which anything was put in is found, with what was put in last, and nothing is
found if there is none. -/
theorem ofList_holds_last (roots : List Text) (entries : List (Text × Bytes)) :
    (∀ uri ∈ (ofList roots entries).uris, Uri.folded uri = uri) ∧
      (ofList roots entries).size
        = (entries.map fun entry => Uri.folded entry.1).dedup.length ∧
      ((ofList roots entries).isEmpty = true ↔ entries = []) ∧
      (∀ (store : Store) (identifier : Text),
        (∀ source : Source,
          (Strategy.bundle (ofList roots entries)).openCandidate store identifier
              = .ok (some source) ↔
            ∃ bytes, LastUnder entries (Candidate.complete identifier) bytes ∧
              source = ⟨Candidate.complete identifier, .ofBytes bytes⟩) ∧
        ((Strategy.bundle (ofList roots entries)).openCandidate store identifier = .ok none ↔
          ∀ entry ∈ entries, Uri.folded entry.1 ≠ Candidate.complete identifier)) ∧
      (∀ (parent : Parent) (identifier : Text),
        Resolver.uris [(Strategy.bundle (ofList roots entries)).toResolver] parent identifier
            = tried roots parent identifier ∧
          ∀ uri ∈ tried roots parent identifier, Uri.folded uri = uri) ∧
      ∀ (store : Store) (parent : Parent) (identifier : Text),
        (∀ source : Source,
          ((Strategy.bundle (ofList roots entries)).resolve store parent identifier).outcome
              = .ok (some source) ↔
            ∃ before uri after bytes, tried roots parent identifier = before ++ uri :: after ∧
              (∀ earlier ∈ before, ∀ entry ∈ entries, Uri.folded entry.1 ≠ earlier) ∧
              LastUnder entries uri bytes ∧ source = ⟨uri, .ofBytes bytes⟩) ∧
        (((Strategy.bundle (ofList roots entries)).resolve store parent identifier).outcome
            = .ok none ↔
          ∀ uri ∈ tried roots parent identifier, ∀ entry ∈ entries, Uri.folded entry.1 ≠ uri) := by
  refine ⟨fun uri huri => ?_, size_ofList roots entries, isEmpty_ofList roots entries,
    fun store identifier => ⟨fun source => ?_, ?_⟩,
    fun parent identifier => ⟨?_, fun uri => Candidate.folded_of_mem_uris⟩,
    fun store parent identifier => ⟨fun source => ?_, ?_⟩⟩
  · obtain ⟨entry, -, rfl⟩ := List.mem_map.1 (mem_uris_ofList.1 huri)
    exact Uri.folded_folded entry.1
  · rw [openCandidate_bundle, Except.ok.injEq, Option.map_eq_some_iff]
    simp only [get?_ofList, eq_comm (a := source)]
  · rw [openCandidate_bundle, Except.ok.injEq, Option.map_eq_none_iff, get?_ofList_eq_none]
  · exact (List.flatMap_singleton _ _).trans
      (congrArg (List.map Candidate.complete) (candidates_ofList roots entries parent identifier))
  · rw [outcome_resolve_ofList, Except.ok.injEq, List.findSome?_eq_some_iff]
    constructor
    · rintro ⟨before, uri, after, htried, hfound, hbefore⟩
      obtain ⟨bytes, hget, rfl⟩ := Option.map_eq_some_iff.1 hfound
      refine ⟨before, uri, after, bytes, htried, fun earlier hearlier => ?_,
        (get?_ofList ..).1 hget, rfl⟩
      exact (get?_ofList_eq_none ..).1 (Option.map_eq_none_iff.1 (hbefore earlier hearlier))
    · rintro ⟨before, uri, after, bytes, htried, hbefore, hlast, rfl⟩
      refine ⟨before, uri, after, htried, ?_, fun earlier hearlier => ?_⟩
      · rw [(get?_ofList ..).2 hlast]
        rfl
      · exact Option.map_eq_none_iff.2 ((get?_ofList_eq_none ..).2 (hbefore earlier hearlier))
  · rw [outcome_resolve_ofList, Except.ok.injEq, List.findSome?_eq_none_iff]
    simp only [Option.map_eq_none_iff, get?_ofList_eq_none]

end Bundle

end SheetImports
