import SheetImports.Proofs.ConfigRoots

/-!
# The way up

A path from the root that is not the root itself is a name, the directory in front of it and slashes
between them and behind (`Above`). If no segment is a `.`, that directory is the parent
(`parent?_eq_some_iff`), and the walk from a path to its parent, to the parent of that and so on
passes the directories above it one after the other and ends at the root (`wayUp_iff`).
-/

namespace SheetImports

open Uri

namespace Path

/-- The root, in one of the ways to write it. -/
def IsRoot (path : Text) : Prop := ∃ i, path = List.replicate (i + 1) '/'

/-- The path is a name in the directory. Any number of slashes may stand behind the name, and more
than one in front of it. -/
def Above (directory path : Text) : Prop :=
  ∃ front name i k,
    path = front ++ List.replicate (i + 1) '/' ++ name ++ List.replicate k '/' ∧
      front.getLast? ≠ some '/' ∧ name ≠ [] ∧ '/' ∉ name ∧
      directory = if front = [] then ['/'] else front

/-- A path, a directory above it, and so on up to the root. -/
inductive WayUp : Text → List Text → Prop
  | root {path : Text} : IsRoot path → WayUp path [path]
  | up {directory path : Text} {way : List Text} :
      Above directory path → WayUp directory way → WayUp path (path :: way)

/-- A path from the root without a segment `.`. -/
structure Plain (path : Text) : Prop where
  rooted : isRooted path = true
  noDot : ['.'] ∉ path.splitOn '/'

/-! ## Slashes and segments -/

theorem splitOn_replicate_append (i : Nat) (text : Text) :
    (List.replicate i '/' ++ text).splitOn '/' = List.replicate i [] ++ text.splitOn '/' := by
  induction i with
  | zero => rfl
  | succ i ih =>
    rw [List.replicate_succ, List.replicate_succ, List.cons_append, List.cons_append, ← ih]
    exact splitOn_join [] _

theorem splitOn_append_replicate (text : Text) (k : Nat) :
    (text ++ List.replicate k '/').splitOn '/' = text.splitOn '/' ++ List.replicate k [] := by
  induction k with
  | zero => simp
  | succ k ih =>
    rw [List.replicate_succ', ← List.append_assoc, splitOn_join, ih, List.replicate_succ',
      ← List.append_assoc, List.splitOn_nil]

/-- A text is some slashes behind one that does not end in a slash. -/
theorem exists_append_replicate (text : Text) :
    ∃ front k, text = front ++ List.replicate k '/' ∧ front.getLast? ≠ some '/' := by
  induction text using List.reverseRecOn with
  | nil => exact ⟨[], 0, rfl, by simp⟩
  | append_singleton text c ih =>
    by_cases hc : c = '/'
    · obtain ⟨front, k, rfl, hlast⟩ := ih
      exact ⟨front, k + 1, by rw [hc, List.replicate_succ', List.append_assoc], hlast⟩
    · exact ⟨text ++ [c], 0, by simp, by simpa using hc⟩

/-- Slashes in a row in front of the last name are empty segments. -/
theorem splitOn_name (front : Text) {name : Text} (hname : '/' ∉ name) (i : Nat) :
    (front ++ List.replicate (i + 1) '/' ++ name).splitOn '/'
      = front.splitOn '/' ++ List.replicate i [] ++ [name] := by
  rw [List.replicate_succ, List.append_assoc, List.cons_append, splitOn_join,
    splitOn_replicate_append, Text.splitOn_of_notMem hname, ← List.append_assoc]

theorem dropWhile_reverse_replicate (segments : List Text) (k : Nat) :
    (segments ++ List.replicate k []).reverse.dropWhile isIdle
      = segments.reverse.dropWhile isIdle := by
  rw [List.reverse_append, List.reverse_replicate, List.dropWhile_append_of_pos]
  intro segment hsegment
  rw [List.eq_of_mem_replicate hsegment]
  rfl

theorem dropName?_append_replicate (segments : List Text) (k : Nat) :
    dropName? (segments ++ List.replicate k []) = dropName? segments := by
  rw [dropName?, dropWhile_reverse_replicate, dropName?]

theorem dropIdleEnd_append_replicate (segments : List Text) (k : Nat) :
    dropIdleEnd (segments ++ List.replicate k []) = dropIdleEnd segments := by
  rw [dropIdleEnd, dropWhile_reverse_replicate, dropIdleEnd]

theorem dropIdleEnd_concat {name : Text} (hname : isIdle name = false) (segments : List Text) :
    dropIdleEnd (segments ++ [name]) = segments ++ [name] := by
  simp [dropIdleEnd, hname]

/-- A text with a slash is split at its last one. -/
theorem exists_behind_last_slash {text : Text} (h : '/' ∈ text) :
    ∃ before name, text = before ++ '/' :: name ∧ '/' ∉ name := by
  obtain ⟨behind, others, hreverse, hbehind⟩ := List.eq_append_cons_of_mem (List.mem_reverse.2 h)
  refine ⟨others.reverse, behind.reverse, ?_, by simpa using hbehind⟩
  rw [← List.reverse_reverse text, hreverse]
  simp

theorem ne_nil_of_getLast?_ne {before name : Text}
    (h : (before ++ '/' :: name).getLast? ≠ some '/') : name ≠ [] := by
  rintro rfl
  exact h (by simp)

/-- The last segment of a text that does not end in a slash is not empty. -/
theorem exists_last_segment {text : Text} (hne : text ≠ []) (hlast : text.getLast? ≠ some '/') :
    ∃ segments name, text.splitOn '/' = segments ++ [name] ∧ name ≠ [] := by
  by_cases hslash : '/' ∈ text
  · obtain ⟨before, name, rfl, hname⟩ := exists_behind_last_slash hslash
    refine ⟨before.splitOn '/', name, ?_, ne_nil_of_getLast?_ne hlast⟩
    rw [splitOn_join, Text.splitOn_of_notMem hname]
  · exact ⟨[], text, Text.splitOn_of_notMem hslash, hne⟩

/-! ## The parent of a path from the root -/

/-- A path from the root is the root, or has a directory above it. -/
theorem isRoot_or_above {path : Text} (h : isRooted path = true) :
    IsRoot path ∨ ∃ directory, Above directory path := by
  obtain ⟨text, k, rfl, hlast⟩ := exists_append_replicate path
  by_cases hnil : text = []
  · subst hnil
    cases k with
    | zero => cases h
    | succ k => exact Or.inl ⟨k, rfl⟩
  · rw [isRooted_append hnil] at h
    have hslash : '/' ∈ text := List.mem_of_mem_head? (of_decide_eq_true h)
    obtain ⟨before, name, rfl, hname⟩ := exists_behind_last_slash hslash
    obtain ⟨front, i, rfl, hfront⟩ := exists_append_replicate before
    refine Or.inr ⟨_, front, name, i, k, ?_, hfront, ne_nil_of_getLast?_ne hlast, hname, rfl⟩
    rw [List.replicate_succ']
    simp

theorem parent?_of_isRoot {path : Text} (h : IsRoot path) : parent? path = none := by
  obtain ⟨i, rfl⟩ := h
  have hsplit : (List.replicate (i + 1) '/').splitOn '/' = [] :: List.replicate (i + 1) [] := by
    rw [← List.nil_append (List.replicate (i + 1) '/'), splitOn_append_replicate]
    rfl
  have hnone : dropName? (List.replicate (i + 1) []) = none := dropName?_append_replicate [] (i + 1)
  unfold parent?
  rw [hsplit]
  simp [hnone]

theorem isIdle_eq_false {path : Text} (hpath : Plain path) {segment : Text}
    (hmem : segment ∈ path.splitOn '/') (hne : segment ≠ []) : isIdle segment = false := by
  have hdot : segment ≠ ['.'] := fun h => hpath.noDot (h ▸ hmem)
  simp [isIdle, hne, hdot]

/-- The parent of a path from the root is the root and the segments in front of the name. -/
theorem parent?_of_segments {path name : Text} (segments : List Text) {i k : Nat}
    (hpath : path.splitOn '/'
      = [] :: (segments ++ List.replicate i [] ++ [name] ++ List.replicate k []))
    (hname : isIdle name = false) :
    parent? path = some ('/' :: ['/'].intercalate (dropIdleEnd segments)) := by
  unfold parent?
  rw [hpath]
  simp only [List.nil_eq, List.cons_ne_self, if_false, if_true]
  rw [dropName?_append_replicate, dropName?_concat hname, dropIdleEnd_append_replicate]
  rfl

/-- The directory of a name in a path from the root is the parent. -/
theorem parent?_of_above {directory path : Text} (hpath : Plain path) (h : Above directory path) :
    parent? path = some directory := by
  obtain ⟨front, name, i, k, hfront, hlast, hne, hname, rfl⟩ := h
  have hsplit := splitOn_append_replicate (front ++ List.replicate (i + 1) '/' ++ name) k
  rw [← hfront, splitOn_name front hname] at hsplit
  have hidle : isIdle name = false := isIdle_eq_false hpath (by simp [hsplit]) hne
  cases front with
  | nil => exact parent?_of_segments [] hsplit hidle
  | cons c rest =>
    obtain rfl : c = '/' := by
      have hrooted := hpath.rooted
      rw [hfront] at hrooted
      simpa [isRooted] using hrooted
    have hrest : rest ≠ [] := by
      rintro rfl
      exact hlast rfl
    have hrestLast : rest.getLast? ≠ some '/' := by
      rwa [List.getLast?_cons_of_ne_nil hrest] at hlast
    have hslash : ('/' :: rest).splitOn '/' = [] :: rest.splitOn '/' := splitOn_join [] rest
    rw [hslash] at hsplit
    obtain ⟨segments, last, hsegments, hlastName⟩ := exists_last_segment hrest hrestLast
    have hkeep : isIdle last = false :=
      isIdle_eq_false hpath (by rw [hsplit, hsegments]; simp) hlastName
    rw [parent?_of_segments _ hsplit hidle, hsegments, dropIdleEnd_concat hkeep, ← hsegments,
      List.intercalate_splitOn]
    rfl

/-- A path from the root that is plain has a plain directory above it. -/
theorem Above.plain {directory path : Text} (h : Above directory path) (hpath : Plain path) :
    Plain directory := by
  obtain ⟨front, name, i, k, rfl, hlast, hne, hname, rfl⟩ := h
  split
  next => exact ⟨rfl, by decide⟩
  next hfront =>
    refine ⟨?_, fun hdot => hpath.noDot ?_⟩
    · have hrooted := hpath.rooted
      rwa [List.append_assoc, List.append_assoc, isRooted_append hfront] at hrooted
    · rw [splitOn_append_replicate, splitOn_name front hname]
      simp [hdot]

/-- The parent of a plain path is the directory above it, and nothing else. -/
theorem parent?_eq_some_iff {directory path : Text} (hpath : Plain path) :
    parent? path = some directory ↔ Above directory path := by
  refine ⟨fun h => ?_, parent?_of_above hpath⟩
  rcases isRoot_or_above hpath.rooted with hroot | ⟨other, habove⟩
  · rw [parent?_of_isRoot hroot] at h
    cases h
  · rw [parent?_of_above hpath habove] at h
    exact Option.some.inj h ▸ habove

theorem parent?_eq_none_iff {path : Text} (hpath : Plain path) :
    parent? path = none ↔ IsRoot path := by
  refine ⟨fun h => ?_, parent?_of_isRoot⟩
  rcases isRoot_or_above hpath.rooted with hroot | ⟨other, habove⟩
  · exact hroot
  · rw [parent?_of_above hpath habove] at h
    cases h

/-! ## The way -/

theorem selfAndParents_of_none {path : Text} (h : parent? path = none) :
    selfAndParents path = [path] := by
  rw [selfAndParents]
  split
  next => rfl
  next parent hparent =>
    rw [h] at hparent
    cases hparent

theorem selfAndParents_of_some {path parent : Text} (h : parent? path = some parent) :
    selfAndParents path = path :: selfAndParents parent := by
  rw [selfAndParents]
  split
  next hnone =>
    rw [h] at hnone
    cases hnone
  next other hother =>
    rw [h] at hother
    rw [Option.some.inj hother]

theorem wayUp_selfAndParents {path : Text} (hpath : Plain path) :
    WayUp path (selfAndParents path) := by
  cases hparent : parent? path with
  | none =>
    rw [selfAndParents_of_none hparent]
    exact .root ((parent?_eq_none_iff hpath).1 hparent)
  | some directory =>
    have habove := (parent?_eq_some_iff hpath).1 hparent
    have := length_parent?_lt hparent
    rw [selfAndParents_of_some hparent]
    exact .up habove (wayUp_selfAndParents (habove.plain hpath))
termination_by path.length

/-- The way up from a plain path is the path itself and its parents. -/
theorem wayUp_iff {path : Text} {way : List Text} (hpath : Plain path) :
    WayUp path way ↔ way = selfAndParents path := by
  refine ⟨fun h => ?_, fun h => h ▸ wayUp_selfAndParents hpath⟩
  induction h with
  | root hroot => rw [selfAndParents_of_none (parent?_of_isRoot hroot)]
  | up habove _ ih =>
    rw [selfAndParents_of_some (parent?_of_above hpath habove), ih (habove.plain hpath)]

theorem WayUp.plain {path : Text} {way : List Text} (h : WayUp path way) (hpath : Plain path) :
    ∀ directory ∈ way, Plain directory := by
  induction h with
  | root => simpa using hpath
  | up habove _ ih =>
    exact List.forall_mem_cons.2 ⟨hpath, ih (habove.plain hpath)⟩

/-! ## A file in a directory -/

theorem Plain.ne_nil {path : Text} (hpath : Plain path) : path ≠ [] := by
  rintro rfl
  cases hpath.rooted

theorem join_append_replicate {front : Text} (hlast : front.getLast? ≠ some '/') (k : Nat)
    (hne : front ++ List.replicate k '/' ≠ []) (name : Text) :
    ∃ i, join (front ++ List.replicate k '/') name
      = front ++ List.replicate (i + 1) '/' ++ name := by
  cases k with
  | zero =>
    rw [List.replicate_zero, List.append_nil] at hne ⊢
    exact ⟨0, by simp [join, hne, hlast]⟩
  | succ k => exact ⟨k, by rw [join, if_pos (Or.inr (by simp [List.replicate_succ']))]⟩

theorem Plain.join {directory name : Text} (hdirectory : Plain directory) (hdot : name ≠ ['.'])
    (hname : '/' ∉ name) : Plain (join directory name) := by
  constructor
  · have hrooted := hdirectory.rooted
    unfold Path.join
    split
    · rwa [isRooted_append hdirectory.ne_nil]
    · rwa [List.append_assoc, isRooted_append hdirectory.ne_nil]
  · obtain ⟨front, k, rfl, hlast⟩ := exists_append_replicate directory
    obtain ⟨i, hjoin⟩ := join_append_replicate hlast k hdirectory.ne_nil name
    intro hmem
    rw [hjoin, splitOn_name front hname, List.mem_append, List.mem_append,
      List.mem_singleton] at hmem
    rcases hmem with (hmem | hmem) | hmem
    · refine hdirectory.noDot ?_
      rw [splitOn_append_replicate]
      exact List.mem_append_left _ hmem
    · cases List.eq_of_mem_replicate hmem
    · exact hdot hmem.symm

/-- The parent of a file in a directory is the directory, up to slashes at the end. -/
theorem exists_parent?_join {directory name : Text} (hdirectory : Plain directory) (hne : name ≠ [])
    (hdot : name ≠ ['.']) (hname : '/' ∉ name) :
    ∃ parent, parent? (join directory name) = some parent ∧
      parent.trimEnd (· == '/') = directory.trimEnd (· == '/') := by
  have hplain := hdirectory.join hdot hname
  obtain ⟨front, k, rfl, hlast⟩ := exists_append_replicate directory
  obtain ⟨i, hjoin⟩ := join_append_replicate hlast k hdirectory.ne_nil name
  have habove :
      Above (if front = [] then ['/'] else front) (join (front ++ List.replicate k '/') name) :=
    ⟨front, name, i, 0, by simp [hjoin], hlast, hne, hname, rfl⟩
  have hself : front.trimEnd (· == '/') = front :=
    Text.trimEnd_eq_self fun c hc => beq_false_of_ne fun hslash => hlast (hslash ▸ hc)
  refine ⟨_, parent?_of_above hplain habove, ?_⟩
  rw [Text.trimEnd_append_of_drop front fun c hc => by simp [List.eq_of_mem_replicate hc], hself]
  split
  next hnil =>
    rw [hnil]
    rfl
  next => exact hself

end Path

end SheetImports
