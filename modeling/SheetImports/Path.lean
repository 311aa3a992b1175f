import SheetImports.Text.Basic

/-!
# Paths

Paths of the file system as texts, and the steps from a path to its parent and to a file in it. Both
work on the text alone: they neither look at the disk nor fold `..`.
-/

namespace SheetImports.Path

/-- The uri of a path. The slash separates names in both, so it is the path itself. -/
def toUri (path : Text) : Text := path

/-- The path of the file `name` in a directory; the empty directory adds nothing. -/
def join (directory name : Text) : Text :=
  if directory = [] ∨ directory.getLast? = some '/' then directory ++ name
  else directory ++ ['/'] ++ name

/-- Segments that name nothing by themselves, away from the beginning of a path. -/
def isIdle (segment : Text) : Bool := segment = [] || segment = ['.']

/-- The segments without idle ones at the end. -/
def dropIdleEnd (segments : List Text) : List Text :=
  (segments.reverse.dropWhile isIdle).reverse

/-- The segments without the last one that names something, if there is one. -/
def dropName? (segments : List Text) : Option (List Text) :=
  match segments.reverse.dropWhile isIdle with
  | [] => none
  | _ :: before => some (dropIdleEnd before.reverse)

/-- The path without its last name. The root and the empty path have no parent; a name alone and
the path `.` have the empty one. A leading `.` counts as a name, every other as nothing. -/
def parent? (path : Text) : Option Text :=
  match path.splitOn '/' with
  | [] => none
  | first :: segments =>
    if first = ['.'] then
      match dropName? segments with
      | some before => some (['/'].intercalate (first :: before))
      | none => some []
    else if first = [] then (dropName? segments).map fun before => '/' :: ['/'].intercalate before
    else (dropName? (first :: segments)).map ['/'].intercalate

/-! ## The way up -/

/-- The length of segments written with a slash behind each. -/
def size : List Text → Nat
  | [] => 0
  | segment :: segments => segment.length + 1 + size segments

theorem size_append (before after : List Text) :
    size (before ++ after) = size before + size after := by
  induction before with
  | nil => exact (Nat.zero_add _).symm
  | cons segment before ih =>
    rw [List.cons_append, size, size, ih]
    omega

/-- Written with slashes between them, segments are one slash shorter. -/
theorem length_intercalate (segments : List Text) :
    (['/'].intercalate segments).length = size segments - 1 := by
  induction segments with
  | nil => rfl
  | cons first segments ih =>
    cases segments with
    | nil => simp [size]
    | cons second segments =>
      rw [List.intercalate_cons_cons, List.length_append, List.length_append, ih]
      simp only [size, List.length_singleton]
      omega

theorem eq_append_of_dropWhile_reverse (segments : List Text) :
    ∃ idle, segments = (segments.reverse.dropWhile isIdle).reverse ++ idle := by
  refine ⟨(segments.reverse.takeWhile isIdle).reverse, ?_⟩
  rw [← List.reverse_append, List.takeWhile_append_dropWhile, List.reverse_reverse]

/-- The last name is dropped with what follows it, and it is not empty. -/
theorem eq_append_of_dropName? {segments before : List Text}
    (h : dropName? segments = some before) :
    ∃ more, segments = before ++ more ∧ 2 ≤ size more := by
  obtain ⟨idle, hsegments⟩ := eq_append_of_dropWhile_reverse segments
  unfold dropName? at h
  split at h
  · cases h
  next name rest hrest =>
    obtain ⟨idle', hrest'⟩ := eq_append_of_dropWhile_reverse rest.reverse
    have hname : isIdle name = false := by
      have := List.head?_dropWhile_not isIdle segments.reverse
      rw [hrest] at this
      simpa using this
    have hpos : 1 ≤ name.length := by
      cases name with
      | nil => simp [isIdle] at hname
      | cons => simp
    refine ⟨idle' ++ [name] ++ idle, ?_, ?_⟩
    · cases h
      rw [hrest, List.reverse_cons, hrest'] at hsegments
      simpa [dropIdleEnd] using hsegments
    · simp only [size_append, size]
      omega

/-- A parent is shorter than its child, so the way up ends. -/
theorem length_parent?_lt {path parent : Text} (h : parent? path = some parent) :
    parent.length < path.length := by
  have hpath : ['/'].intercalate (path.splitOn '/') = path := List.intercalate_splitOn '/'
  unfold parent? at h
  split at h
  · cases h
  next first segments hsplit =>
    rw [hsplit] at hpath
    have hlength : path.length = size (first :: segments) - 1 := by
      rw [← hpath, length_intercalate]
    have hcons : ∀ xs, size (first :: xs) = first.length + 1 + size xs := fun xs => rfl
    split at h
    next hdot =>
      split at h
      next before hbefore =>
        obtain ⟨more, rfl, hmore⟩ := eq_append_of_dropName? hbefore
        cases h
        rw [length_intercalate, hlength, hcons, hcons, size_append]
        omega
      next =>
        cases h
        rw [hlength, hcons, hdot]
        simp only [List.length_nil, List.length_singleton]
        omega
    next =>
      split at h
      next hempty =>
        obtain ⟨before, hbefore, rfl⟩ := Option.map_eq_some_iff.1 h
        obtain ⟨more, rfl, hmore⟩ := eq_append_of_dropName? hbefore
        rw [List.length_cons, length_intercalate, hlength, hcons, size_append]
        omega
      next =>
        obtain ⟨before, hbefore, rfl⟩ := Option.map_eq_some_iff.1 h
        obtain ⟨more, hsegments, hmore⟩ := eq_append_of_dropName? hbefore
        rw [length_intercalate, hlength, hsegments, size_append]
        omega

/-- A path, its parent, and so on up to a path without parent. -/
def selfAndParents (path : Text) : List Text :=
  match h : parent? path with
  | none => [path]
  | some parent =>
    have := length_parent?_lt h
    path :: selfAndParents parent
termination_by path.length

end SheetImports.Path
