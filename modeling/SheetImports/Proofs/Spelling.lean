import Mathlib.Logic.Relation
import SheetImports.Proofs.FoldedForm

/-!
# Spellings of a path

Some segments say nothing where they stand: an empty one, a `.`, a name that the next segment takes
back, and a `..` at the root (`Idle`). Each of them leaves the stack as it was (`stack_idle`), so a
path folds to the same text with and without it (`folded_respelled`). And nothing else does: two
paths fold to the same text if and only if such insertions and their removals lead from one to the
other (`folded_eq_iff_spelling`).
-/

namespace SheetImports.Uri

/-- Segments that say nothing behind the segments that come first. -/
inductive Idle (rooted : Bool) : List Text → List Text → Prop
  | empty (before : List Text) : Idle rooted before [[]]
  | dot (before : List Text) : Idle rooted before [".".toList]
  | detour (before : List Text) {name : Text} (h : IsProper name) :
    Idle rooted before [name, "..".toList]
  | aboveRoot (h : rooted = true) : Idle rooted [[]] ["..".toList]

/-- The longer path is the other one with idle segments at one place. -/
def Respelled (rooted : Bool) (segments longer : List Text) : Prop :=
  ∃ before inserted after, Idle rooted before inserted ∧ segments = before ++ after ∧
    longer = before ++ inserted ++ after

theorem groundOf_ne_authority (path : Text) : groundOf path ≠ .authority := by
  unfold groundOf
  split <;> simp

/-- Segments that say nothing leave the stack of what is in front of them. -/
theorem stack_idle {path : Text} {before inserted : List Text}
    (h : Idle (isRooted path) before inserted) :
    stack (groundOf path) (before ++ inserted) = stack (groundOf path) before := by
  cases h with
  | empty => rw [stack_concat, push_nil]
  | dot => rw [stack_concat, push_idle (Or.inr rfl)]
  | @detour _ name h =>
    rw [List.append_cons, stack_concat, stack_concat, h.push,
      push_dots h (groundOf_ne_authority path)]
  | aboveRoot h =>
    unfold groundOf
    rw [h]
    rfl

theorem Respelled.stack_eq {path : Text} {segments longer : List Text}
    (h : Respelled (isRooted path) segments longer) :
    stack (groundOf path) longer = stack (groundOf path) segments := by
  obtain ⟨before, inserted, after, hidle, rfl, rfl⟩ := h
  exact stack_append_congr (stack_idle hidle) after

/-- Two paths of one ground fold to the same text if and only if they have the same stack. -/
theorem folded_congr {p q : Text} (hp : ¬ schemeMark <:+: p) (hq : ¬ schemeMark <:+: q)
    (hrooted : isRooted p = isRooted q) :
    folded p = folded q ↔
      stack (groundOf p) (p.splitOn '/') = stack (groundOf p) (q.splitOn '/') := by
  have hground : groundOf q = groundOf p := by
    rw [groundOf, groundOf, hrooted]
  rw [folded_of_no_scheme hp, folded_of_no_scheme hq, hground, ← hrooted]
  constructor
  · intro h
    -- a stack is read back from the text that it is written to
    have hread : ∀ path : Text, stack (groundOf p)
        ((written (isRooted p) (stack (groundOf p) (path.splitOn '/')).reverse).splitOn '/')
          = stack (groundOf p) (path.splitOn '/') := by
      intro path
      apply stack_written _ (settled_stack _ _)
      intro name hname
      exact isName_of_mem_stack (List.mem_reverse.1 hname)
    rw [← hread p, h, hread q]
  · intro h
    rw [h]

/-- A path may be spelled with segments that say nothing. -/
theorem folded_respelled {p q : Text} (hp : ¬ schemeMark <:+: p) (hq : ¬ schemeMark <:+: q)
    (hrooted : isRooted p = isRooted q)
    (h : Respelled (isRooted p) (p.splitOn '/') (q.splitOn '/')) : folded p = folded q :=
  (folded_congr hp hq hrooted).2 h.stack_eq.symm

theorem folded_respelled_detour :
    ¬ schemeMark <:+: "/../a".toList ∧ ¬ schemeMark <:+: "/../x:/../a".toList ∧
      folded "/../a".toList = folded "/../x:/../a".toList ∧
      folded "/a".toList = folded "/../a".toList := by
  have hdetour : Respelled true ("/../a".toList.splitOn '/') ("/../x:/../a".toList.splitOn '/') :=
    ⟨[[], "..".toList], ["x:".toList, "..".toList], ["a".toList], .detour _ (by decide), rfl, rfl⟩
  have habove : Respelled true ("/a".toList.splitOn '/') ("/../a".toList.splitOn '/') :=
    ⟨[[]], ["..".toList], ["a".toList], .aboveRoot rfl, rfl, rfl⟩
  have hmark : ¬ schemeMark <:+: "/../a".toList := by decide
  have hlonger : ¬ schemeMark <:+: "/../x:/../a".toList := by decide
  exact ⟨hmark, hlonger, folded_respelled hmark hlonger rfl hdetour,
    folded_respelled (by decide) hmark rfl habove⟩

/-! ## Nothing else is a spelling -/

/-- Two lists of segments that insertions and removals of idle segments lead to from one another. -/
def Spelling (rooted : Bool) : List Text → List Text → Prop := Relation.EqvGen (Respelled rooted)

theorem Spelling.append {rooted : Bool} {segments others : List Text}
    (h : Spelling rooted segments others) (after : List Text) :
    Spelling rooted (segments ++ after) (others ++ after) := by
  induction h with
  | rel _ _ h =>
    obtain ⟨before, inserted, rest, hidle, rfl, rfl⟩ := h
    exact .rel _ _ ⟨before, inserted, rest ++ after, hidle, by simp, by simp⟩
  | refl => exact .refl _
  | symm _ _ _ ih => exact .symm _ _ ih
  | trans _ _ _ _ _ first second => exact .trans _ _ _ first second

theorem Idle.spelling {rooted : Bool} {before inserted : List Text}
    (h : Idle rooted before inserted) : Spelling rooted (before ++ inserted) before :=
  .symm _ _ (.rel _ _ ⟨before, inserted, [], h, by simp, by simp⟩)

/-- At the root, `..` is spelled with an empty segment on either side of it. -/
theorem spelling_root : Spelling true ["..".toList] [] := by
  have hinsert : Spelling true ["..".toList] [[], "..".toList] :=
    .rel _ _ ⟨[], [[]], ["..".toList], .empty [], rfl, rfl⟩
  have habove : Spelling true [[], "..".toList] [[]] := (Idle.aboveRoot rfl).spelling
  have hempty : Spelling true [[]] [] := (Idle.empty []).spelling
  exact .trans _ _ _ hinsert (.trans _ _ _ habove hempty)

/-- What a push leaves out or takes away is a segment that says nothing. -/
theorem spelling_push {path : Text} {below : List Text} (h : Standing (groundOf path) below)
    (segment : Text) :
    Spelling (isRooted path) (below.reverse ++ [segment])
      (push (groundOf path) below segment).reverse := by
  rcases segment_cases segment with hidle | rfl | hproper
  · rw [push_idle hidle]
    rcases hidle with rfl | rfl
    · exact (Idle.empty _).spelling
    · exact (Idle.dot _).spelling
  · obtain ⟨names, ups, rfl, hnames, hups⟩ := h
    rcases names with - | ⟨name, names⟩
    · cases hrooted : isRooted path with
      | true =>
        have hground : groundOf path = .root := by simp [groundOf, hrooted]
        obtain rfl := hups (by simp [hground])
        rw [hground]
        exact spelling_root
      | false =>
        have hground : groundOf path = .here := by simp [groundOf, hrooted]
        rw [hground, List.nil_append, push_dots_run, List.replicate_succ, List.reverse_cons]
        exact .refl _
    · have hname := hnames name List.mem_cons_self
      rw [List.cons_append, push_dots hname (groundOf_ne_authority path), List.reverse_cons,
        List.append_assoc]
      exact (Idle.detour _ hname).spelling
  · rw [hproper.push, List.reverse_cons]
    exact .refl _

/-- So every path is a spelling of its folded form. -/
theorem spelling_stack (path : Text) (segments : List Text) :
    Spelling (isRooted path) segments (stack (groundOf path) segments).reverse := by
  induction segments using List.reverseRecOn with
  | nil => exact .refl _
  | append_singleton segments segment ih =>
    rw [stack_concat]
    exact .trans _ _ _ (ih.append [segment]) (spelling_push (standing_stack _ _) segment)

theorem Spelling.stack_eq {path : Text} {segments others : List Text}
    (h : Spelling (isRooted path) segments others) :
    stack (groundOf path) segments = stack (groundOf path) others := by
  induction h with
  | rel _ _ h => exact h.stack_eq.symm
  | refl => rfl
  | symm _ _ _ ih => exact ih.symm
  | trans _ _ _ _ _ first second => exact first.trans second

/-- Two paths fold to the same text if and only if they are spellings of one another. -/
theorem folded_eq_iff_spelling {p q : Text} (hp : ¬ schemeMark <:+: p) (hq : ¬ schemeMark <:+: q)
    (hrooted : isRooted p = isRooted q) :
    folded p = folded q ↔ Spelling (isRooted p) (p.splitOn '/') (q.splitOn '/') := by
  rw [folded_congr hp hq hrooted]
  constructor
  · intro h
    have hq := spelling_stack p (q.splitOn '/')
    rw [← h] at hq
    exact .trans _ _ _ (spelling_stack p _) (.symm _ _ hq)
  · exact Spelling.stack_eq

end SheetImports.Uri
