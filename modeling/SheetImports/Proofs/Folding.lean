import Mathlib.Data.List.Infix
import Mathlib.Data.List.TakeWhile
import SheetImports.Candidate

/-!
# Folding paths

A stack that folding has built is settled: its segments, pushed again, build it again
(`settled_stack`). So a path may be folded in parts: what its first part folds to stands on the same
ground and leaves the same stack, and can take the place of that part in front of a slash
(`folded_join_congr`). The segments of a text are all of it if it has no scheme, and the first
section says when a text that is put together has none.
-/

namespace SheetImports

/-! ## Texts with and without a scheme -/

/-- A pattern can be cut out of a text if and only if it stands there. -/
theorem Text.isSome_cut {pattern text : Text} :
    (cut pattern text).isSome = true ↔ pattern <:+: text := by
  constructor
  · intro h
    obtain ⟨⟨before, after⟩, hcut⟩ := Option.isSome_iff_exists.1 h
    exact ⟨before, after, (append_of_cut hcut).symm⟩
  · intro h
    induction text with
    | nil =>
      rw [List.infix_nil.1 h]
      rfl
    | cons c text ih =>
      unfold cut
      split
      · rfl
      next hnone =>
        rw [Option.isSome_map]
        refine ih ((List.infix_cons_iff.1 h).resolve_left ?_)
        rintro ⟨rest, hrest⟩
        rw [List.isPrefixOf?_eq_some_iff_append_eq.2 hrest] at hnone
        cases hnone

theorem Text.trimEnd_prefix (drop : Char → Bool) (text : Text) : text.trimEnd drop <+: text := by
  rw [trimEnd, ← List.reverse_suffix, List.reverse_reverse]
  exact List.dropWhile_suffix drop

theorem Text.getLast?_trimEnd {drop : Char → Bool} {c : Char} (h : drop c = true) (text : Text) :
    (text.trimEnd drop).getLast? ≠ some c := by
  rw [trimEnd, List.getLast?_reverse]
  intro hc
  have hkeep := List.head?_dropWhile_not drop text.reverse
  rw [hc] at hkeep
  cases h.symm.trans hkeep

theorem Text.trimEnd_eq_nil_iff {drop : Char → Bool} {text : Text} :
    text.trimEnd drop = [] ↔ ∀ c ∈ text, drop c = true := by
  simp [trimEnd, List.dropWhile_eq_nil_iff]

namespace Uri

/-- A text has a scheme if the mark stands anywhere in it. -/
theorem hasScheme_iff {text : Text} : hasScheme text = true ↔ schemeMark <:+: text :=
  Text.isSome_cut

/-- A scheme begins with a colon, so it does not begin at a slash. -/
theorem scheme_slash_cons {text : Text} : schemeMark <:+: '/' :: text ↔ schemeMark <:+: text := by
  refine ⟨fun h => (List.infix_cons_iff.1 h).resolve_left fun hprefix => ?_, List.infix_cons⟩
  exact absurd (List.cons_prefix_cons.1 hprefix).1 (by decide)

theorem scheme_prefix_cons {c : Char} {text : Text} :
    schemeMark <+: c :: text ↔ c = ':' ∧ ['/', '/'] <+: text := by
  rw [show schemeMark = [':', '/', '/'] from rfl, List.cons_prefix_cons, eq_comm]

/-- No scheme arises where two texts are joined by the only slash between them. -/
theorem no_scheme_join {x y : Text} (hx : ¬ schemeMark <:+: x) (hy : ¬ schemeMark <:+: y)
    (hend : x.getLast? ≠ some '/') (hstart : y.head? ≠ some '/') :
    ¬ schemeMark <:+: x ++ '/' :: y := by
  induction x with
  | nil =>
    rw [List.nil_append, scheme_slash_cons]
    exact hy
  | cons c x ih =>
    intro h
    rcases List.infix_cons_iff.1 h with hprefix | hpart
    · obtain ⟨rfl, hslashes⟩ := scheme_prefix_cons.1 hprefix
      -- the mark ends behind the joint, at it, or before it
      rcases x with - | ⟨d, - | ⟨e, x⟩⟩
      · cases y with
        | nil => cases (List.prefix_nil.1 (List.cons_prefix_cons.1 hslashes).2)
        | cons d y =>
          have hd := (List.cons_prefix_cons.1 (List.cons_prefix_cons.1 hslashes).2).1
          exact hstart (congrArg some hd.symm)
      · have hd := (List.cons_prefix_cons.1 hslashes).1
        exact hend (congrArg some hd.symm)
      · obtain ⟨rfl, hslash⟩ := List.cons_prefix_cons.1 hslashes
        obtain ⟨rfl, -⟩ := List.cons_prefix_cons.1 hslash
        exact hx (List.IsPrefix.isInfix ⟨x, rfl⟩)
    · refine ih (fun hpart => hx (List.infix_cons hpart)) (fun hlast => hend ?_) hpart
      rw [List.getLast?_cons, hlast]
      rfl

/-- One slash more takes no scheme away. -/
theorem scheme_slash {x y : Text} (h : schemeMark <:+: x ++ '/' :: y) :
    schemeMark <:+: x ++ '/' :: '/' :: y := by
  induction x with
  | nil => exact List.infix_cons h
  | cons c x ih =>
    rcases List.infix_cons_iff.1 h with hprefix | hpart
    · obtain ⟨hc, hslashes⟩ := scheme_prefix_cons.1 hprefix
      refine List.IsPrefix.isInfix (scheme_prefix_cons.2 ⟨hc, ?_⟩)
      rcases x with - | ⟨d, - | ⟨e, x⟩⟩
      · exact ⟨y, rfl⟩
      · exact List.cons_prefix_cons.2 ⟨(List.cons_prefix_cons.1 hslashes).1, _, rfl⟩
      · obtain ⟨rfl, hslash⟩ := List.cons_prefix_cons.1 hslashes
        obtain ⟨rfl, -⟩ := List.cons_prefix_cons.1 hslash
        exact ⟨_, rfl⟩
    · exact List.infix_cons (ih hpart)

/-- Neither does one arise when slashes in front of the joint are taken away. -/
theorem no_scheme_trimEnd {x y : Text} (h : ¬ schemeMark <:+: x ++ '/' :: y) :
    ¬ schemeMark <:+: x.trimEnd (· == '/') ++ '/' :: y := by
  induction x using List.reverseRecOn with
  | nil => exact h
  | append_singleton x c ih =>
    by_cases hc : c = '/'
    · subst hc
      rw [Text.trimEnd_concat_of_drop rfl]
      refine ih fun hscheme => h ?_
      rw [List.append_assoc]
      exact scheme_slash hscheme
    · rw [Text.trimEnd_concat_of_keep (by simpa using hc)]
      exact h

/-! ## Stacks -/

/-- The stack, top first, after all segments. -/
def stack (ground : Ground) (segments : List Text) : List Text := segments.foldl (push ground) []

theorem stack_concat (ground : Ground) (segments : List Text) (segment : Text) :
    stack ground (segments ++ [segment]) = push ground (stack ground segments) segment :=
  List.foldl_concat _ _ _ _

/-- What follows sees of the segments in front of it their stack alone. -/
theorem stack_append_congr {ground : Ground} {segments others : List Text}
    (h : stack ground segments = stack ground others) (after : List Text) :
    stack ground (segments ++ after) = stack ground (others ++ after) := by
  unfold stack at h ⊢
  rw [List.foldl_append, List.foldl_append, h]

theorem push_nil (ground : Ground) (below : List Text) : push ground below [] = below :=
  if_pos (Or.inl rfl)

/-- A segment stays out, goes on top, or takes the top away. -/
theorem push_cases (ground : Ground) (below : List Text) (segment : Text) :
    push ground below segment = below ∨
      (push ground below segment = segment :: below ∧ segment ≠ []) ∨
      push ground below segment = below.tail := by
  unfold push
  split
  · exact Or.inl rfl
  next hidle =>
    have hne : segment ≠ [] := fun hnil => hidle (Or.inl hnil)
    split
    · split
      · exact Or.inr (Or.inl ⟨rfl, hne⟩)
      · split
        · exact Or.inr (Or.inl ⟨rfl, hne⟩)
        · exact Or.inr (Or.inr rfl)
      · exact Or.inr (Or.inr rfl)
      · exact Or.inl rfl
      · exact Or.inl rfl
      · exact Or.inr (Or.inr rfl)
    · exact Or.inr (Or.inl ⟨rfl, hne⟩)

/-- A stack, read from the bottom, holds some of the segments in their order. -/
theorem stack_sublist (ground : Ground) (segments : List Text) :
    (stack ground segments).reverse.Sublist segments := by
  induction segments using List.reverseRecOn with
  | nil => exact List.nil_sublist _
  | append_singleton segments segment ih =>
    rw [stack_concat]
    rcases push_cases ground (stack ground segments) segment with h | ⟨h, -⟩ | h
    · rw [h]
      exact ih.trans (List.sublist_append_left _ _)
    · rw [h, List.reverse_cons]
      exact ih.append (List.Sublist.refl _)
    · rw [h]
      exact ((List.tail_sublist _).reverse.trans ih).trans (List.sublist_append_left _ _)

theorem length_stack_le (ground : Ground) (segments : List Text) :
    (stack ground segments).length ≤ segments.length := by
  simpa using (stack_sublist ground segments).length_le

/-- The segments of a stack, pushed from the bottom, build it again. -/
def Settled (ground : Ground) (names : List Text) : Prop := stack ground names.reverse = names

theorem Settled.tail {ground : Ground} {names : List Text} (h : Settled ground names) :
    Settled ground names.tail := by
  cases names with
  | nil => exact h
  | cons top below =>
    rw [Settled, List.reverse_cons, stack_concat] at h
    have hlength := length_stack_le ground below.reverse
    have htotal := congrArg List.length h
    rw [List.length_reverse] at hlength
    rw [List.length_cons] at htotal
    -- the stack becomes as long as it is only if its top is pushed
    rcases push_cases ground (stack ground below.reverse) top with hpush | ⟨hpush, -⟩ | hpush
    · rw [hpush] at htotal
      omega
    · rw [hpush] at h
      exact (List.cons.inj h).2
    · rw [hpush, List.length_tail] at htotal
      omega

/-- A stack on which nothing folds away stays so with any segment more. -/
theorem Settled.push {ground : Ground} {names : List Text} (h : Settled ground names)
    (segment : Text) : Settled ground (push ground names segment) := by
  rcases push_cases ground names segment with hpush | ⟨hpush, -⟩ | hpush
  · rw [hpush]
    exact h
  · rw [hpush, Settled, List.reverse_cons, stack_concat, h, hpush]
  · rw [hpush]
    exact h.tail

/-- What folding has built is settled. -/
theorem settled_stack (ground : Ground) (segments : List Text) :
    Settled ground (stack ground segments) := by
  induction segments using List.reverseRecOn with
  | nil => rfl
  | append_singleton segments segment ih =>
    rw [stack_concat]
    exact ih.push segment

/-- What is on a stack was a segment, and it is not empty. -/
theorem mem_stack {ground : Ground} {segments : List Text} {name : Text}
    (h : name ∈ stack ground segments) : name ∈ segments ∧ name ≠ [] := by
  induction segments using List.reverseRecOn with
  | nil => cases h
  | append_singleton segments segment ih =>
    rw [stack_concat] at h
    have hold : name ∈ stack ground segments → name ∈ segments ++ [segment] ∧ name ≠ [] :=
      fun hmem => ⟨List.mem_append_left _ (ih hmem).1, (ih hmem).2⟩
    rcases push_cases ground (stack ground segments) segment with hpush | ⟨hpush, hne⟩ | hpush
    · exact hold (hpush ▸ h)
    · rw [hpush] at h
      rcases List.mem_cons.1 h with rfl | h
      · exact ⟨List.mem_append_right _ List.mem_cons_self, hne⟩
      · exact hold h
    · exact hold (List.mem_of_mem_tail (hpush ▸ h))

/-! ## Paths -/

/-- What a path without a scheme stands on. -/
def groundOf (path : Text) : Ground := if isRooted path then .root else .here

/-- A rooted or relative path with the given segments. -/
def written (rooted : Bool) (names : List Text) : Text :=
  (if rooted then ['/'] else []) ++ ['/'].intercalate names

/-- Without a scheme the whole text is a path. -/
theorem folded_of_no_scheme {text : Text} (h : ¬ schemeMark <:+: text) :
    folded text = written (isRooted text) (stack (groundOf text) (text.splitOn '/')).reverse := by
  have hcut : Text.cut schemeMark text = none := by
    rw [← Option.not_isSome_iff_eq_none, Text.isSome_cut]
    exact h
  have hof : ofText text = ⟨[], isRooted text, text.splitOn '/'⟩ := by
    rw [ofText, splitScheme, hcut]
    rfl
  rw [folded, hof]
  rfl

theorem slash_notMem_splitOn {text name : Text} (h : name ∈ text.splitOn '/') : '/' ∉ name := by
  induction text generalizing name with
  | nil =>
    rw [List.splitOn_nil, List.mem_singleton] at h
    rw [h]
    exact List.not_mem_nil
  | cons c text ih =>
    rw [List.splitOn_cons_eq_if_modifyHead] at h
    split at h
    · rcases List.mem_cons.1 h with rfl | h
      · exact List.not_mem_nil
      · exact ih h
    next hc =>
      cases hsplit : text.splitOn '/' with
      | nil => exact absurd hsplit (List.splitOn_ne_nil _ _)
      | cons first names =>
        rw [hsplit] at h ih
        rcases List.mem_cons.1 h with rfl | h
        · intro hmem
          rcases List.mem_cons.1 hmem with rfl | hmem
          · exact hc rfl
          · exact ih List.mem_cons_self hmem
        · exact ih (List.mem_cons_of_mem _ h)

/-- The names that a stack keeps have letters, and no slash is among them. -/
theorem isName_of_mem_stack {ground : Ground} {text name : Text}
    (h : name ∈ stack ground (text.splitOn '/')) : name ≠ [] ∧ '/' ∉ name :=
  ⟨(mem_stack h).2, slash_notMem_splitOn (mem_stack h).1⟩

/-- Names written with slashes between them begin with no slash and have no scheme. -/
theorem intercalate_names {names : List Text} (h : ∀ name ∈ names, name ≠ [] ∧ '/' ∉ name) :
    (['/'].intercalate names).head? ≠ some '/' ∧ ¬ schemeMark <:+: ['/'].intercalate names := by
  have hplain : ∀ name : Text, '/' ∉ name → ¬ schemeMark <:+: name := fun name hslash hpart =>
    hslash (hpart.subset (by decide))
  have hhead : ∀ name rest : Text, name ≠ [] ∧ '/' ∉ name → (name ++ rest).head? ≠ some '/' := by
    rintro (- | ⟨c, name⟩) rest ⟨hne, hslash⟩ hc
    · exact hne rfl
    · exact hslash (Option.some.inj hc ▸ List.mem_cons_self)
  induction names with
  | nil => exact ⟨by decide, by decide⟩
  | cons name names ih =>
    have hname := h name List.mem_cons_self
    cases names with
    | nil =>
      rw [List.intercalate_singleton, ← List.append_nil name]
      exact ⟨hhead name [] hname, by rw [List.append_nil]; exact hplain name hname.2⟩
    | cons next names =>
      obtain ⟨hnext, hscheme⟩ := ih fun other hother => h other (List.mem_cons_of_mem _ hother)
      rw [List.intercalate_cons_cons, List.append_assoc]
      refine ⟨hhead name _ hname, no_scheme_join (hplain name hname.2) hscheme ?_ hnext⟩
      exact fun hlast => hname.2 (List.mem_of_getLast? hlast)

theorem stack_slash (ground : Ground) (path : Text) :
    stack ground (('/' :: path).splitOn '/') = stack ground (path.splitOn '/') := by
  have hsplit : ('/' :: path).splitOn '/' = [] :: path.splitOn '/' :=
    List.splitOn_append_cons_self [] path
  rw [hsplit, stack, List.foldl_cons, push_nil]
  rfl

section Written

variable {ground : Ground} {names : List Text} (rooted : Bool)

theorem isRooted_written (h : ∀ name ∈ names, name ≠ [] ∧ '/' ∉ name) :
    isRooted (written rooted names) = rooted := by
  cases rooted with
  | true => rfl
  | false => exact decide_eq_false (intercalate_names h).1

theorem no_scheme_written (h : ∀ name ∈ names, name ≠ [] ∧ '/' ∉ name) :
    ¬ schemeMark <:+: written rooted names := by
  cases rooted with
  | true => exact fun hscheme => (intercalate_names h).2 (scheme_slash_cons.1 hscheme)
  | false => exact (intercalate_names h).2

/-- A settled stack that is written and folded again is the same. -/
theorem stack_written (hsettled : Settled ground names)
    (h : ∀ name ∈ names.reverse, name ≠ [] ∧ '/' ∉ name) :
    stack ground ((written rooted names.reverse).splitOn '/') = names := by
  have hpath : stack ground ((['/'].intercalate names.reverse).splitOn '/') = names := by
    by_cases hnil : names.reverse = []
    · rw [hnil, List.reverse_eq_nil_iff.1 hnil]
      exact push_nil ground []
    · rw [List.splitOn_intercalate '/' (fun name hname => (h name hname).2) hnil]
      exact hsettled
  cases rooted with
  | true => exact (stack_slash _ _).trans hpath
  | false => exact hpath

end Written

/-! ## Joining -/

theorem splitOn_join (x y : Text) :
    (x ++ '/' :: y).splitOn '/' = x.splitOn '/' ++ y.splitOn '/' :=
  List.splitOn_append_cons_self x y

theorem isRooted_append {x : Text} (hx : x ≠ []) (y : Text) : isRooted (x ++ y) = isRooted x := by
  cases x with
  | nil => exact absurd rfl hx
  | cons c x => rfl

/-- In front of a slash, a text may be replaced by another one that stands on the same ground and
leaves the same stack. -/
theorem folded_join_congr {x x' y : Text} (hx : ¬ schemeMark <:+: x ++ '/' :: y)
    (hx' : ¬ schemeMark <:+: x' ++ '/' :: y)
    (hrooted : isRooted (x ++ '/' :: y) = isRooted (x' ++ '/' :: y))
    (hstack : stack (groundOf (x ++ '/' :: y)) (x.splitOn '/')
      = stack (groundOf (x ++ '/' :: y)) (x'.splitOn '/')) :
    folded (x ++ '/' :: y) = folded (x' ++ '/' :: y) := by
  have hground : groundOf (x' ++ '/' :: y) = groundOf (x ++ '/' :: y) := by
    rw [groundOf, groundOf, hrooted]
  rw [folded_of_no_scheme hx, folded_of_no_scheme hx', hground, ← hrooted, splitOn_join,
    splitOn_join, stack_append_congr hstack]

/-- Slashes at the end are empty segments, which stay out of a stack. -/
theorem stack_trimEnd (ground : Ground) (x : Text) :
    stack ground ((x.trimEnd (· == '/')).splitOn '/') = stack ground (x.splitOn '/') := by
  induction x using List.reverseRecOn with
  | nil => rfl
  | append_singleton x c ih =>
    by_cases hc : c = '/'
    · subst hc
      rw [Text.trimEnd_concat_of_drop rfl, ih, splitOn_join, List.splitOn_nil, stack_concat,
        push_nil]
    · rw [Text.trimEnd_concat_of_keep (by simpa using hc)]

theorem isRooted_trimEnd_join (x y : Text) :
    isRooted (x.trimEnd (· == '/') ++ '/' :: y) = isRooted (x ++ '/' :: y) := by
  induction x using List.reverseRecOn with
  | nil => rfl
  | append_singleton x c ih =>
    by_cases hc : c = '/'
    · subst hc
      rw [Text.trimEnd_concat_of_drop rfl, ih]
      cases x <;> rfl
    · rw [Text.trimEnd_concat_of_keep (by simpa using hc)]

/-- Slashes in front of a slash make no difference. -/
theorem folded_trimEnd_join {x y : Text} (h : ¬ schemeMark <:+: x ++ '/' :: y) :
    folded (x.trimEnd (· == '/') ++ '/' :: y) = folded (x ++ '/' :: y) :=
  folded_join_congr (no_scheme_trimEnd h) h (isRooted_trimEnd_join x y) (stack_trimEnd _ x)

end Uri

end SheetImports
