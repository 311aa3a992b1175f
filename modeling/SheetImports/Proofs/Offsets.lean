import SheetImports.Proofs.RoundTrip

/-!
# Reading behind other octets

The second scan never looks back: octets in front of those that it goes through move the positions
of what it finds and change nothing else (`statements_shift`). A directive is then found as many
lines further down as stand in front of it (`directivesIn_append`).
-/

namespace SheetImports

/-- The directive on a line further down. -/
def Directive.below (lines : Nat) (directive : Directive) : Directive :=
  { directive with line := lines + directive.line }

namespace Stylesheet

def Stretch.shift (distance : Nat) (stretch : Stretch) : Stretch :=
  { stretch with start := distance + stretch.start }

def Target.shift (distance : Nat) (target : Target) : Target :=
  { target with mark := distance + target.mark, value := target.value.shift distance }

def Statement.shift (distance : Nat) (statement : Statement) : Statement where
  keyword := distance + statement.keyword
  targets := statement.targets.map (·.shift distance)
  media := statement.media.shift distance

@[simp] theorem Target.shift_text (distance : Nat) (target : Target) :
    (target.shift distance).text = target.text := rfl

/-! ## Statements -/

section Scan

variable {size : Nat} {bytes : Bytes} (distance : Nat)

theorem target?_shift (h : bytes.length ≤ size) :
    target? (distance + size) bytes
      = (target? size bytes).map fun found => (found.1.shift distance, found.2) := by
  cases bytes with
  | nil => rfl
  | cons b bytes =>
    simp only [target?]
    rw [Nat.add_sub_assoc h]
    split
    · rfl
    · rw [Option.map_map]
      apply Option.map_congr
      intro after hafter
      have hlength := length_of_afterWord? hafter
      have hle : after.length ≤ size := by omega
      rw [Nat.add_sub_assoc hle]
      rfl

theorem targets_shift (h : bytes.length ≤ size) :
    targets (distance + size) bytes
      = ((targets size bytes).1.map (·.shift distance), (targets size bytes).2) := by
  fun_induction targets size bytes with
  | case1 bytes hnone =>
    have hfound := target?_shift distance ((length_dropWhile_le isGap bytes).trans h)
    rw [hnone] at hfound
    exact targets_of_none hfound
  | case2 bytes t rest ht _ hrest =>
    have hfound := target?_shift distance ((length_dropWhile_le isGap bytes).trans h)
    rw [ht] at hfound
    rw [targets_of_target? hfound, hrest]
    rfl
  | case3 bytes t rest ht hlt more hmore hle ih =>
    have hfound := target?_shift distance ((length_dropWhile_le isGap bytes).trans h)
    rw [ht] at hfound
    have hlength := length_dropWhile_le isGap bytes
    rw [List.length_cons] at hle
    rw [targets_more hfound hmore, ih (by omega)]
    rfl
  | case4 bytes t rest ht _ b more hmore _ hb =>
    have hfound := target?_shift distance ((length_dropWhile_le isGap bytes).trans h)
    rw [ht] at hfound
    rw [targets_of_target? hfound, hmore]
    exact if_neg hb

theorem statement_shift (h : bytes.length ≤ size) (keyword : Nat) :
    statement (distance + size) (distance + keyword) bytes
      = (statement size keyword bytes).shift distance := by
  have hrest : (targets size bytes).2.length ≤ size := (length_targets_le size bytes).trans h
  rw [statement, statement, targets_shift distance h]
  simp only [Statement.shift, Stretch.shift, Nat.add_sub_assoc hrest]

/-- A longer text in front moves every offset of what is read by its length. -/
theorem statements_shift (h : bytes.length ≤ size) :
    statements (distance + size) bytes = (statements size bytes).map (·.shift distance) := by
  fun_induction statements size bytes with
  | case1 => rw [statements, List.map_nil]
  | case2 b bytes hquote ih =>
    have hlength := length_literalTail_le b bytes
    rw [List.length_cons] at h
    rw [statements_literal hquote, ih (by omega)]
  | case3 b bytes _ after hafter _ ih =>
    obtain rfl := eq_atSign_of_afterImport? hafter
    have hlength := length_of_afterImport? hafter
    have hrest := (length_afterStatement_le (targets size after).2).trans
      (length_targets_le size after)
    have hle : after.length ≤ size := by
      rw [List.length_cons] at h
      omega
    rw [statements_import hafter, Nat.add_sub_assoc h, statement_shift distance hle,
      targets_shift distance hle, ih (by omega), List.map_cons]
  | case4 b bytes hquote hnone ih =>
    rw [List.length_cons] at h
    rw [statements_of_none (eq_false_of_ne_true hquote) hnone, ih (by omega)]

end Scan

/-! ## Directives -/

/-- Lines are counted on behind the text in front. -/
theorem lineAt_behind (before rest : Bytes) (position : Nat) :
    lineAt (before ++ rest) (before.length + position)
      = newlines before + lineAt rest position := by
  rw [lineAt, lineAt, List.take_length_add_append, newlines_append, Nat.add_assoc]

theorem directive?_shift (before rest : Bytes) (statement : Statement) (target : Target) :
    directive? (before ++ rest) (statement.shift before.length) (target.shift before.length)
      = (directive? rest statement target).map (·.below (newlines before)) := by
  rw [directive?, directive?, Target.shift_text]
  by_cases hempty : target.text = []
  · rw [if_pos hempty, if_pos hempty, Option.map_none]
  · rw [if_neg hempty, if_neg hempty, Target.shift, lineAt_behind]
    rfl

theorem Statement.directives_shift (before rest : Bytes) (statement : Statement) :
    (statement.shift before.length).directives (before ++ rest)
      = (statement.directives rest).map (·.below (newlines before)) := by
  rw [Statement.directives, Statement.directives, List.map_filterMap]
  show (statement.targets.map (·.shift before.length)).filterMap _ = _
  rw [List.filterMap_map]
  apply List.filterMap_congr
  intro target _
  exact directive?_shift before rest statement target

/-- What is read behind other octets is what is read without them, further down. -/
theorem directivesIn_append (before rest : Bytes) :
    Grammar.directivesIn (before ++ rest) rest
      = (directives rest).map (·.below (newlines before)) := by
  have hshift := statements_shift before.length (Nat.le_refl rest.length)
  rw [Grammar.directivesIn, List.length_append, hshift, directives, List.flatMap_map,
    List.map_flatMap]
  apply List.flatMap_congr
  intro statement _
  exact statement.directives_shift before rest

end Stylesheet

end SheetImports
