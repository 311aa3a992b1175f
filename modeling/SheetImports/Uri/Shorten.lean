import SheetImports.Uri.Basic

/-!
# Short names

A uri below a base directory is shown as the rest of its path; every other uri is shown whole.
-/

namespace SheetImports.Uri

/-- The uri as it is shown from the directory `base`. The base itself, and everything seen from the
root, is shown whole. -/
def shorten (base uri : Text) : Text :=
  let base := base.trimEnd (· == '/')
  if base = [] then uri
  else
    match base.isPrefixOf? uri with
    | some ('/' :: c :: rest) => c :: rest
    | _ => uri

/-- A uri below the base is shown by what follows the slash. -/
theorem shorten_append {base : Text} (hbase : base.trimEnd (· == '/') ≠ []) (c : Char)
    (rest : Text) : shorten base (base.trimEnd (· == '/') ++ '/' :: c :: rest) = c :: rest := by
  have h : ∀ a b : Text, a.isPrefixOf? (a ++ b) = some b := by
    intro a b
    induction a with
    | nil => rfl
    | cons x a ih => exact (if_pos (beq_self_eq_true x)).trans ih
  simp [shorten, hbase, h]

end SheetImports.Uri
