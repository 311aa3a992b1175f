import SheetImports.Proofs.Characters
import SheetImports.Proofs.RoundTrip

/-!
# Steps of the scan for statements

The second scan passes octets, literals and urls. What each of these steps preserves is preserved as
far as the end of the targets of a statement (`Carried.targets`); how the scan comes to the end of
the statement is a step of another kind. Being an end of the octets that the scan began with is such
a property, and every turn of a loop of the scan passes at least one octet (`Advances`), so the scan
ends.
-/

namespace SheetImports.Stylesheet

/-! ## Octets that the scan passes one by one -/

theorem isQuote_of_isGap {b : UInt8} (h : isGap b = true) : isQuote b = false := by
  simp only [isGap, Bool.or_eq_true, beq_iff_eq] at h
  rcases h with (((rfl | rfl) | rfl) | rfl) | rfl <;> rfl

theorem lt_of_isGap {b : UInt8} (h : isGap b = true) : b < 0x80 := by
  by_contra hge
  rw [Grammar.isGap_of_le (UInt8.not_lt.1 hge)] at h
  cases h

theorem lt_of_isTerminator (b : UInt8) (h : (!isTerminator b) = false) : b < 0x80 := by
  by_contra hge
  rw [Grammar.isTerminator_of_le (UInt8.not_lt.1 hge)] at h
  cases h

/-- The letters of a word are neither quotes nor gaps. -/
theorem plain_of_lower {b : UInt8} (h : lower b ∈ urlWord ++ importWord) :
    isQuote b = false ∧ isGap b = false := by
  constructor
  · by_contra hquote
    simp only [isQuote, Bool.not_eq_false, Bool.or_eq_true, beq_iff_eq] at hquote
    rcases hquote with rfl | rfl <;> exact absurd h (by decide)
  · by_contra hgap
    simp only [isGap, Bool.not_eq_false, Bool.or_eq_true, beq_iff_eq] at hgap
    rcases hgap with (((rfl | rfl) | rfl) | rfl) | rfl <;> exact absurd h (by decide)

theorem lt_of_lower {b : UInt8} (h : lower b ∈ urlWord ++ importWord) : b < 0x80 := by
  apply lt_of_lower_lt
  rcases List.mem_append.1 h with hurl | himport
  · exact urlWord_lt _ hurl
  · exact importWord_lt _ himport

/-! ## What the steps preserve -/

/-- What holds of the octets that are to be scanned, and still holds when the scan has passed an
octet, a literal or a url. -/
structure Carried (P : Bytes → Prop) : Prop where
  tail : ∀ {b : UInt8} {bytes : Bytes}, P (b :: bytes) → isQuote b = false → b < 0x80 → P bytes
  literal : ∀ {b : UInt8} {bytes : Bytes}, P (b :: bytes) → isQuote b = true →
    P (literalTail b bytes).2
  url : ∀ {bytes after : Bytes}, P bytes → afterWord? urlWord bytes = some after →
    P (afterUrl after)

section Steps

variable {P : Bytes → Prop} {b : UInt8} {bytes after rest : Bytes}

/-- A word holds neither quotes nor octets above ASCII, so it is passed octet by octet. -/
theorem carried_word (htail : ∀ {b : UInt8} {bytes : Bytes}, P (b :: bytes) → isQuote b = false →
      b < 0x80 → P bytes) {word : Bytes} (hword : ∀ w ∈ word, w ∈ urlWord ++ importWord)
    (h : P bytes) (hafter : afterWord? word bytes = some after) : P after := by
  fun_induction afterWord? word bytes with
  | case1 bytes =>
    obtain rfl := Option.some.inj hafter
    exact h
  | case2 => cases hafter
  | case3 word b bytes ih =>
    have hb := hword _ List.mem_cons_self
    apply ih
    · intro w hw
      exact hword w (List.mem_cons_of_mem _ hw)
    · exact htail h (plain_of_lower hb).1 (lt_of_lower hb)
    · exact hafter
  | case4 => cases hafter

namespace Carried

theorem dropWhile_isGap (hP : Carried P) (h : P bytes) : P (bytes.dropWhile isGap) := by
  induction bytes with
  | nil => exact h
  | cons b bytes ih =>
    cases hb : isGap b with
    | true =>
      rw [List.dropWhile_cons_of_pos hb]
      exact ih (hP.tail h (isQuote_of_isGap hb) (lt_of_isGap hb))
    | false => rwa [List.dropWhile_cons_of_neg (by simp [hb])]

theorem afterImport? (hP : Carried P) (h : P (b :: bytes))
    (hafter : Stylesheet.afterImport? b bytes = some after) : P after := by
  obtain rfl := eq_atSign_of_afterImport? hafter
  rw [Stylesheet.afterImport?, if_pos rfl] at hafter
  apply carried_word hP.tail
  · intro w hw
    exact List.mem_append_right _ hw
  · exact hP.tail h (by decide) (by decide)
  · exact (Option.filter_eq_some_iff.1 hafter).1

theorem target? (hP : Carried P) {size : Nat} {target : Target} (h : P bytes)
    (htarget : Stylesheet.target? size bytes = some (target, rest)) : P rest := by
  cases bytes with
  | nil => cases htarget
  | cons b bytes =>
    simp only [Stylesheet.target?] at htarget
    split at htarget
    next hquote =>
      obtain ⟨-, rfl⟩ := Prod.mk.inj (Option.some.inj htarget)
      exact hP.literal h hquote
    next =>
      obtain ⟨after, hafter, heq⟩ := Option.map_eq_some_iff.1 htarget
      obtain ⟨-, rfl⟩ := Prod.mk.inj heq
      exact hP.url h hafter

/-- A list of targets is passed literal by literal and url by url. -/
theorem targets (hP : Carried P) (size : Nat) (h : P bytes) :
    P (Stylesheet.targets size bytes).2 := by
  fun_induction Stylesheet.targets size bytes with
  | case1 bytes _ => exact hP.dropWhile_isGap h
  | case2 bytes t rest ht _ _ => exact hP.target? (hP.dropWhile_isGap h) ht
  | case3 bytes t rest ht _ more hmore _ ih =>
    have hcomma := hP.dropWhile_isGap (hP.target? (hP.dropWhile_isGap h) ht)
    rw [hmore] at hcomma
    exact ih (hP.tail hcomma (by decide) (by decide))
  | case4 bytes t rest ht _ b more _ _ _ => exact hP.target? (hP.dropWhile_isGap h) ht

/-- What holds where a statement ends holds behind its semicolon. -/
theorem afterStatement (hP : Carried P) (h : P (bytes.dropWhile (!isTerminator ·))) :
    P (Stylesheet.afterStatement bytes) := by
  simp only [Stylesheet.afterStatement]
  split
  next hsemicolon =>
    obtain ⟨rest, hrest⟩ := List.head?_eq_some_iff.1 hsemicolon
    rw [hrest] at h ⊢
    exact hP.tail h (by decide) (by decide)
  next => exact h

end Carried

end Steps

/-! ## Turns of the loops -/

/-- A scan of the octets that goes on at the rest has passed at least one of them. -/
structure Advances (bytes rest : Bytes) : Prop where
  suffix : rest <:+ bytes
  shorter : rest.length < bytes.length

theorem carried_suffix (bytes : Bytes) : Carried (· <:+ bytes) where
  tail h _ _ := (List.suffix_cons _ _).trans h
  literal {b rest} h _ :=
    List.IsSuffix.trans ⟨_, literalTail_append b rest⟩ ((List.suffix_cons b rest).trans h)
  url h hafter :=
    ((List.drop_suffix 1 _).trans (List.dropWhile_suffix _)).trans
      (List.IsSuffix.trans ⟨_, (eq_append_of_afterWord? hafter).symm⟩ h)

section Turns

variable {size : Nat} {b : UInt8} {bytes rest : Bytes} {target : Target}

/-- A turn of the first scan passes a piece. -/
theorem advances_next (b : UInt8) (bytes : Bytes) : Advances (b :: bytes) (next b bytes).2 where
  suffix := ⟨_, source_next_append b bytes⟩
  shorter := length_next_lt b bytes

/-- What a turn of the scan for statements finds at the octet `b`, and where the next one begins. -/
def turn (size : Nat) (b : UInt8) (bytes : Bytes) : Option Statement × Bytes :=
  if isQuote b then (none, (literalTail b bytes).2)
  else
    match afterImport? b bytes with
    | some after =>
      (some (statement size (size - (b :: bytes).length) after),
        afterStatement (targets size after).2)
    | none => (none, bytes)

theorem statements_cons (size : Nat) (b : UInt8) (bytes : Bytes) :
    statements size (b :: bytes)
      = (turn size b bytes).1.toList ++ statements size (turn size b bytes).2 := by
  rw [statements, turn]
  split
  · rfl
  · split <;> simp_all

/-- A turn of the second scan passes an octet, a literal or a statement. -/
theorem advances_turn (size : Nat) (b : UInt8) (bytes : Bytes) :
    Advances (b :: bytes) (turn size b bytes).2 := by
  have hcarried := carried_suffix (b :: bytes)
  have hwhole : b :: bytes <:+ b :: bytes := List.suffix_refl _
  unfold turn
  split
  next hquote =>
    exact ⟨hcarried.literal hwhole hquote, Nat.lt_succ_of_le (length_literalTail_le b bytes)⟩
  next =>
    split
    next after hafter =>
      have hrest := hcarried.targets size (hcarried.afterImport? hwhole hafter)
      constructor
      · exact hcarried.afterStatement ((List.dropWhile_suffix _).trans hrest)
      · have hstatement := length_afterStatement_le (targets size after).2
        have htargets := length_targets_le size after
        have hkeyword := length_of_afterImport? hafter
        show (afterStatement (targets size after).2).length < bytes.length + 1
        omega
    next => exact ⟨List.suffix_cons b bytes, Nat.lt_succ_self _⟩

/-- A turn of the loop over the targets of a statement: it leaves the loop, or a comma asks for
another target. -/
inductive TargetTurn where
  | leave (last : Option Target) (rest : Bytes)
  | goOn (target : Target) (rest : Bytes)

def targetTurn (size : Nat) (bytes : Bytes) : TargetTurn :=
  match target? size (bytes.dropWhile isGap) with
  | none => .leave none (bytes.dropWhile isGap)
  | some (target, rest) =>
    match rest.dropWhile isGap with
    | [] => .leave (some target) rest
    | b :: more => if b = comma then .goOn target more else .leave (some target) rest

theorem targets_eq (size : Nat) (bytes : Bytes) :
    targets size bytes =
      match targetTurn size bytes with
      | .leave last rest => (last.toList, rest)
      | .goOn target rest => (target :: (targets size rest).1, (targets size rest).2) := by
  fun_cases targets size bytes with
  | case1 hnone => simp only [targetTurn, hnone, Option.toList_none]
  | case2 t rest ht _ hrest => simp only [targetTurn, ht, hrest, Option.toList_some]
  | case3 t rest ht _ more hmore _ => simp only [targetTurn, ht, hmore, ↓reduceIte]
  | case4 t rest ht _ b more hmore _ hb =>
    simp only [targetTurn, ht, hmore, hb, ↓reduceIte, Option.toList_some]

/-- A turn of the list that goes on passes a target and a comma. -/
theorem advances_targetTurn (h : targetTurn size bytes = .goOn target rest) :
    Advances bytes rest := by
  have hcarried := carried_suffix bytes
  unfold targetTurn at h
  split at h
  next => cases h
  next found left hfound =>
    split at h
    next => cases h
    next b more hmore =>
      split at h
      next =>
        obtain ⟨-, rfl⟩ := TargetTurn.goOn.inj h
        have hleft := hcarried.target? (hcarried.dropWhile_isGap (List.suffix_refl _)) hfound
        have hcomma := hcarried.dropWhile_isGap hleft
        rw [hmore] at hcomma
        exact ⟨(List.suffix_cons b more).trans hcomma, hcomma.length_le⟩
      next => cases h

end Turns

end SheetImports.Stylesheet
