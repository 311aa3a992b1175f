import SheetImports.Text.Basic

/-!
# Bounded texts

There are finitely many texts of at most a given length. `countUpTo` is a bound on their number, and
`exists_list_upTo` lists them all.
-/

namespace SheetImports.Text

/-- The number of code points. Every character is one of them. -/
def codePoints : Nat := 0x110000

/-- At least as many as there are texts of at most `length` characters. -/
def countUpTo (length : Nat) : Nat := (codePoints + 1).pow length

/-- The characters are finitely many. -/
theorem exists_list_chars :
    ∃ characters : List Char, characters.length = codePoints ∧ ∀ c, c ∈ characters := by
  refine ⟨(List.range codePoints).map Char.ofNat, by simp, fun c => ?_⟩
  refine List.mem_map.2 ⟨c.toNat, List.mem_range.2 ?_, Char.ofNat_toNat c⟩
  rcases c.valid with h | h <;> simp only [Char.toNat, codePoints] <;> omega

/-- The texts of at most a given length are finitely many. -/
theorem exists_list_upTo (length : Nat) :
    ∃ texts : List Text, texts.length ≤ countUpTo length ∧
      ∀ text : Text, text.length ≤ length → text ∈ texts := by
  obtain ⟨characters, hcount, hall⟩ := exists_list_chars
  induction length with
  | zero => exact ⟨[[]], by simp [countUpTo], fun text h => by simpa using h⟩
  | succ length ih =>
    obtain ⟨texts, hlength, hmem⟩ := ih
    refine ⟨[] :: characters.flatMap fun c => texts.map (c :: ·), ?_, fun text h => ?_⟩
    · have hpos : 1 ≤ countUpTo length := Nat.one_le_pow _ _ (Nat.succ_pos _)
      have hmul := Nat.mul_le_mul_left codePoints hlength
      have hsum : (characters.flatMap fun c => texts.map (c :: ·)).length
          = codePoints * texts.length := by
        simp only [List.length_flatMap, List.length_map, List.map_const', List.sum_replicate_nat,
          hcount]
      have hstep : countUpTo (length + 1) = codePoints * countUpTo length + countUpTo length := by
        show countUpTo length * (codePoints + 1) = _
        rw [Nat.mul_comm, Nat.add_mul, Nat.one_mul]
      rw [List.length_cons, hsum, hstep]
      omega
    · cases text with
      | nil => exact List.mem_cons_self
      | cons c text =>
        refine List.mem_cons_of_mem _ (List.mem_flatMap.2 ⟨c, hall c, ?_⟩)
        exact List.mem_map.2 ⟨text, hmem text (Nat.le_of_succ_le_succ h), rfl⟩

end SheetImports.Text
