import SheetImports.Stylesheet.Directive
import SheetImports.Text.Utf8.Lemmas

/-!
# The octets of a text

The scanner works on octets, and what is said about stylesheets is said in characters. An ASCII
character is one octet (`octet`), and every octet of another character is above the ASCII range. So
what holds of the ASCII characters of a text and of all high octets holds of all octets of the text
(`forall_mem_encode`), and a word begins the octets if and only if it begins the text in small
letters (`afterWord?_encode_of_eq`, `afterWord?_encode_eq_none`).
-/

namespace SheetImports

/-- That all elements of a list have a property is decided by going through the list. -/
theorem forall_mem_of_all {α : Type} {p : α → Prop} [DecidablePred p] {list : List α}
    (h : list.all (p ·) = true) : ∀ a ∈ list, p a := fun a ha =>
  of_decide_eq_true (List.all_eq_true.1 h a ha)

namespace Utf8

/-- The octet of an ASCII character. -/
def octet (c : Char) : UInt8 := UInt8.ofNat c.toNat

/-! ## One character -/

/-- An ASCII character is written as its own octet. -/
theorem utf8EncodeChar_of_lt {c : Char} (h : c.toNat < 0x80) :
    String.utf8EncodeChar c = [octet c] := by
  have hle : c.val.toNat ≤ 0x7f := Nat.le_of_lt_succ h
  simp only [String.utf8EncodeChar, if_pos hle]
  rfl

theorem le_of_mem_utf8EncodeChar {c : Char} (h : 0x80 ≤ c.toNat) {b : UInt8}
    (hb : b ∈ String.utf8EncodeChar c) : 0x80 ≤ b := by
  have hle : ¬ c.val.toNat ≤ 0x7f := Nat.not_le.2 h
  have hhigh : ∀ n : Nat, 0x80 ≤ n → n < 256 → (0x80 : UInt8) ≤ UInt8.ofNat n := by
    intro n hn hlt
    rw [UInt8.le_iff_toNat_le, UInt8.toNat_ofNat', Nat.mod_eq_of_lt hlt]
    exact hn
  simp only [String.utf8EncodeChar, if_neg hle] at hb
  split at hb
  · simp only [List.mem_cons, List.not_mem_nil, or_false] at hb
    rcases hb with rfl | rfl <;> exact hhigh _ (by omega) (by omega)
  · split at hb
    · simp only [List.mem_cons, List.not_mem_nil, or_false] at hb
      rcases hb with rfl | rfl | rfl <;> exact hhigh _ (by omega) (by omega)
    · simp only [List.mem_cons, List.not_mem_nil, or_false] at hb
      rcases hb with rfl | rfl | rfl | rfl <;> exact hhigh _ (by omega) (by omega)

/-- Only the first octet of a character may be ASCII. -/
theorem le_of_mem_tail_utf8EncodeChar {c : Char} {b : UInt8}
    (hb : b ∈ (String.utf8EncodeChar c).tail) : 0x80 ≤ b := by
  rcases Nat.lt_or_ge c.toNat 0x80 with hlt | hge
  · rw [utf8EncodeChar_of_lt hlt] at hb
    exact absurd hb List.not_mem_nil
  · exact le_of_mem_utf8EncodeChar hge (List.mem_of_mem_tail hb)

theorem octet_toNat {c : Char} (h : c.toNat < 0x80) : (octet c).toNat = c.toNat := by
  rw [octet, UInt8.toNat_ofNat', Nat.mod_eq_of_lt (by omega)]

theorem octet_injective {c d : Char} (hc : c.toNat < 0x80) (hd : d.toNat < 0x80)
    (h : octet c = octet d) : c = d := by
  have hnat : c.toNat = d.toNat := by rw [← octet_toNat hc, ← octet_toNat hd, h]
  rw [← Char.ofNat_toNat c, ← Char.ofNat_toNat d, hnat]

/-- What holds of the first 128 characters holds of every ASCII character. -/
theorem forall_ascii {p : Char → Prop} (h : ∀ n < 0x80, p (Char.ofNat n)) {c : Char}
    (hc : c.toNat < 0x80) : p c := by
  rw [← Char.ofNat_toNat c]
  exact h c.toNat hc

/-! ## Texts -/

@[simp] theorem encode_nil : encode [] = [] := rfl

theorem encode_cons (c : Char) (text : Text) :
    encode (c :: text) = String.utf8EncodeChar c ++ encode text := rfl

theorem encode_append (first second : Text) :
    encode (first ++ second) = encode first ++ encode second :=
  List.flatMap_append

theorem encode_cons_of_lt {c : Char} (h : c.toNat < 0x80) (text : Text) :
    encode (c :: text) = octet c :: encode text := by
  rw [encode_cons, utf8EncodeChar_of_lt h, List.singleton_append]

/-- A property of the octets above ASCII holds of a text if its ASCII characters have it. -/
theorem forall_mem_encode {p : UInt8 → Prop} {text : Text} (hhigh : ∀ b : UInt8, 0x80 ≤ b → p b)
    (hlow : ∀ c ∈ text, c.toNat < 0x80 → p (octet c)) : ∀ b ∈ encode text, p b := by
  intro b hb
  obtain ⟨c, hc, hbc⟩ := List.mem_flatMap.1 hb
  rcases Nat.lt_or_ge c.toNat 0x80 with hlt | hge
  · rw [utf8EncodeChar_of_lt hlt, List.mem_singleton] at hbc
    rw [hbc]
    exact hlow c hc hlt
  · exact hhigh b (le_of_mem_utf8EncodeChar hge hbc)

/-- An ASCII character that does not occur in a text is no octet of it. -/
theorem ne_octet_of_mem_encode {d : Char} (hd : d.toNat < 0x80) {text : Text} (h : d ∉ text) :
    ∀ b ∈ encode text, b ≠ octet d := by
  refine forall_mem_encode ?_ ?_
  · rintro b hb rfl
    rw [UInt8.le_iff_toNat_le, octet_toNat hd] at hb
    exact Nat.not_le.2 hd hb
  · intro c hc hlt heq
    exact h (octet_injective hlt hd heq ▸ hc)

theorem ne_octet_of_mem_char {c d : Char} (hd : d.toNat < 0x80) (h : c ≠ d) :
    ∀ b ∈ String.utf8EncodeChar c, b ≠ octet d := by
  have hall : ∀ b ∈ encode [c], b ≠ octet d := ne_octet_of_mem_encode hd (by simp [Ne.symm h])
  rwa [encode_cons, encode_nil, List.append_nil] at hall

theorem head?_encode_cons_ne {c d : Char} (hd : d.toNat < 0x80) (h : c ≠ d) (text : Text)
    (bytes : Bytes) : (encode (c :: text) ++ bytes).head? ≠ some (octet d) := by
  have hnot := ne_octet_of_mem_char hd h
  rw [encode_cons, List.append_assoc]
  cases hbytes : String.utf8EncodeChar c with
  | nil => exact absurd hbytes String.utf8EncodeChar_ne_nil
  | cons b others =>
    intro heq
    rw [hbytes] at hnot
    exact hnot b List.mem_cons_self (Option.some.inj heq)

/-- An ASCII character occurs among the octets as often as in the text. -/
theorem count_octet_encode {d : Char} (hd : d.toNat < 0x80) (text : Text) :
    (encode text).count (octet d) = text.count d := by
  induction text with
  | nil => rfl
  | cons c text ih =>
    rw [encode_cons, List.count_append, ih]
    by_cases hcd : c = d
    · subst hcd
      rw [utf8EncodeChar_of_lt hd, List.count_cons_self, List.count_cons_self, List.count_nil,
        Nat.zero_add, Nat.add_comm]
    · have hnot : octet d ∉ String.utf8EncodeChar c := fun hmem =>
        ne_octet_of_mem_char hd hcd _ hmem rfl
      rw [List.count_eq_zero.2 hnot, Nat.zero_add, List.count_cons_of_ne hcd]

end Utf8

namespace Stylesheet

open Utf8

/-! ## Octets that matter to the scanner -/

theorem isQuote_of_le {b : UInt8} (h : 0x80 ≤ b) : isQuote b = false := by
  rw [isQuote, Bool.or_eq_false_iff, beq_eq_false_iff_ne, beq_eq_false_iff_ne]
  exact ⟨by rintro rfl; exact absurd h (by decide), by rintro rfl; exact absurd h (by decide)⟩

theorem ne_of_high {b d : UInt8} (hd : d < 0x80) (h : 0x80 ≤ b) : b ≠ d := by
  rintro rfl
  exact absurd hd (UInt8.not_lt.2 h)

theorem lower_of_le {b : UInt8} (h : 0x80 ≤ b) : lower b = b := by
  have hnot : ¬ b ≤ 0x5A := by
    rw [UInt8.le_iff_toNat_le] at *
    simp at *
    omega
  simp [lower, hnot]

theorem isQuote_octet {c : Char} (hc : c.toNat < 0x80) :
    isQuote (octet c) = (c == '"' || c == '\'') :=
  forall_ascii (p := fun c => isQuote (octet c) = (c == '"' || c == '\'')) (by decide) hc

/-- Octets and characters change their letter case alike. -/
theorem lower_octet {c : Char} (hc : c.toNat < 0x80) : lower (octet c) = octet c.toLower :=
  forall_ascii (p := fun c => lower (octet c) = octet c.toLower) (by decide) hc

theorem newlines_encode (text : Text) : newlines (encode text) = text.count '\n' :=
  count_octet_encode (d := '\n') (by decide) text

/-! ## Words -/

theorem toLower_of_le {c : Char} (h : 0x80 ≤ c.toNat) : c.toLower = c := by
  have hnot : ¬ (c.val ≥ 'A'.val ∧ c.val ≤ 'Z'.val) := by
    rintro ⟨-, hle⟩
    have hnat : c.toNat ≤ 90 := UInt32.le_iff_toNat_le.1 hle
    omega
  exact dif_neg hnot

theorem lt_of_toLower_lt {c : Char} (h : c.toLower.toNat < 0x80) : c.toNat < 0x80 := by
  rcases Nat.lt_or_ge c.toNat 0x80 with hlt | hge
  · exact hlt
  · rwa [toLower_of_le hge] at h

/-- A word written in any letter case is found. -/
theorem afterWord?_encode_of_eq {word text : Text} (hword : ∀ c ∈ word, c.toNat < 0x80)
    (htext : text.map Char.toLower = word) (bytes : Bytes) :
    afterWord? (encode word) (encode text ++ bytes) = some bytes := by
  induction text generalizing word with
  | nil => subst htext; rfl
  | cons c text ih =>
    obtain rfl : c.toLower :: text.map Char.toLower = word := htext
    have hlower : c.toLower.toNat < 0x80 := hword _ List.mem_cons_self
    have hc : c.toNat < 0x80 := lt_of_toLower_lt hlower
    rw [encode_cons_of_lt hlower, encode_cons_of_lt hc, List.cons_append, afterWord?,
      if_pos (lower_octet hc)]
    exact ih (fun d hd => hword d (List.mem_cons_of_mem _ hd)) rfl

theorem afterWord?_cons_eq_none {w c : Char} (hw : w.toNat < 0x80) (hc : c.toLower ≠ w)
    (word bytes : Bytes) (text : Text) :
    afterWord? (octet w :: word) (encode (c :: text) ++ bytes) = none := by
  rw [encode_cons, List.append_assoc]
  rcases Nat.lt_or_ge c.toNat 0x80 with hlt | hge
  · rw [utf8EncodeChar_of_lt hlt, List.singleton_append]
    refine if_neg fun heq => hc ?_
    rw [lower_octet hlt] at heq
    refine octet_injective ?_ hw heq
    exact forall_ascii (p := fun c => c.toLower.toNat < 0x80) (by decide) hlt
  · cases hbytes : String.utf8EncodeChar c with
    | nil => exact absurd hbytes String.utf8EncodeChar_ne_nil
    | cons b rest =>
      have hb : 0x80 ≤ b := le_of_mem_utf8EncodeChar hge (hbytes ▸ List.mem_cons_self)
      refine if_neg fun heq => ?_
      rw [lower_of_le hb] at heq
      rw [heq, UInt8.le_iff_toNat_le, octet_toNat hw] at hb
      exact Nat.not_le.2 hw hb

/-- A word is not found where the text does not begin with it, if what follows the text cannot go
on with the word. -/
theorem afterWord?_encode_eq_none {word text : Text} (hword : ∀ c ∈ word, c.toNat < 0x80)
    (htext : ¬ word <+: text.map Char.toLower) {bytes : Bytes}
    (hbytes : ∀ b ∈ bytes.head?, ∀ c ∈ word, lower b ≠ octet c) :
    afterWord? (encode word) (encode text ++ bytes) = none := by
  induction text generalizing word with
  | nil =>
    cases word with
    | nil => exact absurd List.nil_prefix htext
    | cons w word =>
      rw [encode_cons_of_lt (hword w List.mem_cons_self), encode_nil, List.nil_append]
      cases bytes with
      | nil => rfl
      | cons b bytes => exact if_neg (hbytes b rfl w List.mem_cons_self)
  | cons c text ih =>
    cases word with
    | nil => exact absurd List.nil_prefix htext
    | cons w word =>
      have hw : w.toNat < 0x80 := hword w List.mem_cons_self
      rw [encode_cons_of_lt hw]
      by_cases hc : c.toLower = w
      · have hlt : c.toNat < 0x80 := lt_of_toLower_lt (hc ▸ hw)
        rw [encode_cons_of_lt hlt, List.cons_append, afterWord?,
          if_pos ((lower_octet hlt).trans (congrArg octet hc))]
        refine ih (fun d hd => hword d (List.mem_cons_of_mem _ hd)) (fun hprefix => htext ?_)
          (fun b hb d hd => hbytes b hb d (List.mem_cons_of_mem _ hd))
        rw [List.map_cons, hc]
        exact List.prefix_cons_inj w |>.2 hprefix
      · exact afterWord?_cons_eq_none hw hc _ _ _

end Stylesheet

end SheetImports
