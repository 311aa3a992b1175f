import Mathlib.Data.List.Induction
import Mathlib.Data.Nat.Digits.Defs
import SheetImports.Command.Args

/-!
# What the command line takes

The arguments of the command are phrases one after the other: an option alone, an option with its
value in the next argument or in the same one, or a file. How many arguments a phrase takes shows in
its first one (`Writes.span_eq`), so arguments can be read as phrases in one way at most. They are
accepted if there is one, and if it does not ask for a depth without following (`parse_phrases`).
-/

namespace SheetImports.Command

/-! ## Numbers -/

/-- Decimal digits that write a number of 64 bits. -/
structure Decimal (digits : Text) (n : Nat) : Prop where
  ne_nil : digits ≠ []
  isDigit : ∀ c ∈ digits, Text.isDigit c = true
  value : Nat.ofDigits 10 (digits.reverse.map Text.digitValue) = n
  fits : n < 2 ^ 64

/-- A number as an argument writes it, after a plus sign or not. -/
inductive Numeral : Text → Nat → Prop
  | plain {digits : Text} {n : Nat} (h : Decimal digits n) : Numeral digits n
  | plus {digits : Text} {n : Nat} (h : Decimal digits n) : Numeral ('+' :: digits) n

theorem natValue_eq_ofDigits (digits : Text) :
    Text.natValue digits = Nat.ofDigits 10 (digits.reverse.map Text.digitValue) := by
  induction digits using List.reverseRecOn with
  | nil => rfl
  | append_singleton digits c ih =>
    rw [List.reverse_concat, List.map_cons, Nat.ofDigits_cons, ← ih, Text.natValue,
      List.foldl_append, List.foldl_cons, List.foldl_nil, Text.natValue]
    exact (Nat.add_comm _ _).trans (congrArg _ (Nat.mul_comm _ _))

theorem decimal_iff {digits : Text} {n : Nat} :
    Decimal digits n ↔ (digits ≠ [] ∧ digits.all Text.isDigit = true ∧
      Text.natValue digits ≤ maxNumber) ∧ Text.natValue digits = n := by
  rw [natValue_eq_ofDigits, List.all_eq_true, maxNumber, UInt64.size]
  constructor
  · rintro ⟨hne, hdigits, rfl, hfits⟩
    exact ⟨⟨hne, hdigits, by omega⟩, rfl⟩
  · rintro ⟨⟨hne, hdigits, hfits⟩, rfl⟩
    exact ⟨hne, hdigits, rfl, by omega⟩

/-- A number is an optional plus sign and decimal digits whose value fits 64 bits, and nothing else
is one. -/
theorem number?_eq_some_iff {argument : Text} {n : Nat} :
    number? argument = some n ↔ Numeral argument n := by
  have hnumber : ∀ {digits : Text}, (['+'].isPrefixOf? argument).getD argument = digits →
      (number? argument = some n ↔ Decimal digits n) := by
    rintro digits rfl
    rw [decimal_iff, number?, Option.ite_none_right_eq_some, Option.some_inj]
  cases argument with
  | nil =>
    rw [hnumber rfl]
    constructor
    · exact .plain
    · rintro (⟨h⟩ | ⟨h⟩)
      exact h
  | cons c digits =>
    by_cases hplus : c = '+'
    · subst hplus
      rw [hnumber rfl]
      constructor
      · exact .plus
      · rintro (⟨h⟩ | ⟨h⟩)
        · exact absurd (h.isDigit '+' List.mem_cons_self) (by decide)
        · exact h
    · have hrest : (['+'].isPrefixOf? (c :: digits)).getD (c :: digits) = c :: digits := by
        cases hprefix : ['+'].isPrefixOf? (c :: digits) with
        | none => rfl
        | some rest =>
          exact absurd (List.cons.inj (Text.append_of_isPrefixOf? hprefix)).1.symm hplus
      rw [hnumber hrest]
      constructor
      · exact .plain
      · rintro (⟨h⟩ | ⟨h⟩)
        · exact h
        · exact absurd rfl hplus

theorem depth?_eq_ok_iff {argument : Text} {n : Nat} :
    depth? argument = .ok n ↔ Numeral argument n ∧ 1 ≤ n := by
  rw [← number?_eq_some_iff, depth?]
  cases number? argument with
  | none => simp
  | some m =>
    cases m with
    | zero => simp; omega
    | succ m => simp; omega

/-! ## Phrases -/

/-- The arguments that write an item. -/
inductive Writes : List Text → Item → Prop
  | noFollow : Writes ["--no-follow".toList] .noFollow
  | showCandidates : Writes ["--candidates".toList] .showCandidates
  | includePath {option directory : Text}
      (hoption : option = "-I".toList ∨ option = "--include-path".toList) :
    Writes [option, directory] (.includePath directory)
  | gluedPath {directory : Text} (hne : directory ≠ []) :
    Writes ["-I".toList ++ directory] (.includePath directory)
  | depth {option number : Text} {levels : Nat}
      (hoption : option = "-d".toList ∨ option = "--depth".toList)
      (hnumber : Numeral number levels) (hpos : 1 ≤ levels) :
    Writes [option, number] (.depth levels)
  | file {name : Text} (hname : name.head? ≠ some '-') : Writes [name] (.file name)

/-- An item with arguments that write it. -/
@[ext]
structure Phrase where
  arguments : List Text
  item : Item
  writes : Writes arguments item

/-- The arguments are the phrases one after the other. -/
def Spells (phrases : List Phrase) (arguments : List Text) : Prop :=
  phrases.flatMap Phrase.arguments = arguments

/-- The arguments of one phrase are read as its item, whatever stands behind them. -/
theorem Writes.items_append {arguments : List Text} {item : Item} (h : Writes arguments item)
    (others : List Text) : items (arguments ++ others) = (items others).map (item :: ·) := by
  cases h with
  | noFollow =>
    rw [List.singleton_append, items.eq_def]
    rfl
  | showCandidates =>
    rw [List.singleton_append, items.eq_def]
    rfl
  | includePath hoption => rcases hoption with rfl | rfl <;> rfl
  | @gluedPath directory hne =>
    obtain ⟨c, directory, rfl⟩ := List.exists_cons_of_ne_nil hne
    rw [List.singleton_append, items.eq_def]
    rfl
  | depth hoption hnumber hpos =>
    have hdepth := depth?_eq_ok_iff.2 ⟨hnumber, hpos⟩
    rcases hoption with rfl | rfl <;> simp [items, hdepth]
  | @file name hname =>
    have hoption : ∀ option : Text, option.head? = some '-' → name ≠ option := by
      rintro option hoption rfl
      exact hname hoption
    have hglued : "-I".toList.isPrefixOf? name = none := by
      cases hprefix : "-I".toList.isPrefixOf? name with
      | none => rfl
      | some directory => exact absurd (Text.append_of_isPrefixOf? hprefix).symm (hoption _ rfl)
    rw [List.singleton_append, items.eq_def]
    dsimp only
    rw [if_neg (hoption _ rfl), if_neg (hoption _ rfl),
      if_neg (not_or.2 ⟨hoption _ rfl, hoption _ rfl⟩),
      if_neg (not_or.2 ⟨hoption _ rfl, hoption _ rfl⟩), hglued, if_neg hname]

theorem items_of_spells {phrases : List Phrase} {arguments : List Text}
    (h : Spells phrases arguments) : items arguments = .ok (phrases.map Phrase.item) := by
  subst h
  induction phrases with
  | nil => rfl
  | cons phrase phrases ih =>
    rw [List.flatMap_cons, phrase.writes.items_append, ih]
    rfl

/-- A phrase goes before the phrases of the arguments behind it. -/
theorem Writes.exists_spells {arguments others : List Text} {item : Item} {found : List Item}
    (h : Writes arguments item)
    (hothers : ∀ {found : List Item}, items others = .ok found →
      ∃ phrases, Spells phrases others ∧ phrases.map Phrase.item = found)
    (hfound : (items others).map (item :: ·) = .ok found) :
    ∃ phrases, Spells phrases (arguments ++ others) ∧ phrases.map Phrase.item = found := by
  cases hitems : items others with
  | error error =>
    rw [hitems] at hfound
    cases hfound
  | ok found' =>
    rw [hitems] at hfound
    obtain ⟨phrases, rfl, rfl⟩ := hothers hitems
    exact ⟨⟨arguments, item, h⟩ :: phrases, List.flatMap_cons, Except.ok.inj hfound⟩

/-- Arguments are accepted only if they are phrases, one after the other. -/
theorem exists_spells_of_items {arguments : List Text} {found : List Item}
    (h : items arguments = .ok found) :
    ∃ phrases, Spells phrases arguments ∧ phrases.map Phrase.item = found := by
  -- one case for each phrase that may come first; all others end in an error
  fun_induction items arguments generalizing found with
  | case1 => exact ⟨[], rfl, Except.ok.inj h⟩
  | case2 arguments ih => exact Writes.noFollow.exists_spells ih h
  | case3 arguments _ ih => exact Writes.showCandidates.exists_spells ih h
  | case5 option _ _ hoption directory arguments ih =>
    exact (Writes.includePath hoption.symm).exists_spells ih h
  | case8 option _ _ _ hoption number arguments levels hdepth ih =>
    obtain ⟨hnumber, hpos⟩ := depth?_eq_ok_iff.1 hdepth
    exact (Writes.depth hoption.symm hnumber hpos).exists_spells ih h
  | case9 argument arguments _ _ hoption _ directory hglued ih =>
    obtain rfl := Text.append_of_isPrefixOf? hglued
    refine (Writes.gluedPath ?_).exists_spells ih h
    rintro rfl
    exact hoption (Or.inr (List.append_nil _))
  | case11 name arguments _ _ _ _ _ hname ih => exact (Writes.file hname).exists_spells ih h
  | _ => cases h

/-! ## One way to read them -/

/-- The options that have their value in the next argument. -/
def valueOptions : List Text :=
  ["-I".toList, "--include-path".toList, "-d".toList, "--depth".toList]

/-- How many arguments a phrase takes that begins with the given one. -/
def span (first : Text) : Nat := if valueOptions.any (first = ·) then 2 else 1

/-- The first argument of a phrase says how many it takes. -/
theorem Writes.span_eq {arguments : List Text} {item : Item} (h : Writes arguments item) :
    ∃ first more, arguments = first :: more ∧ span first = arguments.length := by
  cases h with
  | noFollow => exact ⟨_, _, rfl, by decide⟩
  | showCandidates => exact ⟨_, _, rfl, by decide⟩
  | includePath hoption => exact ⟨_, _, rfl, by rcases hoption with rfl | rfl <;> rfl⟩
  | depth hoption => exact ⟨_, _, rfl, by rcases hoption with rfl | rfl <;> rfl⟩
  | @gluedPath directory hne =>
    refine ⟨_, _, rfl, if_neg fun hmem => ?_⟩
    obtain ⟨c, directory, rfl⟩ := List.exists_cons_of_ne_nil hne
    simp [valueOptions] at hmem
  | @file name hname =>
    refine ⟨_, _, rfl, if_neg fun hmem => ?_⟩
    have hoption : ∀ option ∈ valueOptions, option.head? = some '-' := by decide
    obtain ⟨option, hmem, hname'⟩ := List.any_eq_true.1 hmem
    exact hname (of_decide_eq_true hname' ▸ hoption option hmem)

/-- So two readings of the same arguments begin with the same phrase. -/
theorem Phrase.eq_of_append {phrase phrase' : Phrase} {others others' : List Text}
    (h : phrase.arguments ++ others = phrase'.arguments ++ others') :
    phrase = phrase' ∧ others = others' := by
  obtain ⟨first, more, hfirst, hspan⟩ := phrase.writes.span_eq
  obtain ⟨first', more', hfirst', hspan'⟩ := phrase'.writes.span_eq
  have hsame : first = first' := by
    rw [hfirst, hfirst'] at h
    exact (List.cons.inj h).1
  obtain ⟨harguments, hothers⟩ := List.append_inj h (by rw [← hspan, ← hspan', hsame])
  have hitem : ∀ phrase : Phrase, items phrase.arguments = .ok [phrase.item] := by
    intro phrase
    have hphrase := phrase.writes.items_append []
    rwa [List.append_nil] at hphrase
  refine ⟨Phrase.ext harguments ?_, hothers⟩
  have hitems := (hitem phrase).symm.trans (harguments ▸ hitem phrase')
  exact (List.cons.inj (Except.ok.inj hitems)).1

theorem Spells.unique {phrases phrases' : List Phrase} {arguments : List Text}
    (h : Spells phrases arguments) (h' : Spells phrases' arguments) : phrases = phrases' := by
  have hne : ∀ (phrase : Phrase) (others : List Text), phrase.arguments ++ others ≠ [] := by
    intro phrase others
    obtain ⟨first, more, hfirst, -⟩ := phrase.writes.span_eq
    simp [hfirst]
  induction phrases generalizing phrases' arguments with
  | nil =>
    cases phrases' with
    | nil => rfl
    | cons phrase' phrases' => exact absurd (h'.trans h.symm) (hne phrase' _)
  | cons phrase phrases ih =>
    cases phrases' with
    | nil => exact absurd (h.trans h'.symm) (hne phrase _)
    | cons phrase' phrases' =>
      obtain ⟨rfl, hothers⟩ := Phrase.eq_of_append (h.trans h'.symm)
      rw [ih rfl hothers.symm]

/-! ## What is asked for -/

/-- The items do not ask for a depth without following. -/
def Compatible (items : List Item) : Prop :=
  ¬ (.noFollow ∈ items ∧ ∃ levels, .depth levels ∈ items)

def Item.directory? : Item → Option Text
  | includePath directory => some directory
  | _ => none

def Item.levels? : Item → Option Nat
  | depth levels => some levels
  | _ => none

theorem Item.levels?_eq_some {item : Item} {levels : Nat} :
    item.levels? = some levels ↔ item = .depth levels := by
  cases item <;> simp [levels?]

def Item.file? : Item → Option Text
  | file name => some name
  | _ => none

/-- An invocation is what the items ask for: directories and files in order, the last depth, and
each flag if its item is there. -/
structure Asks (items : List Item) (invocation : Invocation) : Prop where
  includePaths : invocation.includePaths = items.filterMap Item.directory?
  depth : invocation.depth = (items.filterMap Item.levels?).getLast?
  noFollow : invocation.noFollow = true ↔ .noFollow ∈ items
  showCandidates : invocation.showCandidates = true ↔ .showCandidates ∈ items
  files : invocation.files = items.filterMap Item.file?

theorem asks_iff {items : List Item} {invocation : Invocation} :
    Asks items invocation ↔ .ofItems items = invocation := by
  constructor
  · intro h
    cases invocation
    obtain ⟨rfl, rfl, hnoFollow, hshowCandidates, rfl⟩ := h
    have hflag : ∀ {item : Item} {flag : Bool}, (flag = true ↔ item ∈ items) →
        items.contains item = flag := by
      intro item flag hflag
      rw [Bool.eq_iff_iff, List.contains_iff_mem, hflag]
    rw [Invocation.ofItems, hflag hnoFollow, hflag hshowCandidates]
    rfl
  · rintro rfl
    exact ⟨rfl, rfl, List.contains_iff_mem, List.contains_iff_mem, rfl⟩

/-- The contradiction that items may hold is seen in the invocation that they ask for. -/
theorem compatible_iff {items : List Item} :
    Compatible items ↔
      ¬ ((Invocation.ofItems items).noFollow = true ∧ (Invocation.ofItems items).depth.isSome) := by
  have hasks : Asks items (.ofItems items) := asks_iff.2 rfl
  have hdepth : (∃ levels, .depth levels ∈ items)
      ↔ (Invocation.ofItems items).depth.isSome = true := by
    rw [hasks.depth, List.getLast?_isSome]
    constructor
    · rintro ⟨levels, hmem⟩
      exact List.ne_nil_of_mem (List.mem_filterMap.2 ⟨_, hmem, rfl⟩)
    · intro hne
      obtain ⟨levels, hlevels⟩ := List.exists_mem_of_ne_nil _ hne
      obtain ⟨item, hmem, hitem⟩ := List.mem_filterMap.1 hlevels
      exact ⟨levels, Item.levels?_eq_some.1 hitem ▸ hmem⟩
  rw [Compatible, hasks.noFollow, hdepth]

theorem parse_eq_ok_iff {arguments : List Text} {invocation : Invocation} :
    parse arguments = .ok invocation ↔
      ∃ found, items arguments = .ok found ∧ Compatible found ∧ Asks found invocation := by
  unfold parse
  cases items arguments with
  | error error => simp
  | ok found =>
    simp only [Except.ok.injEq, exists_eq_left', compatible_iff, asks_iff]
    split <;> simp_all

/-- Arguments are accepted if they are phrases one after the other that do not ask for a depth
without following. The phrases are then the only ones that make up the arguments, and the invocation
is what their items ask for. In every other case there is an error. -/
theorem parse_phrases (arguments : List Text) :
    (∀ invocation, parse arguments = .ok invocation ↔
      ∃ phrases, Spells phrases arguments ∧ Compatible (phrases.map Phrase.item) ∧
        Asks (phrases.map Phrase.item) invocation) ∧
    ((∃ error, parse arguments = .error error) ↔
      ¬ ∃ phrases, Spells phrases arguments ∧ Compatible (phrases.map Phrase.item)) ∧
    ∀ phrases phrases', Spells phrases arguments → Spells phrases' arguments →
      phrases = phrases' := by
  have hok : ∀ invocation, parse arguments = .ok invocation ↔
      ∃ phrases, Spells phrases arguments ∧ Compatible (phrases.map Phrase.item) ∧
        Asks (phrases.map Phrase.item) invocation := by
    intro invocation
    rw [parse_eq_ok_iff]
    constructor
    · rintro ⟨found, hitems, hcompatible, hasks⟩
      obtain ⟨phrases, hspells, rfl⟩ := exists_spells_of_items hitems
      exact ⟨phrases, hspells, hcompatible, hasks⟩
    · rintro ⟨phrases, hspells, hcompatible, hasks⟩
      exact ⟨_, items_of_spells hspells, hcompatible, hasks⟩
  refine ⟨hok, ?_, fun phrases phrases' h h' => h.unique h'⟩
  constructor
  · rintro ⟨error, herror⟩ ⟨phrases, hspells, hcompatible⟩
    have haccepted := (hok _).2 ⟨phrases, hspells, hcompatible, asks_iff.2 rfl⟩
    cases herror.symm.trans haccepted
  · intro hnone
    cases hparse : parse arguments with
    | error error => exact ⟨error, rfl⟩
    | ok invocation =>
      obtain ⟨phrases, hspells, hcompatible, -⟩ := (hok invocation).1 hparse
      exact absurd ⟨phrases, hspells, hcompatible⟩ hnone

/-- A value that looks like an option, one in the same argument, and two depths. -/
def mixedPhrases : List Phrase := [
  ⟨["-I".toList, "--no-follow".toList], _, .includePath (Or.inl rfl)⟩,
  ⟨["-d".toList, "7".toList], .depth 7,
    .depth (Or.inl rfl) (.plain ⟨by decide, List.all_eq_true.1 rfl, rfl, by decide⟩) (by decide)⟩,
  ⟨["-I--depth".toList], .includePath "--depth".toList, .gluedPath (by decide)⟩,
  ⟨["--depth".toList, "+03".toList], .depth 3,
    .depth (Or.inr rfl) (.plus ⟨by decide, List.all_eq_true.1 rfl, rfl, by decide⟩) (by decide)⟩,
  ⟨["a.scss".toList], _, .file (by decide)⟩]

theorem parse_mixedPhrases :
    parse (mixedPhrases.flatMap Phrase.arguments)
        = .ok ⟨["--no-follow".toList, "--depth".toList], some 3, false, false, ["a.scss".toList]⟩ ∧
      ∃ error, parse (mixedPhrases.flatMap Phrase.arguments ++ ["--no-follow".toList])
        = .error error := by
  constructor
  · refine ((parse_phrases _).1 _).2 ⟨mixedPhrases, rfl, ?_, asks_iff.2 rfl⟩
    exact compatible_iff.2 (by decide)
  · refine (parse_phrases _).2.1.2 ?_
    rintro ⟨phrases, hspells, hcompatible⟩
    have hmixed : Spells (mixedPhrases ++ [⟨["--no-follow".toList], _, .noFollow⟩])
        (mixedPhrases.flatMap Phrase.arguments ++ ["--no-follow".toList]) := rfl
    rw [(parse_phrases _).2.2 _ _ hspells hmixed] at hcompatible
    exact compatible_iff.1 hcompatible (by decide)

end SheetImports.Command
