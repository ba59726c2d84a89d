import Mathlib.Data.List.DropRight
import SymbolicAlgebra.Document.Parser

/-!
# The grammar of documents

A reader takes something from the start of a text.  The loops of the grammar repeat a
reader for a bounded number of rounds; a reader that advances needs no more rounds than
the text has characters, so a loop is the relation `Repeats` between the text, what is
read, and what is left.

No value, entry or list of values reaches beyond a line break that does not stand in
front of a value: a reader gives the same result whatever follows behind the break.  A
section ends where a text begins that is not an entry, and the sections of a text and of
one behind it are the sections of both on lines of their own.
-/

namespace SymbolicAlgebra

namespace Document

variable {Found : Type} {text more rest last : List Char} {c : Char} {rounds : Nat}

/-! ## Readers -/

/-- Reads something at the start of a text; answers the text behind it too. -/
abbrev Reader (Found : Type) := List Char → Option (Found × List Char)

/-- What the reader leaves is a shorter end of the text. -/
def Reader.Advances (read : Reader Found) : Prop :=
  ∀ ⦃text found rest⦄, read text = some (found, rest) →
    rest <:+ text ∧ rest.length < text.length

/-- What a reader finds in some rounds, and the text behind. -/
def repeatedly (read : Reader Found) : Nat → List Char → List Found × List Char
  | 0, text => ([], text)
  | rounds + 1, text =>
      match read text with
      | none => ([], text)
      | some (found, rest) =>
          (found :: (repeatedly read rounds rest).1, (repeatedly read rounds rest).2)

/-- The reader finds these one after another, and nothing more in the text left. -/
inductive Repeats (read : Reader Found) : List Char → List Found → List Char → Prop
  | stop {text : List Char} (stops : read text = none) : Repeats read text [] text
  | next {text rest last : List Char} {found : Found} {later : List Found}
      (reads : read text = some (found, rest)) (repeats : Repeats read rest later last) :
      Repeats read text (found :: later) last

variable {read : Reader Found} {found later : List Found}

theorem Repeats.unique {found' : List Found} {last' : List Char}
    (first : Repeats read text found last) (second : Repeats read text found' last') :
    found = found' ∧ last = last' := by
  induction first generalizing found' with
  | stop stops =>
      cases second with
      | stop => exact ⟨rfl, rfl⟩
      | next reads => rw [stops] at reads; cases reads
  | next reads repeats ih =>
      cases second with
      | stop stops => rw [stops] at reads; cases reads
      | next reads' repeats' =>
          obtain ⟨rfl, rfl⟩ : _ ∧ _ := by simpa using reads.symm.trans reads'
          obtain ⟨rfl, rfl⟩ := ih repeats'
          exact ⟨rfl, rfl⟩

theorem Repeats.suffix (advances : read.Advances) (repeats : Repeats read text found last) :
    last <:+ text := by
  induction repeats with
  | stop => exact List.suffix_rfl
  | next reads _ ih => exact ih.trans (advances reads).1

/-- A reader that advances finds all there is in as many rounds as there are characters. -/
theorem repeats_repeatedly (advances : read.Advances) (enough : text.length ≤ rounds) :
    Repeats read text (repeatedly read rounds text).1 (repeatedly read rounds text).2 := by
  induction rounds generalizing text with
  | zero =>
      refine .stop ?_
      cases reads : read text with
      | none => rfl
      | some found =>
          have shorter := (advances reads).2
          omega
  | succ rounds ih =>
      cases reads : read text with
      | none =>
          rw [repeatedly, reads]
          exact .stop reads
      | some found =>
          have shorter := (advances reads).2
          rw [repeatedly, reads]
          exact .next reads (ih (by omega))

theorem Repeats.repeatedly_eq (advances : read.Advances) (enough : text.length ≤ rounds)
    (repeats : Repeats read text found last) : repeatedly read rounds text = (found, last) := by
  obtain ⟨sameFound, sameLast⟩ := (repeats_repeatedly advances enough).unique repeats
  exact Prod.ext sameFound sameLast

theorem exists_repeats (advances : read.Advances) (text : List Char) :
    ∃ found last, Repeats read text found last :=
  ⟨_, _, repeats_repeatedly advances (Nat.le_refl _)⟩

/-! ## Text behind a line break -/

/-- The character is part of a line break. -/
def isBreak (c : Char) : Bool := c = '\r' || c = '\n'

theorem eq_of_isBreak (breaks : isBreak c) : c = '\r' ∨ c = '\n' := by
  simpa [isBreak] using breaks

theorem isSpace_of_isBreak (breaks : isBreak c) : isSpace c = false := by
  rcases eq_of_isBreak breaks with rfl | rfl <;> decide

theorem isSpaceOrBreak_of_isBreak (breaks : isBreak c) : isSpaceOrBreak c = true := by
  rcases eq_of_isBreak breaks with rfl | rfl <;> decide

theorem takeWhile_append_stop {p : Char → Bool} (stops : p c = false) (text more : List Char) :
    (text ++ c :: more).takeWhile p = text.takeWhile p := by
  induction text with
  | nil => simp [stops]
  | cons first text ih => simp only [List.cons_append, List.takeWhile_cons, ih]

theorem dropWhile_append_stop {p : Char → Bool} (stops : p c = false) (text more : List Char) :
    (text ++ c :: more).dropWhile p = text.dropWhile p ++ c :: more := by
  induction text with
  | nil => simp [stops]
  | cons first text ih =>
      simp only [List.cons_append, List.dropWhile_cons, ih]
      split <;> rfl

theorem takeWhile_append_end {p : Char → Bool} (all : ∀ c ∈ text, p c = true)
    (ends : ∀ c ∈ rest.head?, p c = false) : (text ++ rest).takeWhile p = text := by
  cases rest with
  | nil => rw [List.append_nil, List.takeWhile_eq_self_iff.mpr all]
  | cons c rest => rw [takeWhile_append_stop (ends c rfl), List.takeWhile_eq_self_iff.mpr all]

theorem dropWhile_append_end {p : Char → Bool} (all : ∀ c ∈ text, p c = true)
    (ends : ∀ c ∈ rest.head?, p c = false) : (text ++ rest).dropWhile p = rest := by
  cases rest with
  | nil => rw [List.append_nil, List.dropWhile_eq_nil_iff.mpr all]
  | cons c rest =>
      rw [dropWhile_append_stop (ends c rfl), List.dropWhile_eq_nil_iff.mpr all]
      rfl

/-- The reader finds the same with more text behind a line break, and leaves that text. -/
def Reader.EndsAtBreak (read : Reader Found) : Prop :=
  ∀ (text more : List Char) ⦃c : Char⦄, isBreak c →
    read (text ++ c :: more) = (read text).map fun found => (found.1, found.2 ++ c :: more)

theorem Repeats.append (endsAtBreak : read.EndsAtBreak) (breaks : isBreak c)
    (more : List Char) (repeats : Repeats read text found last) :
    Repeats read (text ++ c :: more) found (last ++ c :: more) := by
  induction repeats with
  | stop stops =>
      refine .stop ?_
      rw [endsAtBreak _ _ breaks, stops]
      rfl
  | next reads _ ih =>
      refine .next ?_ ih
      rw [endsAtBreak _ _ breaks, reads]
      rfl

theorem skipSpaces_append (breaks : isBreak c) (text more : List Char) :
    skipSpaces (text ++ c :: more) = skipSpaces text ++ c :: more :=
  dropWhile_append_stop (isSpace_of_isBreak breaks) text more

/-- A mark that is not part of a line break stands behind spaces in the text alone. -/
theorem skipSpaces_eq_cons_of_append {mark : Char} (breaks : isBreak c) (differs : c ≠ mark)
    (skipped : skipSpaces (text ++ c :: more) = mark :: rest) :
    ∃ behind, skipSpaces text = mark :: behind := by
  rw [skipSpaces_append breaks] at skipped
  cases before : skipSpaces text with
  | nil => exact absurd (List.cons.inj (before ▸ skipped)).1 differs
  | cons first behind =>
      rw [before, List.cons_append] at skipped
      exact ⟨behind, (List.cons.inj skipped).1 ▸ rfl⟩

/-! ## Names and values -/

theorem endsAtBreak_name : Reader.EndsAtBreak name? := by
  intro text more c breaks
  have startsNot : startsName c = false := by
    rcases eq_of_isBreak breaks with rfl | rfl <;> decide
  have continuesNot : continuesName c = false := by
    rcases eq_of_isBreak breaks with rfl | rfl <;> decide
  cases text with
  | nil => simp [name?, startsNot]
  | cons first text =>
      rw [List.cons_append, name?, name?, takeWhile_append_stop continuesNot,
        dropWhile_append_stop continuesNot]
      split <;> rfl

theorem advances_name : Reader.Advances name? := by
  intro text found rest reads
  cases text with
  | nil => cases reads
  | cons first text =>
      rw [name?] at reads
      split at reads
      · cases reads
        have suffix := List.dropWhile_suffix (l := text) continuesName
        exact ⟨suffix.trans (List.suffix_cons first text),
          Nat.lt_succ_of_le suffix.length_le⟩
      · cases reads

theorem continuesName_of_startsName (starts : startsName c = true) : continuesName c = true := by
  rcases Bool.or_eq_true_iff.mp starts with alpha | underscore
  · simp [continuesName, Char.isAlphanum, alpha]
  · simp [continuesName, underscore]

/-- The text is a title or a key. -/
def isName : List Char → Bool
  | [] => false
  | first :: rest => startsName first && rest.all continuesName

/-- A name ends in front of a character that does not belong to names. -/
theorem name?_append (name : isName text = true)
    (ends : ∀ c ∈ rest.head?, continuesName c = false) :
    name? (text ++ rest) = some (String.ofList text, rest) := by
  cases text with
  | nil => cases name
  | cons first text =>
      obtain ⟨starts, continues⟩ := Bool.and_eq_true_iff.mp name
      have all := List.all_eq_true.mp continues
      rw [List.cons_append, name?, if_pos starts, takeWhile_append_end all ends,
        dropWhile_append_end all ends]

theorem endsAtBreak_value : Reader.EndsAtBreak value? := by
  intro text more c breaks
  have stops : isValueChar c = false := by
    rw [isValueChar, isSpaceOrBreak_of_isBreak breaks]
    rfl
  rw [value?, value?, takeWhile_append_stop stops, dropWhile_append_stop stops]
  split <;> rfl

theorem advances_value : Reader.Advances value? := by
  intro text found rest reads
  rw [value?] at reads
  split at reads
  · cases reads
  · rename_i nonempty
    cases reads
    refine ⟨List.dropWhile_suffix _, ?_⟩
    have parts := congrArg List.length
      (List.takeWhile_append_dropWhile (p := isValueChar) (l := text))
    have taken : 0 < (text.takeWhile isValueChar).length := by
      rw [List.length_pos_iff]
      simpa using nonempty
    rw [List.length_append] at parts
    omega

/-- A value behind a comma. -/
def furtherValue? : Reader Value := fun text =>
  match skipSpaces text with
  | ',' :: rest => value? (skipSpaces rest)
  | _ => none

theorem furtherValue?_of_comma (skipped : skipSpaces text = ',' :: rest) :
    furtherValue? text = value? (skipSpaces rest) := by
  simp only [furtherValue?, skipped]

theorem furtherValue?_of_ne (other : ∀ rest, skipSpaces text ≠ ',' :: rest) :
    furtherValue? text = none := by
  rw [furtherValue?]
  split
  · exact absurd ‹_› (other _)
  · rfl

theorem moreValues_eq (rounds : Nat) (text : List Char) :
    moreValues rounds text = repeatedly furtherValue? rounds text := by
  induction rounds generalizing text with
  | zero => rfl
  | succ rounds ih =>
      rw [moreValues, repeatedly]
      split
      · rename_i rest skipped
        rw [furtherValue?_of_comma skipped]
        cases value? (skipSpaces rest) with
        | none => rfl
        | some found => simp only [ih]
      · rename_i other
        rw [furtherValue?_of_ne fun rest skipped => other rest skipped]

theorem endsAtBreak_furtherValue : Reader.EndsAtBreak furtherValue? := by
  intro text more c breaks
  have differs : c ≠ ',' := by
    rintro rfl
    exact absurd breaks (by decide)
  by_cases comma : ∃ rest, skipSpaces text = ',' :: rest
  · obtain ⟨rest, skipped⟩ := comma
    have skippedBefore : skipSpaces (text ++ c :: more) = ',' :: (rest ++ c :: more) := by
      rw [skipSpaces_append breaks, skipped, List.cons_append]
    rw [furtherValue?_of_comma skipped, furtherValue?_of_comma skippedBefore,
      skipSpaces_append breaks, endsAtBreak_value _ _ breaks]
  · have other := not_exists.mp comma
    rw [furtherValue?_of_ne other, furtherValue?_of_ne fun rest skipped =>
      comma (skipSpaces_eq_cons_of_append breaks differs skipped)]
    rfl

theorem advances_furtherValue : Reader.Advances furtherValue? := by
  intro text found rest reads
  rw [furtherValue?] at reads
  split at reads
  · rename_i behind skipped
    obtain ⟨suffix, shorter⟩ := advances_value reads
    have comma : ',' :: behind <:+ text := skipped ▸ List.dropWhile_suffix _
    have suffix' : rest <:+ behind := suffix.trans (List.dropWhile_suffix _)
    refine ⟨suffix'.trans ((List.suffix_cons _ _).trans comma), ?_⟩
    have := suffix'.length_le
    have := comma.length_le
    rw [List.length_cons] at this
    omega
  · cases reads

/-- The list of values of an entry ends with its line. -/
theorem values_append (breaks : isBreak c) (text more : List Char) :
    values (text ++ c :: more) = ((values text).1, (values text).2 ++ c :: more) := by
  rw [values, values, skipSpaces_append breaks]
  simp only [endsAtBreak_value _ _ breaks, moreValues_eq]
  cases value? (skipSpaces text) with
  | none => rfl
  | some first =>
      obtain ⟨value, rest⟩ := first
      have repeats := repeats_repeatedly advances_furtherValue (Nat.le_refl rest.length)
      have longer := repeats.append endsAtBreak_furtherValue breaks more
      simp only [Option.map_some, longer.repeatedly_eq advances_furtherValue (Nat.le_refl _)]

theorem values_suffix (text : List Char) : (values text).2 <:+ text := by
  have skipped : skipSpaces text <:+ text := List.dropWhile_suffix _
  rw [values]
  simp only [moreValues_eq]
  cases reads : value? (skipSpaces text) with
  | none => exact skipped
  | some first =>
      obtain ⟨value, rest⟩ := first
      have repeats := repeats_repeatedly advances_furtherValue (Nat.le_refl rest.length)
      exact (repeats.suffix advances_furtherValue).trans ((advances_value reads).1.trans skipped)

/-! ## Entries -/

/-- A key with its values; nothing where an entry breaks off. -/
def keyedValues? : Reader Entry := fun text => (entry text).toOption

theorem keyedValues?_of_colon {key : String} {behind : List Char}
    (named : name? text = some (key, behind)) (skipped : skipSpaces behind = ':' :: rest) :
    keyedValues? text = some ((key, (values rest).1), (values rest).2) := by
  rw [keyedValues?, entry, named]
  simp only [skipped]
  rfl

theorem keyedValues?_of_ne {key : String} {behind : List Char}
    (named : name? text = some (key, behind))
    (other : ∀ rest, skipSpaces behind ≠ ':' :: rest) :
    keyedValues? text = none := by
  rw [keyedValues?, entry, named]
  dsimp only
  split
  · exact absurd ‹_› (other _)
  · rfl

theorem keyedValues?_of_name?_eq_none (unnamed : name? text = none) : keyedValues? text = none := by
  rw [keyedValues?, entry, unnamed]
  rfl

/-- What stands in a text that starts with an entry. -/
theorem keyedValues?_eq_some {found : Entry} (reads : keyedValues? text = some (found, rest)) :
    ∃ behind later, name? text = some (found.1, behind) ∧ skipSpaces behind = ':' :: later ∧
      found.2 = (values later).1 ∧ rest = (values later).2 := by
  cases named : name? text with
  | none => rw [keyedValues?_of_name?_eq_none named] at reads; cases reads
  | some key =>
      by_cases colon : ∃ later, skipSpaces key.2 = ':' :: later
      · obtain ⟨later, skipped⟩ := colon
        rw [keyedValues?_of_colon named skipped] at reads
        cases reads
        exact ⟨key.2, later, rfl, skipped, rfl, rfl⟩
      · rw [keyedValues?_of_ne named (not_exists.mp colon)] at reads
        cases reads

theorem endsAtBreak_keyedValues : Reader.EndsAtBreak keyedValues? := by
  intro text more c breaks
  have differs : c ≠ ':' := by
    rintro rfl
    exact absurd breaks (by decide)
  have longer := endsAtBreak_name text more breaks
  cases named : name? text with
  | none =>
      rw [named] at longer
      rw [keyedValues?_of_name?_eq_none named, keyedValues?_of_name?_eq_none longer]
      rfl
  | some key =>
      rw [named] at longer
      by_cases colon : ∃ later, skipSpaces key.2 = ':' :: later
      · obtain ⟨later, skipped⟩ := colon
        have skippedBefore : skipSpaces (key.2 ++ c :: more) = ':' :: (later ++ c :: more) := by
          rw [skipSpaces_append breaks, skipped, List.cons_append]
        rw [keyedValues?_of_colon named skipped, keyedValues?_of_colon longer skippedBefore,
          values_append breaks]
        rfl
      · have other := not_exists.mp colon
        rw [keyedValues?_of_ne named other, keyedValues?_of_ne longer fun rest skipped =>
          colon (skipSpaces_eq_cons_of_append breaks differs skipped)]
        rfl

theorem advances_keyedValues : Reader.Advances keyedValues? := by
  intro text found rest reads
  obtain ⟨behind, later, named, skipped, -, rfl⟩ := keyedValues?_eq_some reads
  obtain ⟨suffix, shorter⟩ := advances_name named
  have colon : ':' :: later <:+ behind := skipped ▸ List.dropWhile_suffix _
  have left : (values later).2 <:+ behind :=
    (values_suffix later).trans ((List.suffix_cons _ _).trans colon)
  exact ⟨left.trans suffix, Nat.lt_of_le_of_lt left.length_le shorter⟩

/-- An entry and the white space behind it. -/
def entryWithBreaks? : Reader Entry := fun text =>
  (keyedValues? text).map fun found => (found.1, skipBreaks found.2)

theorem advances_entryWithBreaks : Reader.Advances entryWithBreaks? := by
  intro text found rest reads
  obtain ⟨⟨found', behind⟩, first, same⟩ := Option.map_eq_some_iff.mp reads
  cases same
  obtain ⟨suffix, shorter⟩ := advances_keyedValues first
  have skipped : skipBreaks behind <:+ behind := List.dropWhile_suffix _
  exact ⟨skipped.trans suffix, Nat.lt_of_le_of_lt skipped.length_le shorter⟩

theorem moreEntries_eq (rounds : Nat) (text : List Char) :
    moreEntries rounds text = repeatedly entryWithBreaks? rounds text := by
  induction rounds generalizing text with
  | zero => rfl
  | succ rounds ih =>
      rw [moreEntries, repeatedly, entryWithBreaks?, keyedValues?]
      cases entry text with
      | error => rfl
      | ok found => simp [Except.toOption, ih]

theorem skipBreaks_append_of_blank (blank : skipBreaks text = []) (more : List Char) :
    skipBreaks (text ++ more) = skipBreaks more := by
  unfold skipBreaks at *
  rw [List.dropWhile_append, blank]
  rfl

theorem skipBreaks_append_of_ne (nonblank : skipBreaks text ≠ []) (more : List Char) :
    skipBreaks (text ++ more) = skipBreaks text ++ more := by
  unfold skipBreaks at *
  rw [List.dropWhile_append, if_neg (by simpa using nonblank)]

@[simp] theorem skipBreaks_skipBreaks (text : List Char) :
    skipBreaks (skipBreaks text) = skipBreaks text :=
  List.dropWhile_idempotent _ _

@[simp] theorem skipBreaks_skipSpaces (text : List Char) :
    skipBreaks (skipSpaces text) = skipBreaks text := by
  induction text with
  | nil => rfl
  | cons first text ih =>
      rw [skipSpaces, List.dropWhile_cons]
      split
      · rename_i space
        have skipped : isSpaceOrBreak first = true := by simp [isSpaceOrBreak, space]
        exact ih.trans (List.dropWhile_cons_of_pos skipped).symm
      · rfl

theorem skipBreaks_cons (breaks : isBreak c) (more : List Char) :
    skipBreaks (c :: more) = skipBreaks more :=
  List.dropWhile_cons_of_pos (isSpaceOrBreak_of_isBreak breaks)

/-- Entries go on behind a line break unless the text behind starts with an entry itself. -/
theorem Repeats.append_entries {found : List Entry} (breaks : isBreak c)
    (stops : keyedValues? (skipBreaks more) = none)
    (repeats : Repeats entryWithBreaks? (skipBreaks text) found last) :
    Repeats entryWithBreaks? (skipBreaks (text ++ c :: more)) found
      (skipBreaks (last ++ c :: more)) := by
  generalize start : skipBreaks text = skipped at repeats
  -- on what is read; at the end either white space is left, or a text that is no entry
  induction repeats generalizing text with
  | stop fails =>
      subst start
      by_cases blank : skipBreaks text = []
      · rw [skipBreaks_append_of_blank blank, blank, List.nil_append, skipBreaks_cons breaks]
        refine .stop ?_
        rw [entryWithBreaks?, stops]
        rfl
      · have kept : skipBreaks (skipBreaks text) ≠ [] := by rwa [skipBreaks_skipBreaks]
        rw [skipBreaks_append_of_ne blank, skipBreaks_append_of_ne kept, skipBreaks_skipBreaks]
        refine .stop ?_
        rw [entryWithBreaks?, Option.map_eq_none_iff] at fails ⊢
        rw [endsAtBreak_keyedValues _ _ breaks, fails]
        rfl
  | next reads repeats ih =>
      subst start
      obtain ⟨⟨found, rest⟩, first, same⟩ := Option.map_eq_some_iff.mp reads
      cases same
      have nonblank : skipBreaks text ≠ [] := by
        intro blank
        rw [blank] at first
        cases first
      refine .next ?_ (ih rfl)
      rw [skipBreaks_append_of_ne nonblank, entryWithBreaks?, endsAtBreak_keyedValues _ _ breaks,
        first]
      rfl

/-! ## Sections -/

/-- A section. -/
def wholeSection? : Reader (String × List Entry) := fun text => (sectionAt text).toOption

theorem wholeSection?_of_name?_eq_none (unnamed : name? (skipBreaks text) = none) :
    wholeSection? text = none := by
  rw [wholeSection?, sectionAt]
  simp only [unnamed]
  rfl

/-- A section is a title with all entries behind it, and there is at least one. -/
theorem wholeSection?_eq {title : String} {behind : List Char} {entries : List Entry}
    (named : name? (skipBreaks text) = some (title, behind))
    (repeats : Repeats entryWithBreaks? (skipBreaks behind) entries last) :
    wholeSection? text = if entries = [] then none else some ((title, entries), last) := by
  rw [wholeSection?, sectionAt]
  simp only [named]
  cases repeats with
  | stop stops =>
      rw [entryWithBreaks?, keyedValues?, Option.map_eq_none_iff] at stops
      cases reads : entry (skipBreaks behind) with
      | error => rfl
      | ok found => rw [reads] at stops; cases stops
  | next reads repeats =>
      rw [entryWithBreaks?, keyedValues?] at reads
      cases first : entry (skipBreaks behind) with
      | error => rw [first] at reads; cases reads
      | ok found =>
          rw [first] at reads
          cases reads
          simp only [moreEntries_eq, repeats.repeatedly_eq advances_entryWithBreaks (Nat.le_refl _)]
          rfl

theorem wholeSection?_eq_some {title : String} {entries : List Entry}
    (reads : wholeSection? text = some ((title, entries), last)) :
    ∃ behind, name? (skipBreaks text) = some (title, behind) ∧
      Repeats entryWithBreaks? (skipBreaks behind) entries last ∧ entries ≠ [] := by
  cases named : name? (skipBreaks text) with
  | none => rw [wholeSection?_of_name?_eq_none named] at reads; cases reads
  | some found =>
      obtain ⟨entries', last', repeats⟩ :=
        exists_repeats advances_entryWithBreaks (skipBreaks found.2)
      rw [wholeSection?_eq named repeats] at reads
      split at reads
      · cases reads
      · rename_i nonempty
        cases reads
        exact ⟨found.2, rfl, repeats, nonempty⟩

theorem wholeSection?_congr {text' : List Char} (same : skipBreaks text = skipBreaks text') :
    wholeSection? text = wholeSection? text' := by
  rw [wholeSection?, wholeSection?, sectionAt, sectionAt, same]

theorem wholeSection?_of_blank (blank : skipBreaks text = []) : wholeSection? text = none :=
  wholeSection?_of_name?_eq_none (by rw [blank]; rfl)

theorem advances_wholeSection : Reader.Advances wholeSection? := by
  intro text found rest reads
  obtain ⟨behind, named, repeats, -⟩ := wholeSection?_eq_some reads
  obtain ⟨suffix, shorter⟩ := advances_name named
  have start : skipBreaks text <:+ text := List.dropWhile_suffix _
  have skipped : skipBreaks behind <:+ behind := List.dropWhile_suffix _
  have left : rest <:+ behind := (repeats.suffix advances_entryWithBreaks).trans skipped
  exact ⟨left.trans (suffix.trans start),
    Nat.lt_of_le_of_lt left.length_le (Nat.lt_of_lt_of_le shorter start.length_le)⟩

theorem moreSections_eq (rounds : Nat) (text : List Char) :
    moreSections rounds text = repeatedly wholeSection? rounds text := by
  induction rounds generalizing text with
  | zero => rfl
  | succ rounds ih =>
      rw [moreSections, repeatedly, wholeSection?]
      cases sectionAt text with
      | error => rfl
      | ok found => simp [Except.toOption, ih]

theorem wholeSection?_append (breaks : isBreak c) (stops : keyedValues? (skipBreaks more) = none)
    (nonblank : skipBreaks text ≠ []) :
    wholeSection? (text ++ c :: more) =
      (wholeSection? text).map fun found => (found.1, skipBreaks (found.2 ++ c :: more)) := by
  have longer := endsAtBreak_name (skipBreaks text) more breaks
  rw [← skipBreaks_append_of_ne nonblank] at longer
  cases named : name? (skipBreaks text) with
  | none =>
      rw [named] at longer
      rw [wholeSection?_of_name?_eq_none named, wholeSection?_of_name?_eq_none longer]
      rfl
  | some found =>
      rw [named] at longer
      obtain ⟨entries, last, repeats⟩ :=
        exists_repeats advances_entryWithBreaks (skipBreaks found.2)
      rw [wholeSection?_eq named repeats,
        wholeSection?_eq longer (repeats.append_entries breaks stops)]
      split <;> rfl

/-! ## Whole texts -/

variable {sections : List (String × List Entry)}

/-- The text consists of these sections. -/
def Reads (text : List Char) (sections : List (String × List Entry)) : Prop :=
  ∃ last, Repeats wholeSection? text sections last ∧ skipBreaks last = []

theorem Reads.unique {sections' : List (String × List Entry)} (first : Reads text sections)
    (second : Reads text sections') : sections = sections' := by
  obtain ⟨last, repeats, -⟩ := first
  obtain ⟨last', repeats', -⟩ := second
  exact (repeats.unique repeats').1

theorem reads_of_blank (blank : skipBreaks text = []) : Reads text [] :=
  ⟨text, .stop (wholeSection?_of_blank blank), blank⟩

theorem Reads.congr {text' : List Char} (reads : Reads text sections)
    (same : skipBreaks text = skipBreaks text') : Reads text' sections := by
  obtain ⟨last, repeats, blank⟩ := reads
  cases repeats with
  | stop => exact reads_of_blank (same ▸ blank)
  | next first later =>
      exact ⟨last, .next ((wholeSection?_congr same).symm.trans first) later, blank⟩

theorem Reads.cons {found : String × List Entry} (first : wholeSection? text = some (found, rest))
    (reads : Reads rest sections) : Reads text (found :: sections) := by
  obtain ⟨last, repeats, blank⟩ := reads
  exact ⟨last, .next first repeats, blank⟩

/-- A text of sections does not start with an entry: behind its first title stands a key. -/
theorem Reads.not_entry (reads : Reads text sections) : keyedValues? (skipBreaks text) = none := by
  obtain ⟨last, repeats, blank⟩ := reads
  cases repeats with
  | stop => rw [blank]; rfl
  | @next _ _ _ found _ first later =>
      obtain ⟨title, entries⟩ := found
      obtain ⟨behind, named, repeats, nonempty⟩ := wholeSection?_eq_some first
      refine keyedValues?_of_ne named fun rest skipped => ?_
      -- a colon behind the title would be where the first key starts
      have colon : skipBreaks behind = ':' :: rest := by
        rw [← skipBreaks_skipSpaces, skipped]
        rfl
      rw [colon] at repeats
      cases repeats with
      | stop => exact nonempty rfl
      | next reads => cases reads

/-- The sections of a text and of another one behind it. -/
theorem Reads.append {later : List (String × List Entry)} (breaks : isBreak c)
    (first : Reads text sections) (second : Reads more later) :
    Reads (text ++ c :: more) (sections ++ later) := by
  obtain ⟨last, repeats, blank⟩ := first
  induction repeats with
  | @stop text =>
      refine second.congr ?_
      rw [skipBreaks_append_of_blank blank, skipBreaks_cons breaks]
  | @next text rest last found between reads repeats ih =>
      have nonblank : skipBreaks text ≠ [] := by
        intro nothing
        rw [wholeSection?_of_blank nothing] at reads
        cases reads
      have longer := wholeSection?_append breaks second.not_entry nonblank
      rw [reads] at longer
      exact .cons longer ((ih blank).congr (skipBreaks_skipBreaks _).symm)

/-- White space behind a line break does not matter. -/
theorem Reads.of_append (breaks : isBreak c) (blank : skipBreaks more = [])
    (reads : Reads (text ++ c :: more) sections) : Reads text sections := by
  have behind : skipBreaks (c :: more) = [] := (skipBreaks_cons breaks more).trans blank
  obtain ⟨last, repeats, blankLast⟩ := reads
  -- behind the first section the whole text is known up to white space in front only
  generalize whole : text ++ c :: more = start at repeats
  have same : skipBreaks start = skipBreaks (text ++ c :: more) := by rw [whole]
  clear whole
  induction repeats generalizing text with
  | stop =>
      rw [blankLast] at same
      refine reads_of_blank ?_
      by_contra nonblank
      rw [skipBreaks_append_of_ne nonblank] at same
      exact absurd same.symm (by simp)
  | @next start rest last found between first repeats ih =>
      rw [wholeSection?_congr same] at first
      have nonblank : skipBreaks text ≠ [] := by
        intro nothing
        rw [wholeSection?_of_blank ((skipBreaks_append_of_blank nothing _).trans behind)] at first
        cases first
      have stops : keyedValues? (skipBreaks more) = none := by rw [blank]; rfl
      rw [wholeSection?_append breaks stops nonblank] at first
      obtain ⟨⟨found', rest'⟩, reads, shown⟩ := Option.map_eq_some_iff.mp first
      cases shown
      exact .cons reads (ih blankLast (skipBreaks_skipBreaks _))

/-! ## Documents of texts -/

theorem isBlank_of_isSpaceOrBreak (skipped : isSpaceOrBreak c = true) : Text.isBlank c = true := by
  simp only [isSpaceOrBreak, isSpace, Bool.or_eq_true, decide_eq_true_eq] at skipped
  rcases skipped with ((rfl | rfl) | rfl) | rfl <;> rfl

theorem skipBreaks_eq_nil_iff : skipBreaks text = [] ↔ ∀ c ∈ text, isSpaceOrBreak c = true :=
  List.dropWhile_eq_nil_iff

theorem all_isBlank_of_blank (blank : skipBreaks text = []) : text.all Text.isBlank = true :=
  List.all_eq_true.mpr fun c member =>
    isBlank_of_isSpaceOrBreak (skipBreaks_eq_nil_iff.mp blank c member)

theorem toNat_of_startsName (starts : startsName c = true) :
    65 ≤ c.toNat ∧ c.toNat ≤ 122 := by
  rw [startsName, Bool.or_eq_true, decide_eq_true_eq] at starts
  rcases starts with letter | rfl
  · rcases Bool.or_eq_true_iff.mp letter with upper | lower
    · have range : 65 ≤ c.toNat ∧ c.toNat ≤ 90 := of_decide_eq_true upper
      omega
    · obtain ⟨low, high⟩ := Bool.and_eq_true_iff.mp lower
      have range : 97 ≤ c.toNat ∧ c.toNat ≤ 122 := ⟨of_decide_eq_true low, of_decide_eq_true high⟩
      omega
  · decide

theorem isBlank_of_startsName (starts : startsName c = true) : Text.isBlank c = false := by
  have code := toNat_of_startsName starts
  simp only [Text.isBlank, Bool.or_eq_false_iff, Bool.and_eq_false_iff, decide_eq_false_iff_not,
    beq_eq_false_iff_ne]
  omega

theorem wholeSection?_of_all_isBlank (blank : text.all Text.isBlank = true) :
    wholeSection? text = none := by
  refine wholeSection?_of_name?_eq_none ?_
  cases start : skipBreaks text with
  | nil => rfl
  | cons first rest =>
      have member : first ∈ text :=
        (List.dropWhile_suffix _).mem (start ▸ List.mem_cons_self : first ∈ skipBreaks text)
      have isBlank := List.all_eq_true.mp blank first member
      rw [name?, if_neg]
      intro starts
      rw [isBlank_of_startsName starts] at isBlank
      cases isBlank

theorem ofPlainText_of_reads (reads : Reads text sections) :
    ofPlainText text = .ok (ofSections sections) := by
  obtain ⟨last, repeats, blank⟩ := reads
  rw [ofPlainText]
  cases repeats with
  | stop =>
      rw [if_pos (all_isBlank_of_blank blank)]
      rfl
  | @next _ rest _ found later first repeats =>
      split
      · rename_i allBlank
        rw [wholeSection?_of_all_isBlank allBlank] at first
        cases first
      · rw [wholeSection?] at first
        cases start : sectionAt text with
        | error => rw [start] at first; cases first
        | ok =>
            rw [start] at first
            cases first
            simp only [moreSections_eq, repeats.repeatedly_eq advances_wholeSection (Nat.le_refl _),
              all_isBlank_of_blank blank, if_true]

/-- The sections of a text that has a document.  Other white space than spaces, tabs and
line breaks could stand at its end. -/
theorem reads_of_ofPlainText {document : Document}
    (plain : ∀ c ∈ text, Text.isBlank c = true → isSpaceOrBreak c = true)
    (parsed : ofPlainText text = .ok document) :
    ∃ sections, Reads text sections ∧ document = ofSections sections := by
  have blank_of_suffix {rest : List Char} (suffix : rest <:+ text)
      (blank : rest.all Text.isBlank = true) : skipBreaks rest = [] :=
    skipBreaks_eq_nil_iff.mpr fun c member =>
      plain c (suffix.mem member) (List.all_eq_true.mp blank c member)
  rw [ofPlainText] at parsed
  split at parsed
  · rename_i blank
    cases parsed
    exact ⟨[], reads_of_blank (blank_of_suffix List.suffix_rfl blank), rfl⟩
  · cases start : sectionAt text with
    | error => rw [start] at parsed; cases parsed
    | ok first =>
        obtain ⟨found, rest⟩ := first
        have reads : wholeSection? text = some (found, rest) := by rw [wholeSection?, start]; rfl
        have repeats := repeats_repeatedly advances_wholeSection (Nat.le_refl rest.length)
        rw [start] at parsed
        simp only [moreSections_eq] at parsed
        split at parsed
        · rename_i blank
          cases parsed
          have suffix :=
            (repeats.suffix advances_wholeSection).trans (advances_wholeSection reads).1
          exact ⟨_, .cons reads ⟨_, repeats, blank_of_suffix suffix blank⟩, rfl⟩
        · cases parsed

end Document

end SymbolicAlgebra
