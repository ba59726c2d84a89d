import SymbolicAlgebra.Proofs.Documents.Dictionaries
import SymbolicAlgebra.Proofs.Documents.Lines
import SymbolicAlgebra.Proofs.IntegerText

/-!
# Printing documents

Sections are printed with the title on a line of its own and each entry on one line
behind it.  Reading the text gives them back: a value ends at the comma behind it, a key
at its colon, and no title can be taken for a key, since a line break stands behind it.
-/

namespace SymbolicAlgebra

namespace Document

variable {text tail rest : List Char} {c : Char} {value : Value}
  {valueList : List Value} {entries : List Entry} {found : String × List Entry}
  {sections : List (String × List Entry)}

/-! ## What is printed -/

/-- The line of an entry. -/
def entryLine (entry : Entry) : String :=
  " " ++ entry.1 ++ ": " ++ String.intercalate ", " (entry.2.map Value.toText)

/-- The lines of a section. -/
def sectionLines (found : String × List Entry) : List String :=
  found.1 :: found.2.map entryLine

/-- The text of some sections; a line break ends each line. -/
def print (sections : List (String × List Entry)) : String :=
  String.join ((sections.flatMap sectionLines).map (· ++ "\n"))

/-- The value is an integer in range, a truth value, or a text that is one token and
nothing else than text. -/
def Value.isPrintable : Value → Bool
  | .integer value => decide (InRange value)
  | .boolean _ => true
  | .text token =>
      !token.toList.isEmpty && token.toList.all isValueChar &&
        (Decimal.readInt? token.toList).isNone && (Decimal.readFloat? token.toList).isNone &&
        (Value.readBool? token.toList).isNone
  | .float _ => false

/-- The section has a name for its title, at least one entry, and names for the keys. -/
def isPrintable (found : String × List Entry) : Bool :=
  isName found.1.toList && !found.2.isEmpty &&
    found.2.all fun entry => isName entry.1.toList && entry.2.all Value.isPrintable

/-! ## Names -/

theorem all_continuesName_of_isName (name : isName text = true) :
    text.all continuesName = true := by
  cases text with
  | nil => rfl
  | cons first rest =>
      obtain ⟨starts, continues⟩ := Bool.and_eq_true_iff.mp name
      exact Bool.and_eq_true_iff.mpr ⟨continuesName_of_startsName starts, continues⟩

/-- No white space stands in front of a name. -/
theorem skipBreaks_of_isName (name : isName text = true) (rest : List Char) :
    skipBreaks (' ' :: (text ++ rest)) = text ++ rest := by
  have space : skipBreaks (' ' :: (text ++ rest)) = skipBreaks (text ++ rest) :=
    List.dropWhile_cons_of_pos (by decide)
  rw [space]
  cases text with
  | nil => cases name
  | cons first text =>
      have starts := (Bool.and_eq_true_iff.mp name).1
      refine List.dropWhile_cons_of_neg fun skipped => ?_
      have blank := isBlank_of_isSpaceOrBreak skipped
      rw [isBlank_of_startsName starts] at blank
      cases blank

/-! ## Values -/

theorem isValueChar_of_isDigit (digit : c.isDigit = true) : isValueChar c = true := by
  have code : 48 ≤ c.toNat ∧ c.toNat ≤ 57 := by
    simp only [Char.isDigit, Bool.and_eq_true, decide_eq_true_eq, UInt32.le_iff_toNat_le] at digit
    exact digit
  have differs (other : Char) (outside : other.toNat < 48 ∨ 57 < other.toNat) : c ≠ other := by
    rintro rfl
    omega
  simp [isValueChar, isSpaceOrBreak, isSpace, differs ' ' (by decide), differs '\t' (by decide),
    differs '\r' (by decide), differs '\n' (by decide), differs ',' (by decide),
    differs ';' (by decide)]

/-- A printable value is printed as a token. -/
theorem Value.isToken_toText (printable : value.isPrintable = true) :
    value.toText.toList ≠ [] ∧ ∀ c ∈ value.toText.toList, isValueChar c = true := by
  cases value with
  | text token =>
      simp only [isPrintable, Bool.and_eq_true, Bool.not_eq_true', List.isEmpty_eq_false_iff,
        List.all_eq_true] at printable
      exact ⟨printable.1.1.1.1, printable.1.1.1.2⟩
  | float => cases printable
  | integer value =>
      refine ⟨fun nothing => ?_, fun c member => ?_⟩
      · have reads := Decimal.readSigned?_toString value
        rw [show (toString value).toList = [] from nothing] at reads
        cases reads
      · rcases Decimal.isDigit_of_mem_toString member with rfl | digit
        · decide
        · exact isValueChar_of_isDigit digit
  | boolean value =>
      cases value <;> exact ⟨List.cons_ne_nil _ _, List.all_eq_true.mp rfl⟩

/-- The token of a printable value is read as this value. -/
theorem Value.ofToken_toText (printable : value.isPrintable = true) :
    ofToken value.toText.toList = value := by
  cases value with
  | text token =>
      simp only [isPrintable, Bool.and_eq_true, Option.isNone_iff_eq_none] at printable
      obtain ⟨⟨⟨-, integer⟩, float⟩, boolean⟩ := printable
      rw [toText, ofToken, integer, float, boolean, String.ofList_toList]
  | float => cases printable
  | integer value =>
      rw [toText, ofToken, Decimal.readInt?_toString (of_decide_eq_true printable)]
  | boolean value => cases value <;> rfl

/-- A token ends in front of a comma or at the end of the text. -/
theorem value?_append (printable : value.isPrintable = true)
    (ends : ∀ c ∈ tail.head?, isValueChar c = false) :
    value? (value.toText.toList ++ tail) = some (value, tail) := by
  obtain ⟨nonempty, all⟩ := value.isToken_toText printable
  rw [value?]
  simp only [takeWhile_append_end all ends, dropWhile_append_end all ends]
  rw [if_neg (by simpa using nonempty), Value.ofToken_toText printable]

/-- Values with commas and spaces between them. -/
def valuesText (valueList : List Value) : List Char :=
  List.intercalate [',', ' '] (valueList.map fun value => value.toText.toList)

theorem valuesText_cons_cons (value next : Value) (valueList : List Value) :
    valuesText (value :: next :: valueList) =
      value.toText.toList ++ ',' :: ' ' :: valuesText (next :: valueList) := by
  simp [valuesText]

theorem skipSpaces_valuesText (printable : ∀ value ∈ valueList, value.isPrintable = true) :
    skipSpaces (' ' :: valuesText valueList) = valuesText valueList := by
  have skipped : skipSpaces (' ' :: valuesText valueList) = skipSpaces (valuesText valueList) :=
    List.dropWhile_cons_of_pos (by decide)
  rw [skipped]
  cases valueList with
  | nil => rfl
  | cons value valueList =>
      obtain ⟨nonempty, all⟩ := value.isToken_toText (printable value List.mem_cons_self)
      obtain ⟨first, token, shown⟩ := List.exists_cons_of_ne_nil nonempty
      have start : ∃ behind, valuesText (value :: valueList) = first :: behind := by
        cases valueList with
        | nil => exact ⟨token, by simp [valuesText, shown]⟩
        | cons next valueList =>
            exact ⟨_, by rw [valuesText_cons_cons, shown, List.cons_append]⟩
      obtain ⟨behind, start⟩ := start
      have noSpace : isSpace first = false := by
        have valueChar := all first (shown ▸ List.mem_cons_self)
        simp only [isValueChar, isSpaceOrBreak, Bool.and_eq_true, Bool.not_eq_true',
          Bool.or_eq_false_iff] at valueChar
        exact valueChar.1.1.1.1
      rw [start]
      exact List.dropWhile_cons_of_neg (by simp [noSpace])

/-- The values behind the first one, each of them behind a comma. -/
theorem repeats_furtherValue
    (printable : ∀ other ∈ value :: valueList, other.isPrintable = true) :
    ∃ behind, value? (valuesText (value :: valueList)) = some (value, behind) ∧
      Repeats furtherValue? behind valueList [] := by
  -- on the values behind; the first value of each rest ends at the comma of the next
  induction valueList generalizing value with
  | nil =>
      refine ⟨[], ?_, .stop rfl⟩
      have reads : value? (value.toText.toList ++ []) = some (value, []) :=
        value?_append (printable value List.mem_cons_self) (by simp)
      simpa [valuesText] using reads
  | cons next valueList ih =>
      obtain ⟨behind, reads, repeats⟩ :=
        ih fun other listed => printable other (List.mem_cons_of_mem _ listed)
      refine ⟨',' :: ' ' :: valuesText (next :: valueList), ?_, .next ?_ repeats⟩
      · rw [valuesText_cons_cons]
        exact value?_append (printable value List.mem_cons_self) (by simp; decide)
      · have comma : skipSpaces (',' :: ' ' :: valuesText (next :: valueList)) =
            ',' :: ' ' :: valuesText (next :: valueList) :=
          List.dropWhile_cons_of_neg (by decide)
        rw [furtherValue?_of_comma comma, skipSpaces_valuesText fun other listed =>
          printable other (List.mem_cons_of_mem _ listed), reads]

theorem values_valuesText (printable : ∀ value ∈ valueList, value.isPrintable = true) :
    values (' ' :: valuesText valueList) = (valueList, []) := by
  rw [values]
  simp only [skipSpaces_valuesText printable, moreValues_eq]
  cases valueList with
  | nil => rfl
  | cons value valueList =>
      obtain ⟨behind, reads, repeats⟩ := repeats_furtherValue printable
      simp only [reads, repeats.repeatedly_eq advances_furtherValue (Nat.le_refl _)]

/-! ## Entries -/

theorem toList_entryLine (entry : Entry) :
    (entryLine entry).toList = ' ' :: (entry.1.toList ++ ':' :: ' ' :: valuesText entry.2) := by
  simp [entryLine, valuesText, Function.comp_def]

theorem keyedValues?_entryLine {entry : Entry} (name : isName entry.1.toList = true)
    (printable : ∀ value ∈ entry.2, value.isPrintable = true) :
    keyedValues? (entry.1.toList ++ ':' :: ' ' :: valuesText entry.2) = some (entry, []) := by
  have named : name? (entry.1.toList ++ ':' :: ' ' :: valuesText entry.2) =
      some (String.ofList entry.1.toList, ':' :: ' ' :: valuesText entry.2) :=
    name?_append name (by simp; decide)
  have colon : skipSpaces (':' :: ' ' :: valuesText entry.2) =
      ':' :: ' ' :: valuesText entry.2 :=
    List.dropWhile_cons_of_neg (by decide)
  rw [keyedValues?_of_colon named colon, values_valuesText printable, String.ofList_toList]

/-- The lines of entries are read as these entries. -/
theorem repeats_entryLines
    (names : ∀ entry ∈ entries, isName entry.1.toList = true)
    (printable : ∀ entry ∈ entries, ∀ value ∈ entry.2, value.isPrintable = true) :
    Repeats entryWithBreaks? (skipBreaks (joined (entries.map (String.toList ∘ entryLine))))
      entries [] := by
  induction entries with
  | nil => exact .stop rfl
  | cons entry entries ih =>
      have name := names entry List.mem_cons_self
      have reads := keyedValues?_entryLine name (printable entry List.mem_cons_self)
      have later := ih (fun other listed => names other (List.mem_cons_of_mem _ listed))
        fun other listed => printable other (List.mem_cons_of_mem _ listed)
      cases entries with
      | nil =>
          refine .next ?_ (.stop rfl : Repeats entryWithBreaks? [] [] [])
          rw [List.map_singleton, joined, List.intercalate_singleton, Function.comp_apply,
            toList_entryLine, skipBreaks_of_isName name, entryWithBreaks?, reads]
          rfl
      | cons next entries =>
          refine .next ?_ later
          rw [List.map_cons, joined_cons (by simp), Function.comp_apply, toList_entryLine,
            List.cons_append, List.append_assoc, skipBreaks_of_isName name, ← List.append_assoc,
            entryWithBreaks?, endsAtBreak_keyedValues _ _ (by decide), reads]
          rfl

/-! ## Sections -/

/-- The lines of a printable section are read as this section. -/
theorem reads_sectionLines (printable : isPrintable found = true) :
    Reads (joined ((sectionLines found).map String.toList)) [found] := by
  obtain ⟨title, entries⟩ := found
  simp only [isPrintable, Bool.and_eq_true, Bool.not_eq_true', List.isEmpty_eq_false_iff,
    List.all_eq_true] at printable
  obtain ⟨⟨name, nonempty⟩, printable⟩ := printable
  have repeats := repeats_entryLines (fun entry listed => (printable entry listed).1)
    fun entry listed => (printable entry listed).2
  generalize shown : joined (entries.map (String.toList ∘ entryLine)) = lines at repeats
  have whole : joined ((sectionLines (title, entries)).map String.toList) =
      title.toList ++ '\n' :: lines := by
    rw [sectionLines, List.map_cons, List.map_map, joined_cons (by simpa using nonempty), shown]
  have start : skipBreaks (title.toList ++ '\n' :: lines) = title.toList ++ '\n' :: lines := by
    rw [← skipBreaks_of_isName name, skipBreaks_skipBreaks]
  have named : name? (skipBreaks (title.toList ++ '\n' :: lines)) =
      some (String.ofList title.toList, '\n' :: lines) := by
    rw [start]
    exact name?_append name (by simp; decide)
  have reads := wholeSection?_eq named repeats
  rw [if_neg nonempty, String.ofList_toList] at reads
  rw [whole]
  exact .cons reads (reads_of_blank rfl)

theorem reads_flatMap_sectionLines (printable : ∀ found ∈ sections, isPrintable found = true) :
    Reads (joined ((sections.flatMap sectionLines).map String.toList)) sections := by
  induction sections with
  | nil => exact reads_of_blank rfl
  | cons found sections ih =>
      have first := reads_sectionLines (printable found List.mem_cons_self)
      have later := ih fun other listed => printable other (List.mem_cons_of_mem _ listed)
      rw [List.flatMap_cons, List.map_append]
      exact first.joined_append later

/-! ## Lines -/

theorem isBreak_of_continuesName (continues : continuesName c = true) : isBreak c = false := by
  by_contra breaks
  rcases eq_of_isBreak (eq_true_of_ne_false breaks) with rfl | rfl <;> cases continues

theorem isBreak_of_isValueChar (valueChar : isValueChar c = true) : isBreak c = false := by
  by_contra breaks
  rcases eq_of_isBreak (eq_true_of_ne_false breaks) with rfl | rfl <;> cases valueChar

theorem isBreak_of_mem_isName (name : isName text = true) (member : c ∈ text) :
    isBreak c = false :=
  isBreak_of_continuesName (List.all_eq_true.mp (all_continuesName_of_isName name) c member)

theorem isBreak_of_mem_toText (printable : value.isPrintable = true)
    (member : c ∈ value.toText.toList) : isBreak c = false :=
  isBreak_of_isValueChar ((value.isToken_toText printable).2 c member)

theorem isBreak_of_mem_valuesText (printable : ∀ value ∈ valueList, value.isPrintable = true)
    (member : c ∈ valuesText valueList) : isBreak c = false := by
  induction valueList with
  | nil => cases member
  | cons value valueList ih =>
      cases valueList with
      | nil =>
          rw [valuesText, List.map_singleton, List.intercalate_singleton] at member
          exact isBreak_of_mem_toText (printable value List.mem_cons_self) member
      | cons next valueList =>
          rw [valuesText_cons_cons, List.mem_append, List.mem_cons, List.mem_cons] at member
          rcases member with here | rfl | rfl | later
          · exact isBreak_of_mem_toText (printable value List.mem_cons_self) here
          · decide
          · decide
          · exact ih (fun other listed => printable other (List.mem_cons_of_mem _ listed)) later

/-- A line that starts with a name is no comment. -/
theorem isComment_of_isName (name : isName text = true) (rest : List Char) :
    isComment (text ++ rest) = false := by
  cases text with
  | nil => cases name
  | cons first text =>
      have starts := (Bool.and_eq_true_iff.mp name).1
      have start : (first :: (text ++ rest)).dropWhile Text.isBlank = first :: (text ++ rest) :=
        List.dropWhile_cons_of_neg (by simp [isBlank_of_startsName starts])
      have differs {other : Char} (outside : startsName other = false) : first ≠ other := by
        rintro rfl
        rw [starts] at outside
        cases outside
      rw [List.cons_append, isComment_of_start start]
      simp [differs (by decide : startsName '/' = false),
        differs (by decide : startsName '#' = false), differs (by decide : startsName '%' = false),
        differs (by decide : startsName ';' = false)]

theorem isComment_space_cons (line : List Char) : isComment (' ' :: line) = isComment line := by
  rw [isComment, isComment, List.dropWhile_cons_of_pos (by decide)]

/-- Printed lines are single lines and no comments. -/
theorem plain_sectionLines (printable : isPrintable found = true) {line : String}
    (listed : line ∈ sectionLines found) :
    (∀ c ∈ line.toList, isBreak c = false) ∧ isComment line.toList = false := by
  simp only [isPrintable, Bool.and_eq_true, List.all_eq_true] at printable
  obtain ⟨⟨name, -⟩, printable⟩ := printable
  rcases List.mem_cons.mp listed with rfl | inEntries
  · refine ⟨fun c member => isBreak_of_mem_isName name member, ?_⟩
    rw [← List.append_nil found.1.toList]
    exact isComment_of_isName name []
  · obtain ⟨entry, entered, rfl⟩ := List.mem_map.mp inEntries
    obtain ⟨keyName, valuesPrintable⟩ := printable entry entered
    rw [toList_entryLine]
    refine ⟨fun c member => ?_, ?_⟩
    · rw [List.mem_cons, List.mem_append, List.mem_cons, List.mem_cons] at member
      rcases member with rfl | inKey | rfl | rfl | inValues
      · decide
      · exact isBreak_of_mem_isName keyName inKey
      · decide
      · decide
      · exact isBreak_of_mem_valuesText valuesPrintable inValues
    · rw [isComment_space_cons]
      exact isComment_of_isName keyName _

theorem toList_join_lines (lines : List String) :
    (String.join (lines.map (· ++ "\n"))).toList = joined (lines.map String.toList ++ [[]]) := by
  induction lines with
  | nil => rfl
  | cons line lines ih =>
      rw [List.map_cons, String.join_cons, String.toList_append, ih, List.map_cons,
        List.cons_append, joined_cons (by simp)]
      simp

/-! ## Reading what is printed -/

/-- The text of printable sections has a document, which holds for each title and key the
values of the last entry for them, and nothing else. -/
theorem parse_print (printable : ∀ found ∈ sections, isPrintable found = true) :
    ∃ document, parse (print sections) = .ok document ∧ document.Ascends ∧
      (∀ title, (Dictionary.get? document title).isSome ↔ title ∈ sections.map Prod.fst) ∧
      ∀ title key, valuesOf? document title key = lastValues? sections title key := by
  refine ⟨ofSections sections, ?_, ascends_ofSections sections, isSome_get?_ofSections sections,
    valuesOf?_ofSections sections⟩
  have plain : ∀ line ∈ (sections.flatMap sectionLines).map String.toList,
      (∀ c ∈ line, isBreak c = false) ∧ isComment line = false := by
    intro line listed
    obtain ⟨line, printed, rfl⟩ := List.mem_map.mp listed
    obtain ⟨found, inSections, inLines⟩ := List.mem_flatMap.mp printed
    exact plain_sectionLines (printable found inSections) inLines
  rw [parse, print, toList_join_lines, withoutComments_joined plain]
  exact ofPlainText_of_reads (reads_flatMap_sectionLines printable)

/-- A key without values, a colon in a value, and a title that stands there twice. -/
theorem parse_print_repeated_title :
    ∃ document,
      parse (print
        [("controller", [("scratch_pool", [.integer (-8)]), ("tags", [])]),
          ("logging", [("file", [.text "C:/log", .boolean true])]),
          ("controller", [("scratch_pool", [.integer 4])])]) = .ok document ∧
      valuesOf? document "controller" "scratch_pool" = some [.integer 4] ∧
      valuesOf? document "controller" "tags" = some [] ∧
      valuesOf? document "logging" "file" = some [.text "C:/log", .boolean true] := by
  have printable : ∀ found ∈
      ([("controller", [("scratch_pool", [.integer (-8)]), ("tags", [])]),
        ("logging", [("file", [.text "C:/log", .boolean true])]),
        ("controller", [("scratch_pool", [.integer 4])])] : List (String × List Entry)),
      isPrintable found = true := by decide
  obtain ⟨document, parsed, -, -, shown⟩ := parse_print printable
  exact ⟨document, parsed, shown _ _, shown _ _, shown _ _⟩

end Document

end SymbolicAlgebra
