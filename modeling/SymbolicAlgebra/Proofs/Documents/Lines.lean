import Mathlib.Data.List.Induction
import SymbolicAlgebra.Proofs.Documents.Grammar

/-!
# Lines of documents

The lines of a text with a line break and more text behind are the lines of both, except
that the last line of the first is now ended.  It may be empty, or lose a carriage return,
and neither changes what sections are read.  So the sections of two texts, one behind the
other on lines of their own, are those of the first and then those of the second, whatever
comments stand in them.
-/

namespace SymbolicAlgebra

namespace Text

theorem splitOn_eq (separator : Char) (text : List Char) :
    splitOn separator text = text.splitOn separator := by
  induction text with
  | nil => rfl
  | cons first text ih =>
      rw [splitOn, List.splitOn_cons_eq_if_modifyHead, ih]
      by_cases same : first = separator
      · simp [same]
      · cases pieces : text.splitOn separator with
        | nil => exact absurd pieces (List.splitOn_ne_nil _ _)
        | cons piece pieces => simp [same]

end Text

namespace Document

variable {text first second : List Char} {c : Char} {before behind : List (List Char)}
  {sections later : List (String × List Entry)}

/-! ## Lines put together -/

/-- Lines with line breaks between them. -/
def joined (lines : List (List Char)) : List Char := List.intercalate ['\n'] lines

theorem joined_cons {line : List Char} (nonempty : behind ≠ []) :
    joined (line :: behind) = line ++ '\n' :: joined behind := by
  obtain ⟨next, behind, rfl⟩ := List.exists_cons_of_ne_nil nonempty
  simp [joined]

theorem joined_append (nonempty : before ≠ []) (nonempty' : behind ≠ []) :
    joined (before ++ behind) = joined before ++ '\n' :: joined behind := by
  induction before with
  | nil => exact absurd rfl nonempty
  | cons line before ih =>
      cases before with
      | nil => rw [List.singleton_append, joined_cons nonempty', joined, joined,
          List.intercalate_singleton]
      | cons next before =>
          rw [List.cons_append, joined_cons (by simp), joined_cons (List.cons_ne_nil _ _),
            ih (List.cons_ne_nil _ _), List.append_assoc, List.cons_append]

theorem mem_joined (member : c ∈ joined before) :
    c = '\n' ∨ ∃ line ∈ before, c ∈ line := by
  induction before with
  | nil => cases member
  | cons line before ih =>
      cases before with
      | nil =>
          rw [joined, List.intercalate_singleton] at member
          exact .inr ⟨line, List.mem_cons_self, member⟩
      | cons next before =>
          rw [joined_cons (List.cons_ne_nil _ _), List.mem_append, List.mem_cons] at member
          rcases member with inLine | rfl | inRest
          · exact .inr ⟨line, List.mem_cons_self, inLine⟩
          · exact .inl rfl
          · exact (ih inRest).imp_right fun ⟨other, listed, inOther⟩ =>
              ⟨other, List.mem_cons_of_mem _ listed, inOther⟩

theorem mem_joined_of_mem {line : List Char} (listed : line ∈ before) (member : c ∈ line) :
    c ∈ joined before := by
  induction before with
  | nil => cases listed
  | cons next before ih =>
      by_cases nothing : before = []
      · subst nothing
        obtain rfl := List.mem_singleton.mp listed
        rwa [joined, List.intercalate_singleton]
      · rw [joined_cons nothing, List.mem_append, List.mem_cons]
        rcases List.mem_cons.mp listed with rfl | later
        · exact .inl member
        · exact .inr (.inr (ih later))

/-! ## Lines of a text -/

theorem lines_of_splitOn {last : List Char} (pieces : text.splitOn '\n' = before ++ [last]) :
    lines text = before.map withoutReturn ++ if last = [] then [] else [last] := by
  rw [lines]
  simp only [Text.splitOn_eq, pieces, List.dropLast_concat, List.getLast?_concat]
  cases last with
  | nil => simp
  | cons first last => rfl

theorem exists_splitOn (text : List Char) :
    ∃ before last, text.splitOn '\n' = before ++ [last] := by
  rcases List.eq_nil_or_concat' (text.splitOn '\n') with nothing | ⟨before, last, pieces⟩
  · exact absurd nothing (List.splitOn_ne_nil _ _)
  · exact ⟨before, last, pieces⟩

theorem lines_append (first second : List Char) :
    lines (first ++ '\n' :: second) =
      (first.splitOn '\n').map withoutReturn ++ lines second := by
  obtain ⟨before, last, pieces⟩ := exists_splitOn second
  have whole : (first ++ '\n' :: second).splitOn '\n' =
      (first.splitOn '\n' ++ before) ++ [last] := by
    rw [List.splitOn_append_cons_self, pieces, List.append_assoc]
  rw [lines_of_splitOn whole, lines_of_splitOn pieces, List.map_append, List.append_assoc]

theorem mem_of_mem_withoutReturn {line : List Char} (member : c ∈ withoutReturn line) :
    c ∈ line := by
  rw [withoutReturn] at member
  split at member
  · exact List.dropLast_subset line member
  · exact member

theorem mem_of_mem_lines {line : List Char} (listed : line ∈ lines text) (member : c ∈ line) :
    c ∈ text := by
  obtain ⟨before, last, pieces⟩ := exists_splitOn text
  have whole : joined (before ++ [last]) = text := by
    rw [← pieces]
    exact List.intercalate_splitOn '\n'
  rw [lines_of_splitOn pieces] at listed
  rw [← whole]
  rcases List.mem_append.mp listed with ended | unended
  · obtain ⟨piece, between, rfl⟩ := List.mem_map.mp ended
    exact mem_joined_of_mem (List.mem_append_left _ between) (mem_of_mem_withoutReturn member)
  · split at unended
    · cases unended
    · rw [List.mem_singleton] at unended
      exact mem_joined_of_mem (List.mem_append_right _ List.mem_cons_self) (unended ▸ member)

/-! ## Comments -/

/-- The lines that are not comments. -/
def kept (lines : List (List Char)) : List (List Char) := lines.filter (!isComment ·)

theorem withoutComments_eq (text : List Char) :
    withoutComments text = joined (kept (lines text)) :=
  rfl

theorem mem_of_mem_withoutComments (member : c ∈ withoutComments text) :
    c = '\n' ∨ c ∈ text :=
  (mem_joined member).imp_right fun ⟨_, listed, inLine⟩ =>
    mem_of_mem_lines (List.mem_of_mem_filter listed) inLine

theorem isComment_of_start {line rest : List Char} {start : Char}
    (shown : line.dropWhile Text.isBlank = start :: rest) :
    isComment line = ((start = '/' && rest.head? = some '/') || start = '#' || start = '%' ||
      start = ';') := by
  rw [isComment, shown]
  split
  · rename_i same; cases same; rfl
  · rename_i same; cases same; rfl
  · rename_i same; cases same; rfl
  · rename_i same; cases same; rfl
  · rename_i slashes mark percent semicolon
    symm
    simp only [Bool.or_eq_false_iff, decide_eq_false_iff_not, Bool.and_eq_false_iff]
    refine ⟨⟨⟨?_, ?_⟩, ?_⟩, ?_⟩
    · by_contra both
      push Not at both
      obtain ⟨rfl, next⟩ := both
      obtain ⟨tail, rfl⟩ := List.head?_eq_some_iff.mp next
      exact slashes tail rfl
    · rintro rfl
      exact mark rest rfl
    · rintro rfl
      exact percent rest rfl
    · rintro rfl
      exact semicolon rest rfl

/-- A carriage return at the end of a line is no reason to take it for a comment. -/
theorem isComment_append_return (line : List Char) :
    isComment (line ++ ['\r']) = isComment line := by
  cases shown : line.dropWhile Text.isBlank with
  | nil =>
      have blank : (line ++ ['\r']).dropWhile Text.isBlank = [] := by
        rw [List.dropWhile_append, shown]
        rfl
      rw [isComment, isComment, shown, blank]
  | cons start rest =>
      have longer : (line ++ ['\r']).dropWhile Text.isBlank = start :: (rest ++ ['\r']) := by
        rw [List.dropWhile_append, shown]
        rfl
      rw [isComment_of_start shown, isComment_of_start longer]
      cases rest <;> rfl

theorem withoutReturn_or (line : List Char) :
    withoutReturn line = line ∨ line = withoutReturn line ++ ['\r'] := by
  rw [withoutReturn]
  split
  · rename_i ends
    exact .inr (List.dropLast_append_getLast? _ ends).symm
  · exact .inl rfl

theorem withoutReturn_of_forall {line : List Char} (plain : ∀ c ∈ line, isBreak c = false) :
    withoutReturn line = line := by
  rcases withoutReturn_or line with same | ended
  · exact same
  · have member : '\r' ∈ line := ended ▸ List.mem_append_right _ List.mem_cons_self
    cases plain '\r' member

/-- Ended lines without comments stay as they are. -/
theorem withoutComments_joined
    (plain : ∀ line ∈ before, (∀ c ∈ line, isBreak c = false) ∧ isComment line = false) :
    withoutComments (joined (before ++ [[]])) = joined before := by
  have pieces : (joined (before ++ [[]])).splitOn '\n' = before ++ [[]] := by
    refine List.splitOn_intercalate '\n' (fun line listed member => ?_) (by simp)
    rcases List.mem_append.mp listed with inside | last
    · cases (plain line inside).1 '\n' member
    · rw [List.mem_singleton.mp last] at member
      cases member
  have unchanged : before.map withoutReturn = before := by
    conv_rhs => rw [← List.map_id before]
    exact List.map_congr_left fun line listed => withoutReturn_of_forall (plain line listed).1
  rw [withoutComments_eq, lines_of_splitOn pieces, if_pos rfl, List.append_nil, unchanged, kept,
    List.filter_eq_self.mpr fun line listed => by simp [(plain line listed).2]]

/-! ## Sections on lines -/

/-- The sections of some lines and of others behind them. -/
theorem Reads.joined_append (first : Reads (joined before) sections)
    (second : Reads (joined behind) later) :
    Reads (joined (before ++ behind)) (sections ++ later) := by
  by_cases nothing : before = []
  · subst nothing
    rw [first.unique (reads_of_blank rfl)]
    exact second
  by_cases nothing' : behind = []
  · subst nothing'
    rw [second.unique (reads_of_blank rfl), List.append_nil, List.append_nil]
    exact first
  rw [Document.joined_append nothing nothing']
  exact first.append (by decide) second

/-- The last line of a text may as well be ended. -/
theorem Reads.ended (reads : Reads (withoutComments text) sections) :
    Reads (joined (kept ((text.splitOn '\n').map withoutReturn))) sections := by
  obtain ⟨before, last, pieces⟩ := exists_splitOn text
  rw [withoutComments_eq, lines_of_splitOn pieces] at reads
  rw [pieces, List.map_append]
  simp only [kept, List.filter_append, List.map_cons, List.map_nil] at reads ⊢
  generalize List.filter (!isComment ·) (before.map withoutReturn) = lines at reads ⊢
  by_cases empty : last = []
  · subst empty
    rw [if_pos rfl, List.filter_nil, List.append_nil] at reads
    have longer := reads.joined_append (reads_of_blank rfl : Reads (joined [[]]) [])
    rwa [List.append_nil] at longer
  rw [if_neg empty] at reads
  -- only a carriage return at the end tells the last line from an ended one
  rcases withoutReturn_or last with same | ended
  · rwa [same]
  generalize withoutReturn last = line at ended
  subst ended
  by_cases comment : isComment line = true
  · rw [List.filter_cons_of_neg (by simp [isComment_append_return, comment])] at reads
    rwa [List.filter_cons_of_neg (by simp [comment])]
  · rw [List.filter_cons_of_pos (by simp [isComment_append_return, comment]),
      List.filter_nil] at reads
    rw [List.filter_cons_of_pos (by simp [comment]), List.filter_nil]
    have shown : joined (lines ++ [line ++ ['\r']]) = joined (lines ++ [line]) ++ ['\r'] := by
      by_cases nothing : lines = []
      · subst nothing
        simp [joined]
      · rw [Document.joined_append nothing (by simp), Document.joined_append nothing (by simp)]
        simp [joined]
    rw [shown] at reads
    exact reads.of_append (by decide) rfl

/-- The sections of two texts, one behind the other on lines of their own. -/
theorem reads_withoutComments_append (reads : Reads (withoutComments first) sections)
    (reads' : Reads (withoutComments second) later) :
    Reads (withoutComments (first ++ '\n' :: second)) (sections ++ later) := by
  rw [withoutComments_eq, lines_append, kept, List.filter_append]
  exact reads.ended.joined_append reads'

end Document

end SymbolicAlgebra
