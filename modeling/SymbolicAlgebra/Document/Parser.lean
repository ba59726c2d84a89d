import SymbolicAlgebra.Document.Dictionary
import SymbolicAlgebra.Document.Value
import SymbolicAlgebra.Text.Blank
import SymbolicAlgebra.Text.Quoted

/-!
# Configuration documents

A document is a sequence of sections.  A section is a title followed by at least
one entry, and an entry is a key, a colon and a list of values separated by
commas on one line.  Lines that start with a comment mark are dropped first.

The grammar itself knows only ASCII letters, digits and white space.  Loops over
entries, values and sections take a bound on their rounds; every round consumes
text, so the length of the text is always enough.
-/

namespace SymbolicAlgebra

/-- The entries of a section. -/
abbrev Section := Dictionary (List Document.Value)

/-- The sections of a document by title. -/
abbrev Document := Dictionary Section

namespace Document

/-- What is wrong with a document. -/
inductive SyntaxError where
  /-- The first section breaks off before this text. -/
  | brokenSection (rest : String)
  /-- This text is left over behind the last section. -/
  | leftOver (text : String)
deriving DecidableEq

namespace SyntaxError

def message : SyntaxError → String
  | brokenSection rest =>
      "Error(Error \x7b input: " ++ Text.quoted rest ++ ", code: Tag \x7d)"
  | leftOver text => "unexpected text: '" ++ text ++ "'"

end SyntaxError

/-! ## Lines and comments -/

/-- A line without the carriage return at its end. -/
def withoutReturn (line : List Char) : List Char :=
  if line.getLast? = some '\r' then line.dropLast else line

/-- The lines of a text.  A line break ends a line, with a carriage return
before it or without; the text behind the last one is a line unless it is
empty. -/
def lines (text : List Char) : List (List Char) :=
  let pieces := Text.splitOn '\n' text
  let ended := pieces.dropLast.map withoutReturn
  match pieces.getLast? with
  | some [] | none => ended
  | some last => ended ++ [last]

/-- The line starts with a comment mark. -/
def isComment (line : List Char) : Bool :=
  match line.dropWhile Text.isBlank with
  | '/' :: '/' :: _ => true
  | '#' :: _ | '%' :: _ | ';' :: _ => true
  | _ => false

/-- The text without its comment lines. -/
def withoutComments (text : List Char) : List Char :=
  List.intercalate ['\n'] ((lines text).filter (!isComment ·))

/-! ## Grammar -/

/-- The character is a space or a tab. -/
def isSpace (c : Char) : Bool := c = ' ' || c = '\t'

/-- The character is a space, a tab or part of a line break. -/
def isSpaceOrBreak (c : Char) : Bool := isSpace c || c = '\r' || c = '\n'

def skipSpaces (text : List Char) : List Char := text.dropWhile isSpace

def skipBreaks (text : List Char) : List Char := text.dropWhile isSpaceOrBreak

/-- A title or key starts with this character. -/
def startsName (c : Char) : Bool := c.isAlpha || c = '_'

/-- A title or key goes on with this character. -/
def continuesName (c : Char) : Bool := c.isAlphanum || c = '_'

/-- A title or key at the start of a text, and the text behind it. -/
def name? : List Char → Option (String × List Char)
  | [] => none
  | c :: rest =>
      if startsName c then
        some (String.ofList (c :: rest.takeWhile continuesName), rest.dropWhile continuesName)
      else none

/-- A value holds this character. -/
def isValueChar (c : Char) : Bool := !isSpaceOrBreak c && c ≠ ',' && c ≠ ';'

/-- A value at the start of a text, and the text behind it. -/
def value? (text : List Char) : Option (Value × List Char) :=
  let token := text.takeWhile isValueChar
  if token.isEmpty then none else some (Value.ofToken token, text.dropWhile isValueChar)

/-- Further values, each behind a comma, and the text behind them.  A comma
without a value is not taken. -/
def moreValues : Nat → List Char → List Value × List Char
  | 0, text => ([], text)
  | rounds + 1, text =>
      match skipSpaces text with
      | ',' :: rest =>
          match value? (skipSpaces rest) with
          | some (value, rest) =>
              let (values, rest) := moreValues rounds rest
              (value :: values, rest)
          | none => ([], text)
      | _ => ([], text)

/-- A list of values, possibly empty, and the text behind it. -/
def values (text : List Char) : List Value × List Char :=
  let start := skipSpaces text
  match value? start with
  | some (value, rest) =>
      let (values, rest) := moreValues rest.length rest
      (value :: values, rest)
  | none => ([], start)

/-- A key with its values. -/
abbrev Entry := String × List Value

/-- An entry and the text behind it, or the text where it breaks off. -/
def entry (text : List Char) : Except (List Char) (Entry × List Char) :=
  match name? text with
  | none => .error text
  | some (key, rest) =>
      match skipSpaces rest with
      | ':' :: rest =>
          let (values, rest) := values rest
          .ok ((key, values), rest)
      | rest => .error rest

/-- Further entries and the text behind them. -/
def moreEntries : Nat → List Char → List Entry × List Char
  | 0, text => ([], text)
  | rounds + 1, text =>
      match entry text with
      | .error _ => ([], text)
      | .ok (found, rest) =>
          let (entries, rest) := moreEntries rounds (skipBreaks rest)
          (found :: entries, rest)

/-- A title with its entries, and the text behind them, or the text where the
section breaks off. -/
def sectionAt (text : List Char) :
    Except (List Char) ((String × List Entry) × List Char) :=
  let start := skipBreaks text
  match name? start with
  | none => .error start
  | some (title, rest) =>
      match entry (skipBreaks rest) with
      | .error rest => .error rest
      | .ok (first, rest) =>
          let rest := skipBreaks rest
          let (entries, rest) := moreEntries rest.length rest
          .ok ((title, first :: entries), rest)

/-- Further sections and the text behind them. -/
def moreSections : Nat → List Char → List (String × List Entry) × List Char
  | 0, text => ([], text)
  | rounds + 1, text =>
      match sectionAt text with
      | .error _ => ([], text)
      | .ok (found, rest) =>
          let (sections, rest) := moreSections rounds rest
          (found :: sections, rest)

/-- The entries of some sections by title; sections with one title are merged,
and the last value of a key wins. -/
def ofSections (sections : List (String × List Entry)) : Document :=
  sections.foldl (fun document found =>
    let old := (Dictionary.get? document found.1).getD []
    Dictionary.insert found.1 (Dictionary.insertAll old found.2) document) []

/-- A document from a text without comments. -/
def ofPlainText (text : List Char) : Except SyntaxError Document :=
  if text.all Text.isBlank then .ok []
  else
    match sectionAt text with
    | .error rest => .error (.brokenSection (String.ofList rest))
    | .ok (first, rest) =>
        let (sections, rest) := moreSections rest.length rest
        if rest.all Text.isBlank then .ok (ofSections (first :: sections))
        else .error (.leftOver (String.ofList (Text.trim rest)))

/-- The document of a text. -/
def parse (text : String) : Except SyntaxError Document :=
  ofPlainText (withoutComments text.toList)

end Document

end SymbolicAlgebra
