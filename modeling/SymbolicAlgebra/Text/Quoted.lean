import SymbolicAlgebra.Text.Visible

/-!
# Quoted text

Text between quotes, in which the quote itself, the backslash, line breaks and
tabs are written with a backslash and every other character that is not
visible by its code point.
-/

namespace SymbolicAlgebra

namespace Text

/-- The hexadecimal digits of a code point, without leading zeros. -/
def hexDigits (code : Nat) : String := String.ofList (Nat.toDigits 16 code)

/-- One character as it is written between the given quotes. -/
def escape (quote : Char) (character : Char) : String :=
  if character = '\x00' then "\\0"
  else if character = '\t' then "\\t"
  else if character = '\r' then "\\r"
  else if character = '\n' then "\\n"
  else if character = '\\' then "\\\\"
  else if character = quote then "\\" ++ String.singleton quote
  else if isVisible character then String.singleton character
  else "\\u\x7b" ++ hexDigits character.toNat ++ "\x7d"

/-- The text between the given quotes. -/
def quotedBy (quote : Char) (text : String) : String :=
  String.singleton quote ++ String.join (text.toList.map (escape quote)) ++
    String.singleton quote

/-- The text between double quotes. -/
def quoted (text : String) : String := quotedBy '"' text

end Text

end SymbolicAlgebra
