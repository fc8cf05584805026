import FiniteState.Text.Printable

/-!
# Quoted text

A text is shown between quotation marks in such a way that every character of it can be told: the
quotation mark and the backslash follow a backslash, and a character that does not show by itself is
written by its code point.  Four such characters have names of one letter.

## Main definitions

* `encodeChar` — one character.
* `quoted` — a text between quotation marks.
-/

namespace FiniteState.Text

/-- The characters that are written as a backslash and one more character. -/
def shortEscapes : List (Char × Char) :=
  [('\x00', '0'), ('\t', 't'), ('\r', 'r'), ('\n', 'n'), ('"', '"'), ('\\', '\\')]

/-- A code point between braces, in lowercase hexadecimal digits. -/
def codePointEscape (c : Char) : List Char :=
  ['\\', 'u', '\x7b'] ++ Nat.toDigits 16 c.toNat ++ ['\x7d']

/-- A character as it is written between quotation marks. -/
def encodeChar (c : Char) : List Char :=
  match shortEscapes.lookup c with
  | some name => ['\\', name]
  | none => if isPrintable c then [c] else codePointEscape c

/-- A text between quotation marks. -/
def quoted (text : List Char) : String :=
  String.ofList ('"' :: text.flatMap encodeChar ++ ['"'])

end FiniteState.Text
