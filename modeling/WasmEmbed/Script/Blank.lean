import WasmEmbed.Script.Cursor

/-!
# Characters between tokens

Two classes of white space matter. `isBlank` is what separates tokens anywhere: the white space of
Unicode together with the byte order mark, the zero-width space and the word joiner. `isMargin` is
the narrower class that is looked through when the end of a statement is sought; it leaves out the
blanks that do not allow a line to be broken, and the zero-width ones.

`isWordStart` and `isWordPart` are the characters of names. They are defined by exclusion: what is
neither a blank, a control character nor a mark of punctuation may stand in a name.
-/

namespace WasmEmbed.Script

/-- The white space of Unicode. -/
def isSpace (c : Char) : Bool :=
  let n := c.toNat
  (0x09 ≤ n && n ≤ 0x0d) || n == 0x20 || n == 0x85 || n == 0xa0 || n == 0x1680 ||
    (0x2000 ≤ n && n ≤ 0x200a) || n == 0x2028 || n == 0x2029 || n == 0x202f || n == 0x205f ||
    n == 0x3000

/-- What separates tokens. -/
def isBlank (c : Char) : Bool :=
  isSpace c || c == '\ufeff' || c == '\u200b' || c == '\u2060'

/-- The blanks that are looked through when the end of a statement is sought. -/
def isMargin (c : Char) : Bool :=
  isSpace c && !(c == '\u0085' || c == '\u00a0' || c == '\u2007' || c == '\u202f')

/-- The characters that end a line for the purpose of ending a statement. -/
def endsLine (c : Char) : Bool :=
  c == '\n' || c == '\u2028' || c == '\u2029'

/-- The punctuation that no name contains. -/
def isPunctuation (c : Char) : Bool :=
  ":;`\"'@#.,|^&<=>+-*/\\%?!~()[]\x7b\x7d".toList.contains c

/-- A character that may stand inside a name. -/
def isWordPart (c : Char) : Bool :=
  !(c.toNat < 0x20 || isBlank c || isPunctuation c)

/-- A character that may begin a name. -/
def isWordStart (c : Char) : Bool :=
  isWordPart c && !c.isDigit

/-- A hexadecimal digit of either case. -/
def isHexDigit (c : Char) : Bool :=
  c.isDigit || ('a' ≤ c && c ≤ 'f') || ('A' ≤ c && c ≤ 'F')

/-- Every blank of the margin separates tokens. -/
theorem isBlank_of_isMargin {c : Char} (h : isMargin c = true) : isBlank c = true := by
  simp only [isMargin, isBlank, Bool.and_eq_true] at h ⊢
  simp [h.1]

end WasmEmbed.Script
