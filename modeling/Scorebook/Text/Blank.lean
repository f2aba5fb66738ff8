/-!
# Blank characters

Names, tokens and attribute values of a document are compared and read after their ends have been
cleared of blanks. Blank means the Unicode property White_Space, which is wider than
`Char.isWhitespace`: it also holds the form feed, the no-break space, the ideographic space and
the line and paragraph separators, but neither the zero-width space nor the byte order mark.
-/

namespace Scorebook.Text

/-- The 25 code points of White_Space. -/
def isBlank (c : Char) : Bool :=
  let n := c.toNat
  (0x09 ≤ n && n ≤ 0x0D) || n == 0x20 || n == 0x85 || n == 0xA0 || n == 0x1680 ||
    (0x2000 ≤ n && n ≤ 0x200A) || n == 0x2028 || n == 0x2029 || n == 0x202F || n == 0x205F ||
    n == 0x3000

/-! ## Trimming -/

/-- The text from its first character that is not blank. -/
def trimStart (s : String) : String :=
  String.ofList (s.toList.dropWhile isBlank)

/-- The characters from the first to the last that is not blank. -/
def trimChars (cs : List Char) : List Char :=
  ((cs.dropWhile isBlank).reverse.dropWhile isBlank).reverse

/-- The text without the blanks at its two ends. -/
def trim (s : String) : String :=
  String.ofList (trimChars s.toList)

theorem toList_trim (s : String) : (trim s).toList = trimChars s.toList := by
  simp [trim]

end Scorebook.Text
