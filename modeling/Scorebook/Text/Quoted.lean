/-!
# Quoted strings

In LilyPond source a string stands between double quotes, and inside it a backslash protects the
next character. Escaping puts a backslash before every quote and every backslash, which is all a
string needs: any other character, a line break included, stands for itself.
-/

namespace Scorebook.Text

def escapeChar (c : Char) : List Char :=
  if c = '"' ∨ c = '\\' then ['\\', c] else [c]

/-- The text as it is written between the quotes of a string. -/
def escape (s : String) : String :=
  String.ofList (s.toList.flatMap escapeChar)

/-- The text as a string literal. -/
def quote (s : String) : String :=
  "\"" ++ escape s ++ "\""

theorem toList_escape (s : String) : (escape s).toList = s.toList.flatMap escapeChar := by
  simp [escape]

end Scorebook.Text
