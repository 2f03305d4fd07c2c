/-
  TillLang.Text.LineEnd — one mark for the end of a line.

  In a file a line may end in a line feed, a carriage return, or the two together. Inside
  the program a line feed stands for all three, and it ends every line that is written.
-/

namespace TillLang.Text

/-- A text with a line feed for every end of a line. -/
def unifyLineEnds : List Char → List Char
  | [] => []
  | '\r' :: '\n' :: rest => '\n' :: unifyLineEnds rest
  | c :: rest => (if c = '\r' then '\n' else c) :: unifyLineEnds rest

def joinLines (lines : List String) : String := String.join (lines.map (· ++ "\n"))

end TillLang.Text
