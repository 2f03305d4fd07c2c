/-
  TillLang.Token.Line — the tokens of one line.

  Spaces separate tokens. At any other character the longest token that starts there is
  taken: a word, a number, a quoted literal or an operator. Words are keywords, truth
  values or names. The number of open parentheses is carried along, because a line break
  inside parentheses does not end a statement.
-/

import TillLang.Text.Letter
import TillLang.Text.Numeral
import TillLang.Text.Quoted
import TillLang.Token.Basic

namespace TillLang.Token

/-! ## Words, numbers and operators -/

/-- Characters a word may start with. -/
def isWordStart (c : Char) : Bool := Text.isLetter c || c = '_'

/-- Characters a word may go on with. -/
def isWordChar (c : Char) : Bool := Text.isLetter c || Text.isNumeral c || c = '_'

/-- The digits of number literals; those of other scripts are not among them. -/
def isDigit (c : Char) : Bool := '0' ≤ c && c ≤ '9'

def keywords : List String := ["if", "while", "return", "display"]

def booleans : List String := ["true", "false"]

def wordKind (word : String) : Kind :=
  if keywords.contains word then .keyword else if booleans.contains word then .bool else .name

/-- The number in front of a text: digits, and a decimal point only before a digit. -/
def numberText (cs : List Char) : List Char :=
  let whole := cs.takeWhile isDigit
  match cs.dropWhile isDigit with
  | '.' :: d :: rest =>
    if isDigit d then whole ++ '.' :: d :: rest.takeWhile isDigit else whole
  | _ => whole

def isSingleOp (c : Char) : Bool :=
  ['<', '>', '+', '-', '*', '/', '!', '~', '=', '(', ')', ','].contains c

/-- The operator in front of a text; two characters win over one. -/
def opText? : List Char → Option (List Char)
  | '=' :: '=' :: _ => some ['=', '=']
  | '-' :: '>' :: _ => some ['-', '>']
  | c :: _ => if isSingleOp c then some [c] else none
  | [] => none

/-! ## Quoted literals -/

/-- The rest of a quoted literal from its `offset`-th character on: its text up to the
closing quote, and how many characters that text stands for. A fault comes with its
distance from the opening quote. -/
def quotedTail (quote : Char) (unterminated : Fault) :
    Nat → List Char → Except (Nat × Fault) (List Char × Nat)
  | _, [] => .error (0, unterminated)
  | _, '\\' :: [] => .error (0, unterminated)
  | offset, '\\' :: e :: rest =>
    if (Text.Quoted.unescape? e).isSome then
      (fun (text, count) => ('\\' :: e :: text, count + 1)) <$>
        quotedTail quote unterminated (offset + 2) rest
    else .error (offset, .unknownEscape e)
  | offset, c :: rest =>
    if c = quote then .ok ([c], 0)
    else
      (fun (text, count) => (c :: text, count + 1)) <$>
        quotedTail quote unterminated (offset + 1) rest

def stringText (rest : List Char) : Except (Nat × Fault) (List Char) :=
  (fun (text, _) => '"' :: text) <$> quotedTail '"' .unterminatedString 1 rest

def charText (rest : List Char) : Except (Nat × Fault) (List Char) := do
  let (text, count) ← quotedTail '\'' .unterminatedCharacter 1 rest
  if count = 1 then return '\'' :: text else .error (0, .notOneCharacter)

/-! ## Lines -/

/-- The token that starts with `c`, as a kind and a text. A fault comes with its distance
from `c`. -/
def lexemeAt (c : Char) (rest : List Char) : Except (Nat × Fault) (Kind × List Char) :=
  if c = '\t' then .error (0, .tabCharacter)
  else if isWordStart c then
    let word := c :: rest.takeWhile isWordChar
    .ok (wordKind (String.ofList word), word)
  else if isDigit c then .ok (.number, numberText (c :: rest))
  else if c = '"' then (fun text => (.string, text)) <$> stringText rest
  else if c = '\'' then (fun text => (.char, text)) <$> charText rest
  else match opText? (c :: rest) with
    | some text => .ok (.op, text)
    | none => .error (0, .unrecognized c)

/-- The number of open parentheses after a token; a closing one without an opening one
changes nothing. -/
def depthAfter (depth : Nat) (kind : Kind) (text : List Char) : Nat :=
  if kind = .op && text = ['('] then depth + 1
  else if kind = .op && text = [')'] then depth - 1
  else depth

/-- The tokens of the rest of line `line`, which starts at `column`, and the number of
parentheses open after it. The line itself starts `offset` characters into the source. -/
def scanLine (line offset : Nat) (cs : List Char) (column depth : Nat) :
    Except Error (List Token × Nat) :=
  match cs with
  | [] => .ok ([], depth)
  | c :: rest =>
    if c = ' ' then scanLine line offset rest (column + 1) depth
    else match lexemeAt c rest with
      | .error (distance, fault) => .error ⟨fault, ⟨line, column + distance⟩⟩
      | .ok (kind, text) =>
        let token : Token := ⟨kind, String.ofList text, line, column, offset + column - 1⟩
        (fun (tokens, depth) => (token :: tokens, depth)) <$>
          scanLine line offset (rest.drop (text.length - 1)) (column + text.length)
            (depthAfter depth kind text)
termination_by cs.length
decreasing_by all_goals (simp only [List.length_drop, List.length_cons]; omega)

end TillLang.Token
