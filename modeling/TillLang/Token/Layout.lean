/-
  TillLang.Token.Layout — the token stream of a source text.

  Blocks are marked by indentation. A line that starts a statement is compared with the
  widths of the open blocks: a wider line opens a block, a narrower one closes blocks
  until its width is met again, and a width that is never met is a fault. Blank lines
  count for nothing, and so does the indentation of a line inside open parentheses. Each
  statement ends with one line-end token, and at the end of the text all open blocks are
  closed before the end-of-text token.
-/

import TillLang.Token.Line

namespace TillLang.Token

/-- What is carried from line to line: the widths of the open blocks, innermost first, the
number of open parentheses, and the offset of the next line. -/
structure Layout where
  indents : List Nat
  depth : Nat
  offset : Nat
  deriving DecidableEq, Repr

def Layout.start : Layout := ⟨[], 0, 0⟩

def Layout.width (l : Layout) : Nat := l.indents.headD 0

def Layout.mark (l : Layout) (kind : Kind) (line column : Nat) : Token :=
  ⟨kind, "", line, column, l.offset + column - 1⟩

/-- How many blocks a line of the given width closes, and those it leaves open. -/
def closeBlocks (width : Nat) : List Nat → Nat × List Nat
  | [] => (0, [])
  | w :: rest =>
    if width < w then
      let (closed, left) := closeBlocks width rest
      (closed + 1, left)
    else (0, w :: rest)

/-- The tokens in front of a line of the given width, and the blocks open after them. -/
def Layout.reindent (l : Layout) (line width : Nat) : Except Error (List Token × List Nat) :=
  if l.width < width then .ok ([l.mark .indent line (width + 1)], width :: l.indents)
  else
    let (closed, left) := closeBlocks width l.indents
    if left.headD 0 = width then
      .ok (List.replicate closed (l.mark .dedent line (width + 1)), left)
    else .error ⟨.inconsistentDedent (width + 1), ⟨line, width + 1⟩⟩

/-- The number of spaces a line starts with; a tab after them is a fault. -/
def indentation (line : Nat) (text : List Char) : Except Error Nat :=
  let width := (text.takeWhile (· = ' ')).length
  if (text.drop width).head? = some '\t' then .error ⟨.tabInIndentation, ⟨line, width + 1⟩⟩
  else .ok width

/-- A line without the carriage return at its end. -/
def dropReturn (text : List Char) : List Char :=
  if text.getLast? = some '\r' then text.dropLast else text

/-- Lines of spaces and tabs only. -/
def isBlankLine (text : List Char) : Bool := text.all fun c => c = ' ' || c = '\t'

def Layout.line (l : Layout) (number : Nat) (raw : List Char) :
    Except Error (List Token × Layout) :=
  let text := dropReturn raw
  let next := l.offset + raw.length + 1
  if isBlankLine text then .ok ([], { l with offset := next })
  else do
    let width ← if l.depth = 0 then indentation number text else pure 0
    let (before, indents) ←
      if l.depth = 0 then l.reindent number width else pure ([], l.indents)
    let (body, depth) ← scanLine number l.offset (text.drop width) (width + 1) l.depth
    let after := if depth = 0 then [l.mark .newline number (text.length + 1)] else []
    return (before ++ body ++ after, ⟨indents, depth, next⟩)

/-- The tokens of the lines from number `number` on, and what is left open after them. -/
def Layout.lines (l : Layout) (number : Nat) :
    List (List Char) → Except Error (List Token × Layout)
  | [] => .ok ([], l)
  | raw :: rest => do
    let (first, next) ← l.line number raw
    let (others, last) ← next.lines (number + 1) rest
    return (first ++ others, last)

/-- The tokens at the end of a text of `count` lines, the last of them being `raw`. A
statement left open by a parenthesis is ended first. -/
def Layout.finish (l : Layout) (count : Nat) (raw : List Char) : List Token :=
  let column := raw.length + 1
  (if l.depth = 0 then [] else [l.mark .newline count column]) ++
    List.replicate l.indents.length (l.mark .dedent count column) ++
    [l.mark .eof count column]

/-- The lines of a text; line breaks separate them. -/
def splitLines : List Char → List (List Char)
  | [] => [[]]
  | c :: rest =>
    if c = '\n' then [] :: splitLines rest
    else match splitLines rest with
      | [] => [[c]]
      | line :: others => (c :: line) :: others

def tokenizeChars (source : List Char) : Except Error (List Token) := do
  let lines := splitLines source
  let (tokens, last) ← Layout.start.lines 1 lines
  return tokens ++ last.finish lines.length (lines.getLastD [])

end TillLang.Token

namespace TillLang

def tokenize (source : String) : Except Token.Error (List Token) :=
  Token.tokenizeChars source.toList

end TillLang
