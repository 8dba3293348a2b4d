/-! The characters of a YAML text with their places. Line ends are written in several ways; all of
them but the two separators of Unicode become a plain line feed, and a pair of carriage return and
line feed is one. -/

namespace Chronogram.Yaml

structure Glyph where
  char : Char
  line : Nat
  column : Nat
  /-- Number of characters before this one. -/
  index : Nat

/-- The characters that a YAML text may hold. -/
def isPrintable (c : Char) : Bool :=
  c == '\t' || c == '\n' || c == '\r' || (' ' ≤ c && c ≤ '~') || c == '\u0085' ||
    ('\u00a0' ≤ c && c ≤ '\ufffd') || c.toNat ≥ 0x10000

def isBreak (c : Char) : Bool := c == '\n' || c == '\u2028' || c == '\u2029'

def isSpaceOrTab (c : Char) : Bool := c == ' ' || c == '\t'

/-- Spaces, tabs and line ends separate tokens. -/
def isGap (c : Char) : Bool := isSpaceOrTab c || isBreak c

namespace Glyph

/-- Places the characters from a given position on. A byte order mark has no width. -/
def place (line column index : Nat) : List Char → List Glyph
  | [] => []
  | '\r' :: '\n' :: cs => ⟨'\n', line, column, index⟩ :: place (line + 1) 0 (index + 2) cs
  | c :: cs =>
    let char := if c == '\r' || c == '\u0085' then '\n' else c
    ⟨char, line, column, index⟩ ::
      if isBreak char then place (line + 1) 0 (index + 1) cs
      else place line (if c == '\ufeff' then column else column + 1) (index + 1) cs

def ofText (s : String) : List Glyph := place 1 0 0 s.toList

end Glyph

def startsWithGap : List Glyph → Bool
  | [] => true
  | g :: _ => isGap g.char

def startsWith (p : Char → Bool) : List Glyph → Bool
  | [] => false
  | g :: _ => p g.char

def atLineEnd : List Glyph → Bool
  | [] => true
  | g :: _ => isBreak g.char

def atWordEnd : List Glyph → Bool
  | [] => true
  | g :: _ => g.char == ' ' || isBreak g.char

/-- Whether a mark of a document's start or end stands here, provided this is a line's start. -/
def isMarker (c : Char) : List Glyph → Bool
  | a :: b :: d :: rest => a.char == c && b.char == c && d.char == c && startsWithGap rest
  | _ => false

def isAnyMarker (gs : List Glyph) : Bool := isMarker '-' gs || isMarker '.' gs

def dropWhileChar (p : Char → Bool) (gs : List Glyph) : List Glyph := gs.dropWhile fun g => p g.char

def spanChars (p : Char → Bool) (gs : List Glyph) : List Char × List Glyph :=
  ((gs.takeWhile fun g => p g.char).map (·.char), dropWhileChar p gs)

/-- Passes over spaces, a comment and the line end; nothing else may stand there. -/
def restOfLine (gs : List Glyph) : Option (List Glyph) :=
  let gs := dropWhileChar (· == ' ') gs
  let gs := if startsWith (· == '#') gs then dropWhileChar (!isBreak ·) gs else gs
  if atLineEnd gs then some (gs.drop 1) else none

end Chronogram.Yaml
