import Chronogram.Text.Quoted
import Chronogram.Yaml.Scalar

/-! How a text is written as a YAML scalar: bare if it reads back as the same text, else in single
quotes, else in double quotes with escapes. A long text is broken at a space once a line is longer
than eighty columns, and goes on in the column of its indentation. -/

namespace Chronogram.Yaml

namespace ScalarText

def isBreak (c : Char) : Bool := c == '\n' || c == '\u0085' || c == '\u2028' || c == '\u2029'

def isGap (c : Char) : Bool := c == '\x00' || c == ' ' || c == '\t' || c == '\r' || isBreak c

/-- Characters that are written by an escape only. -/
def isSpecial (c : Char) : Bool :=
  !(c == '\n' || (' ' ≤ c && c ≤ '~') || c == '\u0085' || ('\u00a0' ≤ c && c.toNat ≤ 0xfffd) ||
    (0x10000 ≤ c.toNat && c.toNat < 0x10ffff)) || c == '\ufeff'

def hasPair (p q : Char → Bool) : List Char → Bool
  | a :: b :: cs => (p a && q b) || hasPair p q (b :: cs)
  | _ => false

def gapFollows : List Char → Bool
  | [] => true
  | c :: _ => isGap c

/-- Signs behind the first character that a bare scalar must not hold. -/
def hasInnerSign (before : Char) : List Char → Bool
  | [] => false
  | c :: cs => (c == ':' && gapFollows cs) || (c == '#' && isGap before) || hasInnerSign c cs

/-- Signs that would not be read as part of a bare scalar. -/
def hasSign (cs : List Char) : Bool :=
  "---".toList.isPrefixOf cs || "...".toList.isPrefixOf cs ||
    match cs with
    | [] => false
    | c :: rest =>
      "#,[]\x7b\x7d&*!|>'\"%@\x60".toList.contains c || ("?:-".toList.contains c && gapFollows rest) ||
        hasInnerSign c rest

def isEdge (c : Char) : Bool := c == ' ' || isBreak c

def allowsSingle (cs : List Char) : Bool :=
  !(hasPair isBreak (· == ' ') cs || hasPair (· == ' ') isBreak cs || cs.any isSpecial)

def allowsPlain (cs : List Char) : Bool :=
  allowsSingle cs && !cs.any isBreak && !hasSign cs &&
    !(cs.head?.any isEdge || cs.getLast?.any isEdge)

inductive Style where
  | plain | single | double
  deriving DecidableEq, Repr

/-- The style of a text. A key stays on one line. -/
def style (s : String) (isKey : Bool) : Style :=
  let cs := s.toList
  if Scalar.kind s == .text && allowsPlain cs then .plain
  else if allowsSingle cs && !(isKey && cs.any isBreak) then .single
  else .double

/-- Where lines go on, and whether they may be broken. -/
structure Margin where
  indent : Nat
  mayBreak : Bool

def width : Nat := 80

def newLine (m : Margin) : List Char := '\n' :: List.replicate m.indent ' '

/-- Runs of spaces, of line ends and of anything else. -/
def runs (cs : List Char) : List (List Char) :=
  cs.splitBy fun a b => (a == ' ') == (b == ' ') && isBreak a == isBreak b

/-- Writes runs from a column on. A line is broken at a single space, which the line end replaces;
a run of line ends is written with one more, and in quotes the first and the last run are kept. -/
def writeRuns (m : Margin) (quoted first : Bool) (column : Nat) : List (List Char) → List Char
  | [] => []
  | run :: rest =>
    let atEdge := quoted && (first || rest.isEmpty)
    if run == [' '] && column > width && m.mayBreak && !atEdge then
      newLine m ++ writeRuns m quoted false m.indent rest
    else
      match run with
      | c :: _ =>
        if isBreak c then
          (if c == '\n' then ['\n'] else []) ++ run ++ List.replicate m.indent ' ' ++
            writeRuns m quoted false m.indent rest
        else
          let text := if quoted then run.flatMap fun c => if c == '\'' then ['\'', '\''] else [c]
            else run
          text ++ writeRuns m quoted false (column + text.length) rest
      | [] => writeRuns m quoted first column rest

def escapeLetters : List (Char × Char) :=
  [('\x00', '0'), ('\x07', 'a'), ('\x08', 'b'), ('\t', 't'), ('\n', 'n'), ('\x0b', 'v'),
    ('\x0c', 'f'), ('\r', 'r'), ('\x1b', 'e'), ('"', '"'), ('\\', '\\'), ('\u0085', 'N'),
    ('\u00a0', '_'), ('\u2028', 'L'), ('\u2029', 'P')]

def needsEscape (c : Char) : Bool :=
  c == '"' || c == '\\' || c == '\u0085' || c == '\u2028' || c == '\u2029' || c == '\ufeff' ||
    !((' ' ≤ c && c ≤ '~') || ('\u00a0' ≤ c && c.toNat ≤ 0xfffd))

def hexCapitals (digits n : Nat) : List Char :=
  let ds := (Nat.toDigits 16 n).map Char.toUpper
  List.replicate (digits - ds.length) '0' ++ ds

def escaped (c : Char) : List Char :=
  match escapeLetters.lookup c with
  | some letter => ['\\', letter]
  | none =>
    if c.toNat ≤ 0xff then '\\' :: 'x' :: hexCapitals 2 c.toNat
    else if c.toNat ≤ 0xffff then '\\' :: 'u' :: hexCapitals 4 c.toNat
    else '\\' :: 'U' :: hexCapitals 8 c.toNat

/-- Writes the inside of double quotes. `column` is where the last line break or escape was written
up to and `pending`, latest first, is what came since. A line is broken in front of a space or behind
an escape, with a backslash at its end, and with another one where the next line starts with a space;
never at the first or the last character. -/
def writeDouble (m : Margin) (first : Bool) (column : Nat) (pending : List Char) :
    List Char → List Char
  | [] => pending.reverse
  | c :: rest =>
    let inside := !first && !rest.isEmpty
    if needsEscape c then
      let code := escaped c
      let column := column + pending.length + code.length
      let start := pending.reverse ++ code
      if inside && column - 1 > width && m.mayBreak then
        let guard := if rest.head? == some ' ' then ['\\'] else []
        start ++ '\\' :: newLine m ++ guard ++
          writeDouble m false (m.indent + guard.length) [] rest
      else start ++ writeDouble m false column [] rest
    else if inside && (c == ' ' || pending.isEmpty) && column + pending.length > width && m.mayBreak
    then
      let guard := if c == ' ' then ['\\'] else []
      pending.reverse ++ '\\' :: newLine m ++ guard ++
        writeDouble m false (m.indent + guard.length) [c] rest
    else writeDouble m false column (c :: pending) rest

def write (s : String) (isKey : Bool) (indent column : Nat) : String :=
  let m : Margin := ⟨indent, !isKey⟩
  let cs := s.toList
  match style s isKey with
  | .plain => String.ofList (writeRuns m false true column (runs cs))
  | .single => "'" ++ String.ofList (writeRuns m true true (column + 1) (runs cs)) ++ "'"
  | .double => "\"" ++ String.ofList (writeDouble m true (column + 1) [] cs) ++ "\""

/-- Short texts on one line are written in front of the colon; others behind a question mark. -/
def isSimpleKey (s : String) : Bool := !s.isEmpty && s.length < 123 && !s.toList.any isBreak

end ScalarText

end Chronogram.Yaml
