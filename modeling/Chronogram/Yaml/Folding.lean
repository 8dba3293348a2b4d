import Chronogram.Yaml.Glyph
import Chronogram.Yaml.Scalar

/-! Scalars that may run over several lines: quoted ones, unquoted ones and blocks. A single line end
inside a scalar is folded into a space; of several, the first is dropped. -/

namespace Chronogram.Yaml

/-- What lies between two runs of content. -/
inductive Gap where
  /-- Spaces and tabs, latest first. -/
  | blanks (rev : List Char)
  /-- A line end, unless it was escaped, and the line ends after it, latest first. -/
  | fold (first : Option Char) (rev : List Char)

namespace Gap

def none : Gap := .blanks []

def content : Gap → List Char
  | blanks rev => rev.reverse
  | fold Option.none rev => rev.reverse
  | fold (some '\n') [] => [' ']
  | fold (some '\n') rev => rev.reverse
  | fold (some c) rev => c :: rev.reverse

/-- A line end after a gap: spaces at the end of a line are dropped. -/
def addBreak (gap : Gap) (c : Char) : Gap :=
  match gap with
  | blanks _ => fold (some c) []
  | fold first rev => fold first (c :: rev)

/-- A space or tab after a gap: those at the start of a line are dropped. -/
def addBlank (gap : Gap) (c : Char) : Gap :=
  match gap with
  | blanks rev => blanks (c :: rev)
  | fold first rev => fold first rev

end Gap

/-- The characters that are written by a letter behind a backslash. -/
def escapes : List (Char × Char) :=
  [('0', '\x00'), ('a', '\x07'), ('b', '\x08'), ('t', '\t'), ('\t', '\t'), ('n', '\n'),
    ('v', '\x0b'), ('f', '\x0c'), ('r', '\r'), ('e', '\x1b'), (' ', ' '), ('"', '"'),
    ('\\', '\\'), ('/', '/'), ('N', '\u0085'), ('_', '\u00a0'), ('L', '\u2028'), ('P', '\u2029')]

def coded (digits : List Glyph) : Option Char :=
  let cs := digits.map (·.char)
  if cs.all Scalar.isHex then
    let n := Scalar.natural 16 cs
    if n.isValidChar then some (Char.ofNat n) else none
  else none

def doubleQuoted (gap : Gap) : List Glyph → Option (List Char × List Glyph)
  | [] => none
  | ⟨'\\', _, _, _⟩ :: ⟨'x', _, _, _⟩ :: a :: b :: gs => do
    let c ← coded [a, b]
    let (cs, rest) ← doubleQuoted .none gs
    return (gap.content ++ c :: cs, rest)
  | ⟨'\\', _, _, _⟩ :: ⟨'u', _, _, _⟩ :: a :: b :: c :: d :: gs => do
    let c ← coded [a, b, c, d]
    let (cs, rest) ← doubleQuoted .none gs
    return (gap.content ++ c :: cs, rest)
  | ⟨'\\', _, _, _⟩ :: ⟨'U', _, _, _⟩ :: a :: b :: c :: d :: e :: f :: g :: h :: gs => do
    let c ← coded [a, b, c, d, e, f, g, h]
    let (cs, rest) ← doubleQuoted .none gs
    return (gap.content ++ c :: cs, rest)
  | ⟨'\\', _, _, _⟩ :: e :: gs =>
    if isBreak e.char then
      if isAnyMarker gs then none
      else do
        let (cs, rest) ← doubleQuoted (.fold Option.none []) gs
        return (gap.content ++ cs, rest)
    else do
      let c ← escapes.lookup e.char
      let (cs, rest) ← doubleQuoted .none gs
      return (gap.content ++ c :: cs, rest)
  | g :: gs =>
    if g.char == '"' then some (gap.content, gs)
    else if isSpaceOrTab g.char then doubleQuoted (gap.addBlank g.char) gs
    else if isBreak g.char then
      if isAnyMarker gs then none else doubleQuoted (gap.addBreak g.char) gs
    else do
      let (cs, rest) ← doubleQuoted .none gs
      return (gap.content ++ g.char :: cs, rest)

def singleQuoted (gap : Gap) : List Glyph → Option (List Char × List Glyph)
  | [] => none
  | ⟨'\'', _, _, _⟩ :: ⟨'\'', _, _, _⟩ :: gs => do
    let (cs, rest) ← singleQuoted .none gs
    return (gap.content ++ '\'' :: cs, rest)
  | g :: gs =>
    if g.char == '\'' then some (gap.content, gs)
    else if isSpaceOrTab g.char then singleQuoted (gap.addBlank g.char) gs
    else if isBreak g.char then
      if isAnyMarker gs then none else singleQuoted (gap.addBreak g.char) gs
    else do
      let (cs, rest) ← singleQuoted .none gs
      return (gap.content ++ g.char :: cs, rest)

/-- Whether an unquoted scalar cannot go on with a character, given what follows it. -/
def endsPlain (inFlow : Bool) (c : Char) (next : List Glyph) : Bool :=
  isGap c ||
    (c == ':' && (startsWithGap next || inFlow && startsWith (",[]\x7b\x7d".toList.contains ·) next)) ||
    (inFlow && ",?[]\x7b\x7d".toList.contains c)

/-- The result of reading an unquoted scalar: its content, what follows it and whether a line end
was passed behind its last character. -/
structure Plain where
  content : List Char
  rest : List Glyph
  passedBreak : Bool

/-- Reads on in an unquoted scalar. `indent` is the least column of its further lines. -/
def plain (inFlow : Bool) (indent : Int) (gap : Gap) : List Glyph → Plain
  | [] => ⟨[], [], match gap with | .fold .. => true | .blanks _ => false⟩
  | g :: gs =>
    let stop (rest : List Glyph) : Plain :=
      ⟨[], rest, match gap with | .fold .. => true | .blanks _ => false⟩
    if g.char == ' ' then plain inFlow indent (gap.addBlank ' ') gs
    else if isBreak g.char then
      if isAnyMarker gs then ⟨[], gs, true⟩ else plain inFlow indent (gap.addBreak g.char) gs
    else
      let fresh := match gap with | .blanks [] => false | _ => true
      if endsPlain inFlow g.char gs || (fresh && (g.char == '#' || (!inFlow && (g.column : Int) < indent)))
      then stop (g :: gs)
      else
        let more := plain inFlow indent .none gs
        { more with content := gap.content ++ g.char :: more.content }

/-- What is kept of the line ends behind a block. -/
inductive Chomp where
  | clip | strip | keep
  deriving DecidableEq, Repr

structure BlockStyle where
  folded : Bool
  chomp : Chomp
  indent : Nat

/-- Where the reading of a block stands: inside a line, or behind one, at the line ends that follow
it. `leads` says whether the line starts with something else than a blank. -/
inductive BlockState where
  | inLine (leads : Bool)
  | between (leads : Bool) (first : Option Char) (rev : List Char)

namespace BlockStyle

/-- The line ends between two lines of a block, where `next` starts the second one. -/
def joint (s : BlockStyle) (leads : Bool) (first : Option Char) (rev : List Char) (next : Char) :
    List Char :=
  match first with
  | none => rev.reverse
  | some c =>
    if s.folded && c == '\n' && leads && !isSpaceOrTab next then
      if rev.isEmpty then [' '] else rev.reverse
    else c :: rev.reverse

def tail (s : BlockStyle) (first : Option Char) (rev : List Char) : List Char :=
  match s.chomp with
  | .strip => []
  | .clip => first.toList
  | .keep => first.toList ++ rev.reverse

def read (s : BlockStyle) : BlockState → List Glyph → List Char × List Glyph
  | .inLine _, [] => ([], [])
  | .between _ first rev, [] => (s.tail first rev, [])
  | .inLine leads, g :: gs =>
    if isBreak g.char then s.read (.between leads (some g.char) []) gs
    else
      let (cs, rest) := s.read (.inLine leads) gs
      (g.char :: cs, rest)
  | .between leads first rev, g :: gs =>
    if g.char == ' ' && g.column < s.indent then s.read (.between leads first rev) gs
    else if isBreak g.char then s.read (.between leads first (g.char :: rev)) gs
    else if g.column == s.indent then
      let (cs, rest) := s.read (.inLine (!isSpaceOrTab g.char)) gs
      (s.joint leads first rev g.char ++ g.char :: cs, rest)
    else (s.tail first rev, g :: gs)

end BlockStyle

/-- The indicators of a block: what to keep of the line ends, and the depth of its lines. -/
def blockIndicators (gs : List Glyph) : Option (Chomp × Option Nat × List Glyph) :=
  let chomp (gs : List Glyph) : Chomp × List Glyph :=
    match gs with
    | ⟨'+', _, _, _⟩ :: gs => (.keep, gs)
    | ⟨'-', _, _, _⟩ :: gs => (.strip, gs)
    | gs => (.clip, gs)
  let depth (gs : List Glyph) : Option Nat × List Glyph :=
    match gs with
    | g :: rest => if Scalar.isDigit g.char then (some (Scalar.digitValue g.char), rest) else (none, gs)
    | [] => (none, gs)
  let (style, increment, gs) :=
    if startsWith Scalar.isDigit gs then
      let (increment, gs) := depth gs
      let (style, gs) := chomp gs
      (style, increment, gs)
    else
      let (style, gs) := chomp gs
      let (increment, gs) := if style == .clip then (none, gs) else depth gs
      (style, increment, gs)
  if increment == some 0 || !atWordEnd gs then none else some (style, increment, gs)

/-- The content of a block behind its `|` or `>`, and what follows it. -/
def block (folded : Bool) (parent : Int) (gs : List Glyph) : Option (List Char × List Glyph) := do
  let (chomp, increment, gs) ← blockIndicators gs
  let gs ← restOfLine gs
  let least := (max (parent + 1) 1).toNat
  let indent := match increment with
    | some n => least + n - 1
    | none =>
      let leading := gs.takeWhile fun g => g.char == ' ' || isBreak g.char
      leading.foldl (fun n g => if g.char == ' ' then max n (g.column + 1) else n) least
  return BlockStyle.read ⟨folded, chomp, indent⟩ (.between true none []) gs

end Chronogram.Yaml
