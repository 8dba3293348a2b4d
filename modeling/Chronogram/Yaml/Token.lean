import Chronogram.Yaml.Folding

/-! The tokens of a YAML text. Indentation becomes tokens that open and close blocks. A key in front
of a colon is known only at the colon, so whatever may turn out to be a key is remembered with the
number of tokens before it. -/

namespace Chronogram.Yaml

inductive Token where
  /-- `%YAML` with its major version. -/
  | version (major : Nat)
  /-- `%TAG` with a handle and what it stands for. -/
  | handle (name meaning : String)
  /-- Any other directive. -/
  | directive
  | documentStart | documentEnd
  | blockSequenceStart | blockMappingStart | blockEnd
  | flowSequenceStart | flowSequenceEnd | flowMappingStart | flowMappingEnd
  | blockEntry | flowEntry | key | value
  | reference (anchor : String)
  | anchor (name : String)
  | tag (handle : Option String) (suffix : String)
  | scalar (content : String) (plain : Bool)
  deriving DecidableEq, Repr

structure Lexeme where
  token : Token
  line : Nat

/-- What may turn out to be a key. In block context it has to be one if it stands in the column of
its block. -/
structure Candidate where
  tokensBefore : Nat
  required : Bool
  index : Nat
  line : Nat
  column : Nat

structure Scan where
  rest : List Glyph
  /-- The tokens so far, latest first. -/
  lexemes : List Lexeme := []
  /-- The column of the innermost block, and those of the blocks around it. -/
  indent : Int := -1
  outer : List Int := []
  /-- The candidate of the current level of flow collections, and those of the levels around it. -/
  candidate : Option Candidate := none
  enclosing : List (Option Candidate) := []
  /-- Whether a key may start here. -/
  keyAllowed : Bool := true

namespace Scan

def inFlow (s : Scan) : Bool := !s.enclosing.isEmpty

def emit (s : Scan) (t : Token) (line : Nat) : Scan := { s with lexemes := ⟨t, line⟩ :: s.lexemes }

def advance (s : Scan) (t : Token) (line length : Nat) : Scan :=
  { s.emit t line with rest := s.rest.drop length }

def dropCandidate (s : Scan) : Option Scan :=
  match s.candidate with
  | some c => if c.required then none else some { s with candidate := none }
  | none => some s

def noteCandidate (s : Scan) (g : Glyph) : Option Scan :=
  if s.keyAllowed then do
    let s ← s.dropCandidate
    let required := !s.inFlow && s.indent == g.column
    return { s with candidate := some ⟨s.lexemes.length, required, g.index, g.line, g.column⟩ }
  else some s

/-- A key ends on its line, and within 1024 characters. -/
def isStale (c : Candidate) : List Glyph → Bool
  | [] => true
  | g :: _ => g.line != c.line || g.index - c.index > 1024

def refresh (s : Scan) : Option Scan := do
  let keep (c : Option Candidate) : Option (Option Candidate) :=
    match c with
    | none => some none
    | some c =>
      if isStale c s.rest then if c.required then none else some none
      else some (some c)
  return { s with candidate := ← keep s.candidate, enclosing := ← s.enclosing.mapM keep }

def unwind (s : Scan) (column : Int) (line : Nat) : Scan :=
  if s.inFlow then s else go s.indent s.outer s.lexemes
where
  go (indent : Int) : List Int → List Lexeme → Scan
    | [], lexemes => { s with indent, outer := [], lexemes }
    | i :: outer, lexemes =>
      if column < indent then go i outer (⟨.blockEnd, line⟩ :: lexemes)
      else { s with indent, outer := i :: outer, lexemes }

/-- Opens a block in a column, unless one is open there. -/
def openBlock (s : Scan) (t : Token) (column line : Nat) : Scan :=
  if s.indent < column then
    { s.emit t line with indent := column, outer := s.indent :: s.outer }
  else s

/-- Passes over spaces, comments and line ends; behind a line end in block context a key may start. -/
def skipGap (s : Scan) : Scan :=
  go s.keyAllowed false s.rest
where
  go (keyAllowed comment : Bool) : List Glyph → Scan
    | [] => { s with rest := [], keyAllowed }
    | g :: gs =>
      if isBreak g.char then go (keyAllowed || !s.inFlow) false gs
      else if comment || g.char == ' ' then go keyAllowed comment gs
      else if g.char == '#' then go keyAllowed true gs
      else { s with rest := g :: gs, keyAllowed }

def isWordChar (c : Char) : Bool := c.isAlphanum || c == '-' || c == '_'

def isUriChar (c : Char) : Bool := c.isAlphanum || "-;/?:@&=+$,_.!~*'()[]".toList.contains c

def percentOctets : List Glyph → Option (List UInt8 × List Glyph)
  | ⟨'%', _, _, _⟩ :: a :: b :: gs => do
    if !(Scalar.isHex a.char && Scalar.isHex b.char) then none
    let (octets, rest) ← percentOctets gs
    return (UInt8.ofNat (Scalar.natural 16 [a.char, b.char]) :: octets, rest)
  | gs => if startsWith (· == '%') gs then none else some ([], gs)

/-- The characters of a tag, at least one; `fuel` bounds the number of runs. -/
def uri (gs : List Glyph) : Option (String × List Glyph) := do
  let (s, rest) ← go (gs.length + 1) gs
  if s.isEmpty then none else some (s, rest)
where
  go : Nat → List Glyph → Option (String × List Glyph)
    | 0, gs => some ("", gs)
    | fuel + 1, gs =>
      let (cs, gs) := spanChars isUriChar gs
      if startsWith (· == '%') gs then do
        let (octets, gs) ← percentOctets gs
        let decoded ← String.fromUTF8? ⟨octets.toArray⟩
        let (more, gs) ← go fuel gs
        return (String.ofList cs ++ decoded ++ more, gs)
      else some (String.ofList cs, gs)

def tagHandle : List Glyph → Option (String × List Glyph)
  | ⟨'!', _, _, _⟩ :: gs =>
    if startsWith (· == ' ') gs then some ("!", gs)
    else
      let (word, gs) := spanChars isWordChar gs
      match gs with
      | ⟨'!', _, _, _⟩ :: gs => some ("!" ++ String.ofList word ++ "!", gs)
      | _ => none
  | _ => none

def decimal (gs : List Glyph) : Option (Nat × List Glyph) :=
  match spanChars Scalar.isDigit gs with
  | ([], _) => none
  | (ds, gs) => some (Scalar.natural 10 ds, gs)

def directive (gs : List Glyph) : Option (Token × List Glyph) := do
  let (name, gs) := spanChars isWordChar gs
  if name.isEmpty || !atWordEnd gs then none
  let (token, gs) ← match String.ofList name with
    | "YAML" => do
      let (major, gs) ← decimal (dropWhileChar (· == ' ') gs)
      if !startsWith (· == '.') gs then none
      let (_, gs) ← decimal (gs.drop 1)
      if !atWordEnd gs then none
      some (Token.version major, gs)
    | "TAG" => do
      let (handle, gs) ← tagHandle (dropWhileChar (· == ' ') gs)
      if !startsWith (· == ' ') gs then none
      let (meaning, gs) ← uri (dropWhileChar (· == ' ') gs)
      if !atWordEnd gs then none
      some (Token.handle handle meaning, gs)
    | _ => some (Token.directive, dropWhileChar (!isBreak ·) gs)
  return (token, ← restOfLine gs)

def anchorName (gs : List Glyph) : Option (String × List Glyph) :=
  let (name, gs) := spanChars isWordChar gs
  if name.isEmpty || !(startsWithGap gs || startsWith ("?:,]\x7d%@\x60".toList.contains ·) gs) then none
  else some (String.ofList name, gs)

def tag (g : Glyph) (gs : List Glyph) : Option (Token × List Glyph) := do
  let (token, gs) ←
    if startsWith (· == '<') gs then do
      let (suffix, gs) ← uri (gs.drop 1)
      if !startsWith (· == '>') gs then none
      some (Token.tag none suffix, gs.drop 1)
    else if startsWithGap gs then some (Token.tag none "!", gs)
    else
      let (word, _) := spanChars (fun c => !(c == ' ' || isBreak c)) gs
      if word.contains '!' then do
        let (handle, gs) ← tagHandle (g :: gs)
        let (suffix, gs) ← uri gs
        some (Token.tag (some handle) suffix, gs)
      else do
        let (suffix, gs) ← uri gs
        some (Token.tag (some "!") suffix, gs)
  if atWordEnd gs then some (token, gs) else none

def content (s : Scan) (g : Glyph) (t : Token) (rest : List Glyph) : Option Scan := do
  let s ← s.noteCandidate g
  return { s.emit t g.line with rest, keyAllowed := false }

def openFlow (s : Scan) (g : Glyph) (t : Token) : Option Scan := do
  let s ← s.noteCandidate g
  return { s.advance t g.line 1 with
           enclosing := s.candidate :: s.enclosing, candidate := none, keyAllowed := true }

def closeFlow (s : Scan) (g : Glyph) (t : Token) : Option Scan := do
  let s ← s.dropCandidate
  match s.enclosing with
  | [] => none
  | c :: enclosing =>
    return { s.advance t g.line 1 with candidate := c, enclosing, keyAllowed := false }

def marker (s : Scan) (g : Glyph) (t : Token) : Option Scan := do
  let s ← (s.unwind (-1) g.line).dropCandidate
  return { s.advance t g.line 3 with keyAllowed := false }

/-- An entry of a block sequence or a key behind a question mark. -/
def entry (s : Scan) (g : Glyph) (opening t : Token) (keyAllowed : Bool) : Option Scan := do
  if !s.inFlow && !s.keyAllowed then none
  let s := if s.inFlow then s else s.openBlock opening g.column g.line
  let s ← s.dropCandidate
  return { s.advance t g.line 1 with keyAllowed }

/-- A colon: the candidate becomes a key, and a block starts with it if none is open there. -/
def valueMark (s : Scan) (g : Glyph) : Option Scan :=
  match s.candidate with
  | some c =>
    let later := s.lexemes.take (s.lexemes.length - c.tokensBefore)
    let earlier := s.lexemes.drop (s.lexemes.length - c.tokensBefore)
    let s := { s with lexemes := earlier, candidate := none }
    let s := if s.inFlow then s else s.openBlock .blockMappingStart c.column c.line
    let s := s.emit .key c.line
    let s := { s with lexemes := later ++ s.lexemes, keyAllowed := false }
    some (s.advance .value g.line 1)
  | none => s.entry g .blockMappingStart .value (!s.inFlow)

def isPlainStart (inFlow : Bool) (g : Glyph) (gs : List Glyph) : Bool :=
  !(isGap g.char || "-?:,[]\x7b\x7d#&*!|>'\"%@\x60".toList.contains g.char) ||
    !startsWithGap gs && (g.char == '-' || !inFlow && (g.char == '?' || g.char == ':'))

def plainScalar (s : Scan) (g : Glyph) : Option Scan := do
  let s ← s.noteCandidate g
  let p := plain s.inFlow (s.indent + 1) .none s.rest
  return { s.emit (.scalar (String.ofList p.content) true) g.line with
           rest := p.rest, keyAllowed := p.passedBreak }

def blockScalar (s : Scan) (g : Glyph) (gs : List Glyph) : Option Scan := do
  let s ← s.dropCandidate
  let (cs, rest) ← block (g.char == '>') s.indent gs
  return { s.emit (.scalar (String.ofList cs) false) g.line with rest, keyAllowed := true }

def fetch (s : Scan) (g : Glyph) (gs : List Glyph) : Option Scan :=
  let c := g.char
  if c == '%' && g.column == 0 then do
    let s ← (s.unwind (-1) g.line).dropCandidate
    let (t, rest) ← directive gs
    return { s.emit t g.line with rest, keyAllowed := false }
  else if g.column == 0 && isMarker '-' s.rest then s.marker g .documentStart
  else if g.column == 0 && isMarker '.' s.rest then s.marker g .documentEnd
  else if c == '[' then s.openFlow g .flowSequenceStart
  else if c == '\x7b' then s.openFlow g .flowMappingStart
  else if c == ']' then s.closeFlow g .flowSequenceEnd
  else if c == '\x7d' then s.closeFlow g .flowMappingEnd
  else if c == ',' then do
    let s ← s.dropCandidate
    return { s.advance .flowEntry g.line 1 with keyAllowed := true }
  else if c == '-' && startsWithGap gs then s.entry g .blockSequenceStart .blockEntry true
  else if c == '?' && (s.inFlow || startsWithGap gs) then
    s.entry g .blockMappingStart .key (!s.inFlow)
  else if c == ':' && (s.inFlow || startsWithGap gs) then s.valueMark g
  else if c == '*' then do
    let (name, rest) ← anchorName gs
    s.content g (.reference name) rest
  else if c == '&' then do
    let (name, rest) ← anchorName gs
    s.content g (.anchor name) rest
  else if c == '!' then do
    let (t, rest) ← tag g gs
    s.content g t rest
  else if (c == '|' || c == '>') && !s.inFlow then s.blockScalar g gs
  else if c == '\'' then do
    let (cs, rest) ← singleQuoted .none gs
    s.content g (.scalar (String.ofList cs) false) rest
  else if c == '"' then do
    let (cs, rest) ← doubleQuoted .none gs
    s.content g (.scalar (String.ofList cs) false) rest
  else if isPlainStart s.inFlow g gs then s.plainScalar g
  else none

def step (s : Scan) : Option (Scan ⊕ List Lexeme) := do
  let s ← s.skipGap.refresh
  match s.rest with
  | [] =>
    let s ← (s.unwind (-1) 0).dropCandidate
    return .inr s.lexemes.reverse
  | g :: gs => return .inl (← (s.unwind g.column g.line).fetch g gs)

/-- Takes steps to the end. Every step passes over at least one character, so the number of
characters bounds the number of steps. -/
def run : Nat → Scan → Option (List Lexeme)
  | 0, _ => none
  | fuel + 1, s => do
    match ← s.step with
    | .inl s => s.run fuel
    | .inr lexemes => return lexemes

end Scan

/-- The tokens of a text. A byte order mark at its start is passed over. -/
def tokens? (text : String) : Option (List Lexeme) :=
  if text.toList.all isPrintable then
    let gs := Glyph.ofText text
    let gs := if startsWith (· == '\ufeff') gs then gs.drop 1 else gs
    Scan.run (gs.length + 1) { rest := gs }
  else none

end Chronogram.Yaml
