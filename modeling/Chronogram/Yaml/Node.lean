import Chronogram.Yaml.Token

/-! The nodes of a YAML document: scalars, sequences and mappings, each with a tag that says what it
stands for. References are replaced by the nodes that they refer to. -/

namespace Chronogram.Yaml

inductive Tag where
  | scalar (kind : ScalarKind)
  | sequence
  | mapping
  | other (name : String)
  deriving DecidableEq, Repr

/-- The tags of the standard types; those without values of their own count as unknown. -/
def Tag.ofName (name : String) : Tag :=
  match name with
  | "tag:yaml.org,2002:null" => .scalar .null
  | "tag:yaml.org,2002:bool" => .scalar .bool
  | "tag:yaml.org,2002:int" => .scalar .int
  | "tag:yaml.org,2002:float" => .scalar .float
  | "tag:yaml.org,2002:timestamp" => .scalar .date
  | "tag:yaml.org,2002:str" => .scalar .text
  | "tag:yaml.org,2002:merge" => .scalar .merge
  | "tag:yaml.org,2002:value" => .scalar .value
  | "tag:yaml.org,2002:seq" => .sequence
  | "tag:yaml.org,2002:map" => .mapping
  | _ => .other name

inductive Node where
  | scalar (tag : Tag) (content : String) (line : Nat)
  | sequence (tag : Tag) (items : List Node)
  | mapping (tag : Tag) (entries : List (Node × Node))

namespace Node

/-- What is left to read, the nodes that can be referred to and the meanings of tag handles. -/
structure Stream where
  lexemes : List Lexeme
  anchors : List (String × Node) := []
  handles : List (String × String) := [("!", "!"), ("!!", "tag:yaml.org,2002:")]

abbrev Reading := StateT Stream Option

namespace Reading

def peek : Reading (Option Lexeme) := fun s => some (s.lexemes.head?, s)

def skip : Reading Unit := fun s => some ((), { s with lexemes := s.lexemes.drop 1 })

def sees (ts : List Token) : Reading Bool := do
  return (← peek).any fun l => l.token ∈ ts

def accept (t : Token) : Reading Bool := do
  if ← sees [t] then skip; return true
  else return false

def expect (t : Token) : Reading Unit := do
  if ← accept t then return ()
  else failure

def acceptAnchor : Reading (Option String) := do
  match ← peek with
  | some ⟨.anchor name, _⟩ => skip; return some name
  | _ => return none

/-- A tag, with its handle replaced by the meaning of the handle. -/
def acceptTag : Reading (Option String) := do
  match ← peek with
  | some ⟨.tag handle suffix, _⟩ =>
    skip
    match handle with
    | none => return some suffix
    | some h =>
      match (← get).handles.lookup h with
      | some meaning => return some (meaning ++ suffix)
      | none => failure
  | _ => return none

/-- Names a node, so that it can be referred to. No name is given twice. -/
def register (name : String) (node : Node) : Reading Unit := do
  let s ← get
  if s.anchors.any (·.1 == name) then failure
  else set { s with anchors := (name, node) :: s.anchors }

/-- A tag that says nothing leaves the choice to the kind of node. -/
def tagOr (tag : Option String) (default : Tag) : Tag :=
  match tag with
  | none => default
  | some "!" => default
  | some name => .ofName name

def scalarTag (tag : Option String) (content : String) (plain : Bool) : Tag :=
  if tag.isNone && !plain then .scalar .text else tagOr tag (.scalar (Scalar.kind content))

end Reading

def nothing : Node := .scalar (.scalar .null) "" 0

open Reading

/- The readers below take one step of depth for every call; the number of tokens bounds the depth. -/

mutual

/-- A node with its properties. Block collections are read only if `block` is set, and sequences
whose entries are not indented only if `loose` is set. -/
def readNode (block loose : Bool) : Nat → Reading Node
  | 0 => failure
  | depth + 1 => do
    match ← peek with
    | some ⟨.reference name, _⟩ =>
      skip
      match (← get).anchors.lookup name with
      | some node => return node
      | none => failure
    | start =>
      let line := start.elim 0 (·.line)
      let first ← acceptAnchor
      let tag ← acceptTag
      let second ← if first.isNone && tag.isSome then acceptAnchor else pure none
      let anchor := first <|> second
      let node ← readContent block loose tag (anchor.isSome || tag.isSome) line depth
      match anchor with
      | some name => register name node
      | none => pure ()
      return node

def readContent (block loose : Bool) (tag : Option String) (mayBeEmpty : Bool) (line : Nat) :
    Nat → Reading Node
  | 0 => failure
  | depth + 1 => do
    if loose && (← sees [.blockEntry]) then
      return .sequence (tagOr tag .sequence) (← readLooseItems depth)
    match ← peek with
    | some ⟨.scalar content plain, _⟩ =>
      skip
      return .scalar (scalarTag tag content plain) content line
    | some ⟨.flowSequenceStart, _⟩ =>
      skip
      return .sequence (tagOr tag .sequence) (← readFlowItems true depth)
    | some ⟨.flowMappingStart, _⟩ =>
      skip
      return .mapping (tagOr tag .mapping) (← readFlowEntries true depth)
    | t =>
      if block && t.any (·.token == .blockSequenceStart) then
        skip
        return .sequence (tagOr tag .sequence) (← readBlockItems depth)
      else if block && t.any (·.token == .blockMappingStart) then
        skip
        return .mapping (tagOr tag .mapping) (← readBlockEntries depth)
      else if mayBeEmpty then
        return .scalar (tagOr tag (.scalar .null)) "" line
      else failure

def readBlockItems : Nat → Reading (List Node)
  | 0 => failure
  | depth + 1 => do
    if ← accept .blockEntry then
      let item ← if ← sees [.blockEntry, .blockEnd] then pure nothing else readNode true false depth
      return item :: (← readBlockItems depth)
    else
      expect .blockEnd
      return []

/-- The entries of a sequence that stands in the column of its key. -/
def readLooseItems : Nat → Reading (List Node)
  | 0 => failure
  | depth + 1 => do
    if ← accept .blockEntry then
      let item ← if ← sees [.blockEntry, .key, .value, .blockEnd] then pure nothing
        else readNode true false depth
      return item :: (← readLooseItems depth)
    else return []

/-- A key or a value of a block mapping, which may be absent. -/
def readBlockPart : Nat → Reading Node
  | 0 => failure
  | depth + 1 => do
    if ← sees [.key, .value, .blockEnd] then return nothing
    else readNode true true depth

def readBlockEntries : Nat → Reading (List (Node × Node))
  | 0 => failure
  | depth + 1 => do
    if ← accept .key then
      let key ← readBlockPart depth
      let value ← if ← accept .value then readBlockPart depth else pure nothing
      return (key, value) :: (← readBlockEntries depth)
    else
      expect .blockEnd
      return []

/-- A key, and a value if there is one, up to a comma or the end of the collection. -/
def readFlowPair (closing : Token) : Nat → Reading (Node × Node)
  | 0 => failure
  | depth + 1 => do
    let key ← if ← sees [.value, .flowEntry, closing] then pure nothing
      else readNode false false depth
    if ← accept .value then
      let value ← if ← sees [.flowEntry, closing] then pure nothing
        else readNode false false depth
      return (key, value)
    else return (key, nothing)

def readFlowItems (first : Bool) : Nat → Reading (List Node)
  | 0 => failure
  | depth + 1 => do
    if ← accept .flowSequenceEnd then return []
    if !first then expect .flowEntry
    if ← accept .key then
      let pair ← readFlowPair .flowSequenceEnd depth
      return .mapping .mapping [pair] :: (← readFlowItems false depth)
    else if ← accept .flowSequenceEnd then return []
    else
      let item ← readNode false false depth
      return item :: (← readFlowItems false depth)

def readFlowEntries (first : Bool) : Nat → Reading (List (Node × Node))
  | 0 => failure
  | depth + 1 => do
    if ← accept .flowMappingEnd then return []
    if !first then expect .flowEntry
    if ← accept .key then
      let pair ← readFlowPair .flowMappingEnd depth
      return pair :: (← readFlowEntries false depth)
    else if ← accept .flowMappingEnd then return []
    else
      let key ← readNode false false depth
      return (key, nothing) :: (← readFlowEntries false depth)

end

/-- Directives in front of a document: at most one version, which is 1, and distinct handles. -/
def readDirectives (versioned : Bool) (handles : List (String × String)) :
    List Lexeme → Option (List (String × String) × List Lexeme)
  | ⟨.version major, _⟩ :: rest =>
    if versioned || major != 1 then none else readDirectives true handles rest
  | ⟨.handle name meaning, _⟩ :: rest =>
    if handles.any (·.1 == name) then none
    else readDirectives versioned ((name, meaning) :: handles) rest
  | ⟨.directive, _⟩ :: rest => readDirectives versioned handles rest
  | rest => some (handles, rest)

/-- Nothing but marks of a document's end. -/
def isFinished (lexemes : List Lexeme) : Bool := lexemes.all (·.token == .documentEnd)

def readDocument (s : Stream) (explicit : Bool) : Option Node := do
  let absent := explicit && s.lexemes.head?.all fun l =>
    match l.token with
    | .version _ | .handle .. | .directive | .documentStart | .documentEnd => true
    | _ => false
  let (node, s) ← if absent then some (nothing, s)
    else readNode true false (3 * s.lexemes.length + 3) s
  if isFinished s.lexemes then some node else none

/-- The one document of a stream of tokens; an empty stream has none. -/
def ofLexemes : List Lexeme → Option (Option Node)
  | [] => some none
  | lexemes => do
    let s : Stream := { lexemes }
    let (handles, rest) ← readDirectives false [] lexemes
    match rest with
    | ⟨.documentStart, _⟩ :: rest =>
      some <$> readDocument { s with lexemes := rest, handles := handles ++ s.handles } true
    | _ => if rest.length == lexemes.length then some <$> readDocument s false else none

end Node

end Chronogram.Yaml
