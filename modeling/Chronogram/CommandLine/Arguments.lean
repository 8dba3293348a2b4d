import Chronogram.Text.Numeral

/-! The arguments of a command: options, their values and the values that stand on their own. A long
option may be cut short as long as it stays unambiguous, and short options may be joined. Arguments
are classified one by one and then gathered from left to right. -/

namespace Chronogram

namespace CommandLine

inductive Effect where
  | help | json | quiet | verbose
  /-- Takes a value: the file for the export. -/
  | exportTo
  /-- Takes a value: how many components are checked at once. -/
  | jobs
  deriving DecidableEq, Repr

def Effect.takesValue : Effect → Bool
  | exportTo => true
  | jobs => true
  | _ => false

abbrev Options := List (String × Effect)

/-- What stands behind the name of an option in the same argument. -/
inductive Attached where
  | nothing
  | afterEquals (value : String)
  /-- A value, or further short options. -/
  | letters (cs : List Char)
  deriving DecidableEq, Repr

/-- What an argument is, before it is known which arguments belong together. -/
inductive Word where
  /-- A value of its own. -/
  | value (text : String)
  | option (effect : Effect) (attached : Attached)
  | unknownOption
  /-- The two dashes behind which there are only values. -/
  | dashes
  deriving DecidableEq, Repr

/-- A whole number in front of which a dash is a sign, with or without a fraction. -/
def isNegativeNumber (s : String) : Bool :=
  match s.toList with
  | '-' :: cs =>
    let rest := cs.dropWhile Char.isDigit
    match rest with
    | [] => !cs.isEmpty
    | '.' :: ds => !ds.isEmpty && ds.all Char.isDigit
    | _ => false
  | _ => false

def splitAtEquals (s : String) : Option (String × String) :=
  let cs := s.toList
  if cs.contains '=' then
    some (String.ofList (cs.takeWhile (· != '=')), String.ofList ((cs.dropWhile (· != '=')).drop 1))
  else none

/-- The options that an argument may abbreviate. A long option may be cut short; a short one may
have its value or further short options joined to it. -/
def candidates (options : Options) (arg : String) : List Word :=
  if "--".toList.isPrefixOf arg.toList then
    let (start, attached) := match splitAtEquals arg with
      | some (start, value) => (start, Attached.afterEquals value)
      | none => (arg, .nothing)
    (options.filter fun o => start.toList.isPrefixOf o.1.toList).map fun o => .option o.2 attached
  else
    let short := String.ofList (arg.toList.take 2)
    (options.filter (·.1 == short)).map fun o => .option o.2 (.letters (arg.toList.drop 2))

/-- What an argument in front of the two dashes is; nothing if it is ambiguous. -/
def classify (options : Options) (arg : String) : Option Word :=
  let listed (name : String) (attached : Attached) : Option Word :=
    (options.lookup name).map (.option · attached)
  if arg.toList.head? != some '-' || arg == "-" then some (.value arg)
  else
    match listed arg .nothing <|>
      ((splitAtEquals arg).bind fun (name, value) => listed name (.afterEquals value)) with
    | some w => some w
    | none =>
      match candidates options arg with
      | [w] => some w
      | _ :: _ => none
      | [] =>
        if isNegativeNumber arg || arg.toList.contains ' ' then some (.value arg)
        else some .unknownOption

def classifyAll (options : Options) : List String → Option (List Word)
  | [] => some []
  | arg :: rest =>
    if arg == "--" then some (.dashes :: rest.map .value)
    else do return (← classify options arg) :: (← classifyAll options rest)

structure Setting where
  effect : Effect
  value : String := ""

structure Group where
  settings : List Setting
  /-- An option that takes its value from the next argument. -/
  waiting : Option Effect := none
  /-- There is a letter that is no option. -/
  unknown : Bool := false

/-- What a short option sets with more letters joined to it: the value that it takes, or further short
options. -/
def chain (options : Options) (effect : Effect) : List Char → Option Group
  | [] => some (if effect.takesValue then ⟨[], some effect, false⟩ else ⟨[⟨effect, ""⟩], none, false⟩)
  | c :: rest =>
    if effect.takesValue then
      some ⟨[⟨effect, String.ofList (if c == '=' then rest else c :: rest)⟩], none, false⟩
    else if c == '=' || c == '-' then none
    else
      match options.lookup (String.ofList ['-', c]) with
      | none => some ⟨[⟨effect, ""⟩], none, true⟩
      | some next =>
        (chain options next rest).map fun g => { g with settings := ⟨effect, ""⟩ :: g.settings }

def expand (options : Options) (effect : Effect) : Attached → Option Group
  | .nothing => chain options effect []
  | .letters cs => chain options effect cs
  | .afterEquals value =>
    if effect.takesValue then some ⟨[⟨effect, value⟩], none, false⟩ else none

structure Arguments where
  settings : List Setting := []
  values : List String := []

namespace Arguments

def has (a : Arguments) (e : Effect) : Bool := a.settings.any (·.effect == e)

def last? (a : Arguments) (e : Effect) : Option String :=
  (a.settings.reverse.find? (·.effect == e)).map (·.value)

end Arguments

/-- How the reading of a part of the command line ends. -/
inductive Asked (α : Type) where
  | given (a : α)
  /-- Help is asked for before anything is found wrong. -/
  | help
  | wrong
  deriving DecidableEq, Repr

def Setting.isSound (s : Setting) : Bool := s.effect != .jobs || (Text.whole? s.value).isSome

def Arguments.add (a : Arguments) (settings : List Setting) : Asked Arguments :=
  if settings.any (·.effect == .help) then .help
  else if settings.all Setting.isSound then .given { a with settings := a.settings ++ settings }
  else .wrong

/-- Goes through the words of a command from left to right. An option that nobody knows is wrong, but
only in the end: help that is asked for behind it still comes first. -/
def gather (options : Options) (args : Arguments) (unknown : Bool) : List Word → Asked Arguments
  | [] => if unknown then .wrong else .given args
  | .dashes :: rest => gather options args unknown rest
  | .value v :: rest => gather options { args with values := args.values ++ [v] } unknown rest
  | .unknownOption :: rest => gather options args true rest
  | .option effect attached :: rest =>
    match expand options effect attached with
    | none => .wrong
    | some ⟨settings, none, unknown'⟩ =>
      match args.add settings with
      | .given args => gather options args (unknown || unknown') rest
      | other => other
    | some ⟨settings, some last, _⟩ =>
      match rest with
      | .value v :: rest =>
        match args.add (settings ++ [⟨last, v⟩]) with
        | .given args => gather options args unknown rest
        | other => other
      | _ => .wrong

end CommandLine

end Chronogram
