import Chronogram.Design
import Chronogram.Dict

/-! The library of primitive components: combinational logic, wiring and sequential elements. Only
their signatures are known. -/

namespace Chronogram

namespace Primitives

/-- Cycles after the event `'G`. -/
def span (first stop : Int) (h : first < stop := by decide) : Interval :=
  ⟨⟨"G", first⟩, ⟨"G", stop⟩, fun _ => h⟩

def source (name width : String) : Port :=
  { name, direction := .input, width := .param width, interval := span 0 1 }

def result (width : Expr) (interval : Interval) : Port :=
  { name := "out", direction := .output, width, interval }

def clause (lhs : Expr) (relation : Relation) (rhs : Expr) : Clause := { lhs, relation, rhs }

/-- A component with one event `'G` and no default for any parameter. -/
def element (name description : String) (params : List String) (delay : Int) (ports : List Port)
    (clauses : List Clause := []) : Signature where
  name
  description
  params := params.map fun p => { name := p, default := none }
  primary := { name := "G", delay := .const delay }
  secondary := []
  ports
  clauses
  external := true

def binary (name description : String) (delay : Int) (output : Port) : Signature :=
  element name description ["W"] delay [source "left" "W", source "right" "W", output]

def operation (name description : String) : Signature :=
  binary name description 1 (result (.param "W") (span 0 1))

def comparison (name description : String) : Signature :=
  binary name description 1 (result (.const 1) (span 0 1))

def bitwiseNot : Signature :=
  element "Not" "Bitwise inversion" ["W"] 1 [source "in" "W", result (.param "W") (span 0 1)]

def mux : Signature :=
  element "Mux" "Two-way multiplexer; sel=1 selects left" ["W"] 1
    [{ source "sel" "W" with width := .const 1 }, source "left" "W", source "right" "W",
      result (.param "W") (span 0 1)]

def constant : Signature :=
  element "Const" "Constant driver" ["W", "VALUE"] 1 [result (.param "W") (span 0 1)]

def concat : Signature :=
  element "Concat" "Concatenate two values, IN0 in the high bits" ["IN0", "IN1", "OUT"] 1
    [source "left" "IN0", source "right" "IN1", result (.param "OUT") (span 0 1)]
    [clause (.param "OUT") .eq (.add (.param "IN0") (.param "IN1"))]

def slice : Signature :=
  element "Slice" "Extract OUT_WIDTH bits starting at LSB" ["IN_WIDTH", "LSB", "OUT_WIDTH"] 1
    [source "in" "IN_WIDTH", result (.param "OUT_WIDTH") (span 0 1)]
    [clause (.param "LSB") .ge (.const 0),
      clause (.add (.param "LSB") (.param "OUT_WIDTH")) .le (.param "IN_WIDTH")]

def zeroExtend : Signature :=
  { element "ZeroExtend" "Widen a value with zeros" [] 1
      [source "in" "IN_WIDTH", result (.param "OUT_WIDTH") (span 0 1)]
      [clause (.param "IN_WIDTH") .le (.param "OUT_WIDTH")] with
    params := [{ name := "IN_WIDTH", default := none },
      { name := "OUT_WIDTH", default := some (.param "IN_WIDTH") }] }

def delay : Signature :=
  element "Delay" "Single-cycle delay register" ["W"] 1
    [source "in" "W", result (.param "W") (span 1 2)]

/-- A register is held until a second event `'L`, which also ends its use. -/
def register : Signature :=
  { element "Register" "Holds its input from 'G+1 until 'L" ["W"] 1
      [source "in" "W",
        result (.param "W") ⟨⟨"G", 1⟩, ⟨"L", 0⟩, fun h => absurd h (by decide)⟩]
      [clause (.event "L") .gt (.add (.event "G") (.const 1))] with
    primary := { name := "G", delay := .sub (.event "L") (.event "G") }
    secondary := [{ name := "L", delay := .const 1 }] }

/-- The lines that a list takes in the library file: none if it is empty, and otherwise one for its
heading and one for each item. -/
def height {α : Type} (items : List α) : Nat := if items.isEmpty then 0 else items.length + 1

/-- The signature with its locations, for an entry of the library file that starts on the given line: a
name, two more lines, the parameters on one line, and then the lists of events, inputs, outputs and
clauses. A single event stands on the line of the heading. -/
def placed (file : String) (line : Nat) (s : Signature) : Signature :=
  let spot (n : Nat) : Option Loc := some ⟨file, some n⟩
  let inputs := line + 4 + (if s.secondary.isEmpty then 1 else height s.events)
  let outputs := inputs + height s.inputs
  let clauses := outputs + height s.outputs
  { s with
    loc := spot line
    params := s.params.map fun p => { p with loc := spot (line + 3) }
    primary := { s.primary with loc := spot (if s.secondary.isEmpty then line + 4 else line + 5) }
    secondary := s.secondary.mapIdx fun i e => { e with loc := spot (line + 6 + i) }
    ports := s.inputs.mapIdx (fun i p => { p with loc := spot (inputs + 1 + i) }) ++
      s.outputs.mapIdx fun i p => { p with loc := spot (outputs + 1 + i) }
    clauses := s.clauses.mapIdx fun i c => { c with loc := spot (clauses + 1 + i) } }

/-- The bundled signatures, each with the line of the library file on which its entry starts. -/
def entries : List (Nat × Signature) :=
  [(11, operation "Add" "Combinational adder"), (22, operation "Sub" "Combinational subtractor"),
    (33, operation "And" "Bitwise AND"), (44, operation "Or" "Bitwise OR"),
    (55, operation "Xor" "Bitwise XOR"), (66, bitwiseNot), (76, mux),
    (88, comparison "Eq" "Equality comparison"), (99, comparison "Lt" "Unsigned less-than comparison"),
    (110, comparison "Gt" "Unsigned greater-than comparison"), (122, constant), (130, concat),
    (143, slice), (156, zeroExtend), (169, delay), (179, register),
    (193, binary "FastMult" "Pipelined multiplier, result four cycles after the operands" 1
      (result (.param "W") (span 4 5))),
    (204, binary "Mult" "Sequential multiplier, busy for three cycles" 3
      (result (.param "W") (span 2 3)))]

def core (file : String := "core.yml") : List Signature := entries.map fun e => placed file e.1 e.2

def collect (path : String) (library : Dict Signature) (c : Component) : Except Fault (Dict Signature) :=
  if c.body.isSome then
    .error (.placed path (c.signature.loc.bind (·.line)) (.primitiveBody c.name))
  else .ok (library.set c.name c.signature)

/-- The library that a design file declares. The last component of a name counts. -/
def ofDesign (path : String) (d : Design) : Except Fault (List Signature) := do
  return (← d.components.foldlM (collect path) .empty).values

def find? (library : List Signature) (name : String) : Option Signature :=
  library.find? (·.name == name)

def info (s : Signature) : Datum :=
  .object [("name", .str s.name), ("description", .str s.description),
    ("signature", .str s.declaration), ("params", .texts (s.params.map (·.text))),
    ("events", .texts (s.events.map (·.text))), ("inputs", .texts (s.inputs.map (·.text))),
    ("outputs", .texts (s.outputs.map (·.text))), ("where", .texts (s.clauses.map (·.text)))]

end Primitives

end Chronogram
