import Chronogram.Check.Component
import Chronogram.Check.Diagnostic
import Chronogram.Check.Instance
import Chronogram.Check.Listing
import Chronogram.Check.Recursion
import Chronogram.Check.Report
import Chronogram.Check.Schedule
import Chronogram.Check.Table
import Chronogram.Check.Validation
import Chronogram.Check.Wiring
import Chronogram.CommandLine.Arguments
import Chronogram.CommandLine.Command
import Chronogram.Datum.Basic
import Chronogram.Datum.Fraction
import Chronogram.Datum.Json
import Chronogram.Datum.Moment
import Chronogram.Declaration.Basic
import Chronogram.Declaration.Fields
import Chronogram.Declaration.Reading
import Chronogram.Design
import Chronogram.DesignFile
import Chronogram.Dict
import Chronogram.Expr.Basic
import Chronogram.Expr.Reading
import Chronogram.Facts
import Chronogram.Fault
import Chronogram.Imports
import Chronogram.Integers.Equation
import Chronogram.Integers.Minimum
import Chronogram.Integers.Optimum
import Chronogram.Integers.Row
import Chronogram.Integers.Vec
import Chronogram.Interval
import Chronogram.LinearForm
import Chronogram.Main
import Chronogram.Path
import Chronogram.Primitives
import Chronogram.Relation
import Chronogram.Source
import Chronogram.Statement
import Chronogram.Text.Basic
import Chronogram.Text.Numeral
import Chronogram.Text.Quoted
import Chronogram.Time
import Chronogram.Token
import Chronogram.Waveform
import Chronogram.Yaml.Folding
import Chronogram.Yaml.Glyph
import Chronogram.Yaml.Node
import Chronogram.Yaml.Scalar
import Chronogram.Yaml.ScalarText
import Chronogram.Yaml.Token
import Chronogram.Yaml.Value
import Chronogram.Yaml.Writing
import Chronogram.Proofs.Association
import Chronogram.Proofs.Dict
import Chronogram.Proofs.Fallible
import Chronogram.Proofs.LinearForm
import Chronogram.Proofs.Integers.Equation
import Chronogram.Proofs.Valuation
import Chronogram.Proofs.Integers.Minimum
import Chronogram.Proofs.Facts
import Chronogram.Proofs.Entailment
import Chronogram.Proofs.Validation
import Chronogram.Proofs.Table
import Chronogram.Proofs.Instance
import Chronogram.Proofs.Time
import Chronogram.Proofs.Schedule
import Chronogram.Proofs.Call
import Chronogram.Proofs.Recursion
import Chronogram.Proofs.Grammar
import Chronogram.Proofs.DesignFile
import Chronogram.Proofs.Library
import Chronogram.Proofs.Registration
import Chronogram.Proofs.Nesting
import Chronogram.Proofs.Delays
import Chronogram.Proofs.Spacing
import Chronogram.Proofs.Wiring
import Chronogram.Proofs.Reporting
import Chronogram.Proofs.Cycles
import Chronogram.Proofs.Kinds
import Chronogram.Proofs.SelfContainment
import Chronogram.Proofs.Drivers
import Chronogram.Proofs.TableHistory
import Chronogram.Proofs.WellFormedness
import Chronogram.Proofs.Batches
import Chronogram.Proofs.Results
import Chronogram.Proofs.Sharing
import Chronogram.Proofs.Locality
import Chronogram.Proofs.Strengthening
import Chronogram.Proofs.ImportGraph
import Chronogram.Proofs.Derivation
import Chronogram.Proofs.Printing
import Chronogram.Proofs.Recognition
import Chronogram.Proofs.Rereading
import Chronogram.Proofs.CallSite
import Chronogram.Proofs.Pacing
import Chronogram.Proofs.Linearization
import Chronogram.Proofs.Binding
import Chronogram.Proofs.Phrases
import Chronogram.Proofs.Arguments
import Chronogram.Proofs.Reordering
import Chronogram.Proofs.Substitution
import Chronogram.Proofs.Subsumption
import Chronogram.Proofs.FormText
import Chronogram.Proofs.Export
import Chronogram.Proofs.Statements
import Chronogram.Proofs.Waveform
