import Chronogram.Datum.Basic
import Chronogram.Yaml.ScalarText

/-! Plain data as a YAML text in block style. The entries of a list under a key stand in the column of
the key. -/

namespace Chronogram.Yaml

def spaces (n : Nat) : String := String.ofList (List.replicate n ' ')

/-- A scalar that starts in a column; its further lines are indented. -/
def scalarText (indent column : Nat) : Datum → String
  | .null => "null"
  | .bool b => if b then "true" else "false"
  | .int n => toString n
  | .text s (.text _) => ScalarText.write s false indent column
  | .text s _ => s
  | .list _ => "[]"
  | .record _ => "\x7b\x7d"

/-- A key in front of its colon, in the column of its record. -/
def keyText (column : Nat) : Datum → String
  | .text s (.text _) => ScalarText.write s true (column + 2) column
  | d => scalarText (column + 2) column d

def isSimpleKey : Datum → Bool
  | .text s (.text _) => ScalarText.isSimpleKey s
  | _ => true

mutual

/-- Entries in a column, the first of which starts where the text stands. -/
def writeRecord (column : Nat) (first : Bool) : List (Datum × Datum) → String
  | [] => ""
  | (k, v) :: rest =>
    let start := if first then "" else "\n" ++ spaces column
    let entry :=
      if isSimpleKey k then
        let key := keyText column k
        key ++ ":" ++ writeUnderKey column (column + key.length + 2) v
      else
        "? " ++ scalarText (column + 2) (column + 2) k ++ "\n" ++ spaces column ++ ": " ++
          writeInline column v
    start ++ entry ++ writeRecord column false rest

def writeUnderKey (column scalarColumn : Nat) : Datum → String
  | .list (d :: ds) => "\n" ++ spaces column ++ writeList column true (d :: ds)
  | .record (e :: es) => "\n" ++ spaces (column + 2) ++ writeRecord (column + 2) true (e :: es)
  | d => " " ++ scalarText (column + 2) scalarColumn d

/-- Items in a column, the first of which starts where the text stands. -/
def writeList (column : Nat) (first : Bool) : List Datum → String
  | [] => ""
  | d :: rest =>
    (if first then "" else "\n" ++ spaces column) ++ "- " ++ writeInline column d ++
      writeList column false rest

/-- A value behind a dash or a colon that stands in a column. -/
def writeInline (column : Nat) : Datum → String
  | .list (d :: ds) => writeList (column + 2) true (d :: ds)
  | .record (e :: es) => writeRecord (column + 2) true (e :: es)
  | d => scalarText (column + 2) (column + 2) d

end

def document : Datum → String
  | .list (d :: ds) => writeList 0 true (d :: ds) ++ "\n"
  | .record (e :: es) => writeRecord 0 true (e :: es) ++ "\n"
  | d => scalarText 2 0 d ++ "\n"

end Chronogram.Yaml
