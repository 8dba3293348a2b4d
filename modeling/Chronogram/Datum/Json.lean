import Chronogram.Datum.Basic

/-! Plain data as a JSON text. All characters but those of ASCII are written by escapes, which are
codes of UTF-16 units. -/

namespace Chronogram.Datum

def jsonUnit (n : Nat) : String :=
  let ds := Nat.toDigits 16 n
  "\\u" ++ String.ofList (List.replicate (4 - ds.length) '0' ++ ds)

def jsonChar (c : Char) : String :=
  match c with
  | '"' => "\\\""
  | '\\' => "\\\\"
  | '\n' => "\\n"
  | '\r' => "\\r"
  | '\t' => "\\t"
  | '\x08' => "\\b"
  | '\x0c' => "\\f"
  | c =>
    let n := c.toNat
    if ' ' ≤ c && c ≤ '~' then c.toString
    else if n < 0x10000 then jsonUnit n
    else jsonUnit (0xd800 + (n - 0x10000) / 0x400) ++ jsonUnit (0xdc00 + (n - 0x10000) % 0x400)

def jsonText (s : String) : String := "\"" ++ Text.joined "" (s.toList.map jsonChar) ++ "\""

def jsonScalar : Datum → String
  | null => "null"
  | bool b => if b then "true" else "false"
  | int n => toString n
  | d => jsonText d.shown

mutual

def json : Datum → String
  | list ds => "[" ++ Text.commas (jsonItems ds) ++ "]"
  | record es => "\x7b" ++ Text.commas (jsonEntries es) ++ "\x7d"
  | d => jsonScalar d

def jsonItems : List Datum → List String
  | [] => []
  | d :: ds => json d :: jsonItems ds

def jsonEntries : List (Datum × Datum) → List String
  | [] => []
  | (k, v) :: es => (jsonText k.shown ++ ": " ++ json v) :: jsonEntries es

end

def jsonBlock (depth : Nat) (opening closing : String) (parts : List String) : String :=
  if parts.isEmpty then opening ++ closing
  else
    let margin := "\n" ++ String.ofList (List.replicate (2 * depth) ' ')
    opening ++ margin ++ "  " ++ Text.joined ("," ++ margin ++ "  ") parts ++ margin ++ closing

mutual

/-- On many lines, each level indented by two. -/
def jsonIndented (depth : Nat) : Datum → String
  | list ds => jsonBlock depth "[" "]" (jsonIndentedItems (depth + 1) ds)
  | record es => jsonBlock depth "\x7b" "\x7d" (jsonIndentedEntries (depth + 1) es)
  | d => jsonScalar d

def jsonIndentedItems (depth : Nat) : List Datum → List String
  | [] => []
  | d :: ds => jsonIndented depth d :: jsonIndentedItems depth ds

def jsonIndentedEntries (depth : Nat) : List (Datum × Datum) → List String
  | [] => []
  | (k, v) :: es =>
    (jsonText k.shown ++ ": " ++ jsonIndented depth v) :: jsonIndentedEntries depth es

end

end Chronogram.Datum
