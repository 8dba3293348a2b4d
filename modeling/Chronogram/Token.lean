/-! Tokens of the one-line declarations and statements. Every text has a token list: white space
separates tokens and is dropped, each token is as long as possible, and a character that starts no
token becomes a token of its own that no declaration uses. -/

namespace Chronogram

inductive Mark where
  | plus | minus | star
  | openParen | closeParen | openBracket | closeBracket
  | less | lessEq | greater | greaterEq | equal
  | becomes | define | colon | comma | question | dot
  deriving DecidableEq, Repr

inductive Token where
  | number (value : Nat)
  | word (name : String)
  | event (name : String)
  | mark (m : Mark)
  | stray (c : Char)
  deriving DecidableEq, Repr

namespace Token

def isSpace (c : Char) : Bool := c == ' ' || c == '\t' || c == '\r' || c == '\n'

def isDigit (c : Char) : Bool := '0' ≤ c && c ≤ '9'

def isLetter (c : Char) : Bool := ('a' ≤ c && c ≤ 'z') || ('A' ≤ c && c ≤ 'Z') || c == '_'

def isNameChar (c : Char) : Bool := isLetter c || isDigit c

/-- A letter or underscore followed by letters, digits and underscores. -/
def isName (s : String) : Bool :=
  match s.toList with
  | [] => false
  | c :: cs => isLetter c && cs.all isNameChar

def numeral (digits : List Char) : Nat := digits.foldl (fun n c => 10 * n + (c.toNat - '0'.toNat)) 0

/-- The token that a punctuation character starts, and what follows it. -/
def punctuation (c : Char) (cs : List Char) : Token × List Char :=
  match c, cs with
  | '<', '=' :: cs => (mark .lessEq, cs)
  | '>', '=' :: cs => (mark .greaterEq, cs)
  | '=', '=' :: cs => (mark .equal, cs)
  | ':', '=' :: cs => (mark .define, cs)
  | '<', cs => (mark .less, cs)
  | '>', cs => (mark .greater, cs)
  | '=', cs => (mark .becomes, cs)
  | ':', cs => (mark .colon, cs)
  | '+', cs => (mark .plus, cs)
  | '-', cs => (mark .minus, cs)
  | '*', cs => (mark .star, cs)
  | '(', cs => (mark .openParen, cs)
  | ')', cs => (mark .closeParen, cs)
  | '[', cs => (mark .openBracket, cs)
  | ']', cs => (mark .closeBracket, cs)
  | ',', cs => (mark .comma, cs)
  | '?', cs => (mark .question, cs)
  | '.', cs => (mark .dot, cs)
  | '\'', d :: ds =>
    if isLetter d then (event (String.ofList (d :: ds.takeWhile isNameChar)), ds.dropWhile isNameChar)
    else (stray '\'', d :: ds)
  | c, cs => (stray c, cs)

theorem length_dropWhile_le (p : Char → Bool) (cs : List Char) :
    (cs.dropWhile p).length ≤ cs.length :=
  (List.dropWhile_sublist p).length_le

theorem length_punctuation_le (c : Char) (cs : List Char) :
    (punctuation c cs).2.length ≤ cs.length := by
  unfold punctuation
  split <;> simp
  split
  · exact Nat.le_succ_of_le (length_dropWhile_le _ _)
  · simp

def scan : List Char → List Token
  | [] => []
  | c :: cs =>
    if isSpace c then scan cs
    else if isDigit c then
      number (numeral (c :: cs.takeWhile isDigit)) :: scan (cs.dropWhile isDigit)
    else if isLetter c then
      word (String.ofList (c :: cs.takeWhile isNameChar)) :: scan (cs.dropWhile isNameChar)
    else (punctuation c cs).1 :: scan (punctuation c cs).2
termination_by cs => cs.length
decreasing_by
  · simp
  · exact Nat.lt_succ_of_le (length_dropWhile_le _ _)
  · exact Nat.lt_succ_of_le (length_dropWhile_le _ _)
  · exact Nat.lt_succ_of_le (length_punctuation_le _ _)

end Token

end Chronogram
