import Chronogram.Proofs.Printing

/-! The texts of declarations and statements, token by token. A text is made of its tokens whatever stands
behind it, unless that goes on with the last one: a name ends before anything that is no part of a name, and a
mark such as `<` before anything but another `=`. So the tokens of a text are those of its parts. -/

namespace Chronogram

namespace Token

variable {p q : Char → Bool} {s u : String} {ts us : List Token}

/-- The text is made of the tokens, if it does not go on behind its end. -/
def Prints (goesOn : Char → Bool) (s : String) (ts : List Token) : Prop :=
  ∀ rest : List Char, (∀ c ∈ rest.head?, goesOn c = false) → scan (s.toList ++ rest) = ts ++ scan rest

/-- A mark after which an equals sign would make another one. -/
def isEquals (c : Char) : Bool := c == '='

def isNothing (_ : Char) : Bool := false

theorem Prints.mono (h : Prints p s ts) (hpq : ∀ c, p c = true → q c = true) : Prints q s ts := by
  intro rest hrest
  refine h rest fun c hc => ?_
  by_contra hp
  have hq := hpq c (by simpa using hp)
  rw [hrest c hc] at hq
  cases hq

theorem Prints.of_closed (h : Prints isNothing s ts) : Prints p s ts :=
  h.mono fun _ hc => absurd hc Bool.false_ne_true

theorem Prints.append (h : Prints p s ts) (h' : Prints q u us) (hu : ∃ c ∈ u.toList.head?, p c = false) :
    Prints q (s ++ u) (ts ++ us) := by
  intro rest hrest
  obtain ⟨c, hc, hpc⟩ := hu
  have hnext : ∀ d ∈ (u.toList ++ rest).head?, p d = false := by
    intro d hd
    rw [List.head?_append, hc] at hd
    exact Option.some.inj hd ▸ hpc
  rw [String.toList_append, List.append_assoc, h _ hnext, h' _ hrest, List.append_assoc]

theorem Prints.closed_append (h : Prints isNothing s ts) (h' : Prints q u us) :
    Prints q (s ++ u) (ts ++ us) := by
  intro rest hrest
  rw [String.toList_append, List.append_assoc, h _ fun _ _ => rfl, h' _ hrest, List.append_assoc]

theorem scan_of_prints (h : Prints p s ts) : scan s.toList = ts := by
  have hscan := h [] (by simp)
  rwa [List.append_nil, scan, List.append_nil] at hscan

theorem prints_word {w : String} (hw : isName w = true) : Prints isNameChar w [word w] :=
  fun _ hrest => scan_word hw hrest

theorem prints_event {x : String} (hx : isName x = true) : Prints isNameChar ("'" ++ x) [event x] := by
  intro rest hrest
  rw [String.toList_append, List.append_assoc]
  exact scan_event hx hrest

theorem prints_int (n : Int) : Prints isNameChar (toString n) (ofInt n) :=
  fun _ hrest => scan_int n hrest

theorem scan_punctuation {c : Char} {rest : List Char}
    (hc : isSpace c = false ∧ isDigit c = false ∧ isLetter c = false) :
    scan (c :: rest) = (punctuation c rest).1 :: scan (punctuation c rest).2 := by
  obtain ⟨hspace, hdigit, hletter⟩ := hc
  rw [scan]
  simp [hspace, hdigit, hletter]

/-- The marks of one character that are not the start of another mark. -/
def marks : List (Char × Mark) :=
  [('+', .plus), ('(', .openParen), (')', .closeParen), ('[', .openBracket), (']', .closeBracket),
    ('?', .question), ('.', .dot)]

theorem prints_mark (c : Char) (m : Mark) (h : (c, m) ∈ marks) :
    Prints isNothing (String.ofList [c]) [mark m] := by
  intro rest _
  rw [String.toList_ofList]
  simp only [marks, List.mem_cons, Prod.mk.injEq, List.not_mem_nil, or_false] at h
  rcases h with ⟨rfl, rfl⟩ | ⟨rfl, rfl⟩ | ⟨rfl, rfl⟩ | ⟨rfl, rfl⟩ | ⟨rfl, rfl⟩ | ⟨rfl, rfl⟩ | ⟨rfl, rfl⟩
  all_goals exact scan_punctuation (by decide)

/-- The marks of one character that another equals sign would change. -/
def comparisons : List (Char × Mark) := [('<', .less), ('>', .greater), ('=', .becomes)]

theorem punctuation_of_ne_equals {c : Char} {m : Mark} (h : (c, m) ∈ comparisons) {rest : List Char}
    (hrest : rest.head? ≠ some '=') : punctuation c rest = (mark m, rest) := by
  simp only [comparisons, List.mem_cons, Prod.mk.injEq, List.not_mem_nil, or_false] at h
  rcases h with ⟨rfl, rfl⟩ | ⟨rfl, rfl⟩ | ⟨rfl, rfl⟩
  all_goals
    unfold punctuation
    split <;> simp_all

theorem scan_comparison {c : Char} {m : Mark} (h : (c, m) ∈ comparisons) {rest : List Char}
    (hrest : rest.head? ≠ some '=') : scan (c :: rest) = mark m :: scan rest := by
  have hmarks : ∀ x ∈ comparisons, isSpace x.1 = false ∧ isDigit x.1 = false ∧ isLetter x.1 = false := by
    decide
  rw [scan_punctuation (hmarks _ h), punctuation_of_ne_equals h hrest]

theorem prints_comparison (c : Char) (m : Mark) (h : (c, m) ∈ comparisons) :
    Prints isEquals (String.ofList [c]) [mark m] := by
  intro rest hrest
  have hne : rest.head? ≠ some '=' := fun heq => absurd (hrest _ heq) (by decide)
  rw [String.toList_ofList, List.singleton_append, scan_comparison h hne]
  rfl

theorem prints_space : Prints isNothing " " [] := fun _ _ => scan_space

theorem prints_comma : Prints isNothing ", " [mark .comma] := fun _ _ =>
  (scan_punctuation (by decide)).trans (congrArg _ scan_space)

theorem prints_colon : Prints isNothing ": " [mark .colon] := fun _ _ =>
  (scan_punctuation (by decide)).trans (congrArg _ scan_space)

theorem prints_define : Prints isNothing " := " [mark .define] := fun _ _ =>
  scan_space.trans ((scan_punctuation (by decide)).trans (congrArg _ scan_space))

theorem prints_becomes : Prints isNothing " = " [mark .becomes] := fun _ _ =>
  scan_space.trans ((scan_punctuation (by decide)).trans (congrArg _ scan_space))

def separated (items : List (List Token)) : List Token := [mark .comma].intercalate items

theorem prints_commas {α : Type} {text : α → String} {tokens : α → List Token} {a : α} {as : List α}
    (h : ∀ b ∈ a :: as, Prints p (text b) (tokens b)) (hp : p ',' = false) :
    Prints p (Text.commas ((a :: as).map text)) (separated ((a :: as).map tokens)) := by
  induction as generalizing a with
  | nil => simpa [separated, Text.commas, Text.joined] using h
  | cons b as ih =>
    rw [List.forall_mem_cons] at h
    have hrest := prints_comma.closed_append (ih h.2)
    have hall := h.1.append hrest ⟨',', by simp, hp⟩
    simp only [separated, Text.commas, Text.joined, List.map_cons, String.intercalate_cons_cons,
      List.intercalate_cons_cons, List.append_assoc, String.append_assoc] at hall ⊢
    exact hall

def between (first last : Mark) (items : List (List Token)) : List Token :=
  mark first :: (separated items ++ [mark last])

theorem prints_between (c d : Char) (first last : Mark)
    (hmarks : (c, first) ∈ marks ∧ (d, last) ∈ marks ∧ isNameChar d = false) {α : Type}
    {text : α → String} {tokens : α → List Token} {as : List α}
    (h : ∀ a ∈ as, Prints isNameChar (text a) (tokens a)) :
    Prints isNothing (String.ofList [c] ++ Text.commas (as.map text) ++ String.ofList [d])
      (between first last (as.map tokens)) := by
  obtain ⟨hfirst, hlast, hd⟩ := hmarks
  have hopen := prints_mark c first hfirst
  have hclose := prints_mark d last hlast
  cases as with
  | nil =>
    have hboth := hopen.closed_append hclose
    simpa [between, separated, Text.commas, Text.joined] using hboth
  | cons a as =>
    have hitems := hopen.closed_append (prints_commas h rfl)
    have hall := hitems.append hclose ⟨d, by simp, hd⟩
    simpa [between] using hall

theorem exists_head_append (h : ∃ c ∈ s.toList.head?, p c = false) :
    ∃ c ∈ (s ++ u).toList.head?, p c = false := by
  obtain ⟨c, hc, hp⟩ := h
  refine ⟨c, ?_, hp⟩
  rw [String.toList_append, List.head?_append, hc]
  rfl

theorem not_isEquals_of_isNameChar {c : Char} (h : isNameChar c = true) : isEquals c = false := by
  by_contra heq
  obtain rfl : c = '=' := by simpa [isEquals] using heq
  exact absurd h (by decide)

end Token

open Token

namespace Expr

variable {e : Expr}

theorem prints (he : e.Plain) : Prints isNameChar e.text e.tokens := fun _ hrest => scan_text he hrest

theorem head_text (he : e.Plain) : ∃ c ∈ e.text.toList.head?, isEquals c = false := by
  induction e with
  | const n =>
    rw [text, Int.toString_eq_repr]
    cases n with
    | ofNat n =>
      rw [Int.repr, Nat.repr_eq_ofList_toDigits, String.toList_ofList]
      cases hcs : Nat.toDigits 10 n with
      | nil => exact absurd hcs Nat.toDigits_ne_nil
      | cons c cs =>
        have hc := Nat.isDigit_of_mem_toDigits (by decide) (by decide) (hcs ▸ List.mem_cons_self)
        refine ⟨c, rfl, not_isEquals_of_isNameChar ?_⟩
        simp_all [isNameChar, isDigit, Char.isDigit, Char.le_def]
    | negSucc n => exact ⟨'-', by simp [Int.repr], rfl⟩
  | param x =>
    obtain ⟨c, cs, rfl, hc, -⟩ := exists_of_isName (he.1 x (by simp [params]))
    exact ⟨c, by simp [text], not_isEquals_of_isNameChar (by simp [isNameChar, hc])⟩
  | event x => exact ⟨'\'', by simp [text], rfl⟩
  | add l r ihl _ | sub l r ihl _ =>
    simp only [text, String.append_assoc]
    exact exists_head_append (ihl (plain_operands he).1)
  | mul l r ihl _ =>
    simp only [text, String.append_assoc]
    split
    · exact ⟨'(', by simp, rfl⟩
    · exact exists_head_append (ihl (plain_operands he).1)

end Expr

namespace Time

/-- The tokens of a number of cycles, which has its sign in any case. -/
def offsetTokens (offset : Int) : List Token :=
  if 0 < offset then .mark .plus :: ofInt offset
  else if offset < 0 then ofInt offset
  else []

def tokens (t : Time) : List Token := .event t.event :: offsetTokens t.offset

theorem prints {t : Time} (h : isName t.event = true) : Prints isNameChar t.text t.tokens := by
  have hevent := prints_event h
  unfold text tokens offsetTokens
  split
  · exact hevent.append ((prints_mark '+' .plus (by decide)).closed_append (prints_int _)) ⟨'+', by simp, rfl⟩
  · split
    next hneg =>
      refine hevent.append (prints_int _) ⟨'-', ?_, rfl⟩
      obtain ⟨n, hn⟩ := Int.eq_negSucc_of_lt_zero hneg
      rw [hn, Int.toString_eq_repr]
      simp [Int.repr]
    · rwa [String.append_empty]

end Time

namespace Interval

structure Spelled (i : Interval) : Prop where
  start : isName i.start.event = true
  stop : isName i.stop.event = true

def tokens (i : Interval) : List Token :=
  .mark .openBracket :: (i.start.tokens ++ .mark .comma :: (i.stop.tokens ++ [.mark .closeParen]))

theorem prints {i : Interval} (h : i.Spelled) : Prints isNothing i.text i.tokens := by
  have hopen := (prints_mark '[' .openBracket (by decide)).closed_append (Time.prints h.start)
  have hcomma := (hopen.append prints_comma ⟨',', by simp, rfl⟩).closed_append (Time.prints h.stop)
  have hclose := hcomma.append (prints_mark ')' .closeParen (by decide)) ⟨')', by simp, rfl⟩
  simpa [text, textOf, tokens] using hclose

end Interval

namespace Parameter

structure Spelled (p : Parameter) : Prop where
  name : isName p.name = true
  default : ∀ e, p.default = some e → e.Plain

def tokens (p : Parameter) : List Token :=
  match p.default with
  | some e => .mark .question :: .word p.name :: .mark .becomes :: e.tokens
  | none => [.word p.name]

theorem prints {p : Parameter} (h : p.Spelled) : Prints isNameChar p.text p.tokens := by
  have hname := prints_word h.name
  unfold text tokens
  cases hdefault : p.default with
  | none => exact hname
  | some e =>
    have he := h.default e hdefault
    have hsign := (prints_mark '?' .question (by decide)).closed_append hname
    have hequals := hsign.append (prints_comparison '=' .becomes (by decide)) ⟨'=', by simp, rfl⟩
    exact hequals.append (Expr.prints he) (Expr.head_text he)

end Parameter

namespace Event

structure Spelled (e : Event) : Prop where
  name : isName e.name = true
  delay : e.delay.Plain

def tokens (e : Event) : List Token := .event e.name :: .mark .colon :: e.delay.tokens

theorem prints {e : Event} (h : e.Spelled) : Prints isNameChar e.text e.tokens :=
  ((prints_event h.name).append prints_colon ⟨':', by simp, rfl⟩).closed_append (Expr.prints h.delay)

end Event

namespace Port

structure Spelled (p : Port) : Prop where
  name : isName p.name = true
  interval : p.interval.Spelled
  width : p.width.Plain

def tokens (p : Port) : List Token :=
  .word p.name :: .mark .colon :: (p.interval.tokens ++ p.width.tokens)

theorem prints {p : Port} (h : p.Spelled) : Prints isNameChar p.text p.tokens := by
  have hname := (prints_word h.name).append prints_colon ⟨':', by simp, rfl⟩
  have hinterval := (hname.closed_append (Interval.prints h.interval)).closed_append prints_space
  simpa [text, tokens] using hinterval.closed_append (Expr.prints h.width)

end Port

def Relation.mark : Relation → Mark
  | lt => .less
  | le => .lessEq
  | gt => .greater
  | ge => .greaterEq
  | eq => .equal

theorem Relation.prints (r : Relation) : Prints isEquals r.text [.mark r.mark] := by
  cases r with
  | lt => exact prints_comparison '<' .less (by decide)
  | gt => exact prints_comparison '>' .greater (by decide)
  | _ => exact fun _ _ => scan_punctuation (by decide)

namespace Clause

structure Spelled (c : Clause) : Prop where
  lhs : c.lhs.Plain
  rhs : c.rhs.Plain

def tokens (c : Clause) : List Token := c.lhs.tokens ++ .mark c.relation.mark :: c.rhs.tokens

theorem prints {c : Clause} (h : c.Spelled) : Prints isNameChar c.text c.tokens := by
  have hlhs := (Expr.prints h.lhs).append prints_space ⟨' ', by simp, rfl⟩
  have hrel := (hlhs.closed_append c.relation.prints).append prints_space ⟨' ', by simp, rfl⟩
  simpa [text, tokens] using hrel.closed_append (Expr.prints h.rhs)

end Clause

namespace PortRef

def tokens (r : PortRef) : List Token :=
  match r.invocation with
  | some i => [.word i, .mark .dot, .word r.port]
  | none => [.word r.port]

theorem prints {r : PortRef} (h : r.Spelled) : Prints isNameChar r.text r.tokens := by
  have hport := prints_word h.port
  unfold text tokens
  cases hinv : r.invocation with
  | none => exact hport
  | some i =>
    have hname := h.invocation i hinv
    have hne : ¬ i.isEmpty = true := by
      obtain ⟨c, cs, rfl, -⟩ := exists_of_isName hname
      simp
    have hdot := (prints_word hname).append (prints_mark '.' .dot (by decide)) ⟨'.', by simp, rfl⟩
    dsimp only
    rw [if_neg hne]
    exact hdot.closed_append hport

end PortRef

namespace Instantiation

/-- All names are identifiers, and no argument is named twice. -/
structure Spelled (i : Instantiation) : Prop where
  name : isName i.name = true
  component : isName i.component = true
  args : ∀ e ∈ i.args, e.Plain
  keys : ∀ a ∈ i.named, isName a.1 = true
  named : ∀ a ∈ i.named, a.2.Plain
  distinct : (i.named.map (·.1)).Nodup

/-- The arguments as they are written, those with a name last. -/
def arguments (i : Instantiation) : List (Option String × Expr) :=
  i.args.map (none, ·) ++ i.named.map fun a => (some a.1, a.2)

def argumentText (a : Option String × Expr) : String :=
  match a.1 with
  | some name => name ++ "=" ++ a.2.text
  | none => a.2.text

def argumentTokens (a : Option String × Expr) : List Token :=
  match a.1 with
  | some name => .word name :: .mark .becomes :: a.2.tokens
  | none => a.2.tokens

def tokens (i : Instantiation) : List Token :=
  .word i.name :: .mark .define :: .word "new" :: .word i.component ::
    (if i.arguments.isEmpty then []
     else between .openBracket .closeBracket (i.arguments.map argumentTokens))

theorem Spelled.argument {i : Instantiation} (h : i.Spelled) :
    ∀ a ∈ i.arguments, (∀ name, a.1 = some name → isName name = true) ∧ a.2.Plain := by
  intro a ha
  rcases List.mem_append.1 ha with ha | ha
  · obtain ⟨e, he, rfl⟩ := List.mem_map.1 ha
    exact ⟨by simp, h.args e he⟩
  · obtain ⟨b, hb, rfl⟩ := List.mem_map.1 ha
    exact ⟨by simpa using h.keys b hb, h.named b hb⟩

theorem prints_argument {a : Option String × Expr} (hname : ∀ name, a.1 = some name → isName name = true)
    (he : a.2.Plain) : Prints isNameChar (argumentText a) (argumentTokens a) := by
  obtain ⟨name, e⟩ := a
  cases name with
  | none => exact Expr.prints he
  | some name =>
    have hequals := (prints_word (hname name rfl)).append (prints_comparison '=' .becomes (by decide))
      ⟨'=', by simp, rfl⟩
    exact hequals.append (Expr.prints he) (Expr.head_text he)

theorem prints_new : Prints isNothing " := new " [.mark .define, .word "new"] := by
  have hnew := (prints_word (w := "new") (by decide)).append prints_space ⟨' ', by simp, rfl⟩
  exact prints_define.closed_append hnew

theorem prints {i : Instantiation} (h : i.Spelled) : Prints isNameChar i.text i.tokens := by
  have htexts : i.args.map (·.text) ++ (i.named.map fun a => a.1 ++ "=" ++ a.2.text) =
      i.arguments.map argumentText := by
    simp [arguments, argumentText, Function.comp_def]
  have hname := (prints_word h.name).append prints_new ⟨' ', by simp, rfl⟩
  have hcomponent := hname.closed_append (prints_word h.component)
  unfold text tokens
  dsimp only
  rw [htexts, List.isEmpty_map]
  split
  · simpa using hcomponent
  · have hitems := prints_between '[' ']' .openBracket .closeBracket (by decide) fun a ha =>
      prints_argument (h.argument a ha).1 (h.argument a ha).2
    have hall := hcomponent.append hitems ⟨'[', by simp, rfl⟩
    exact hall.of_closed

end Instantiation

namespace Invocation

structure Spelled (i : Invocation) : Prop where
  name : isName i.name = true
  target : isName i.target = true
  times : ∀ t ∈ i.times, isName t.event = true
  inputs : ∀ refs, i.inputs = some refs → ∀ r ∈ refs, r.Spelled

def tokens (i : Invocation) : List Token :=
  .word i.name :: .mark .define :: .word i.target :: .mark .less ::
    (separated (i.times.map (·.tokens)) ++ .mark .greater ::
      i.inputs.elim [] fun refs => between .openParen .closeParen (refs.map (·.tokens)))

theorem prints {i : Invocation} (h : i.Spelled) (hne : i.times ≠ []) :
    Prints isEquals i.text i.tokens := by
  have htarget := ((prints_word h.name).append prints_define ⟨' ', by simp, rfl⟩).closed_append
    (prints_word h.target)
  have hless := htarget.append (prints_comparison '<' .less (by decide)) ⟨'<', by simp, rfl⟩
  obtain ⟨t, ts, hts⟩ := List.exists_cons_of_ne_nil hne
  have htimes : Prints isNameChar (Text.commas (i.times.map (·.text)))
      (separated (i.times.map (·.tokens))) := by
    rw [hts]
    exact prints_commas (fun u hu => Time.prints (h.times u (hts ▸ hu))) rfl
  have hquote : ∃ c ∈ (Text.commas (i.times.map (·.text))).toList.head?, isEquals c = false := by
    refine ⟨'\'', ?_, rfl⟩
    rw [hts]
    cases ts <;> simp [Text.commas, Text.joined, Time.text]
  have hgreater := (hless.append htimes hquote).append (prints_comparison '>' .greater (by decide))
    ⟨'>', by simp, rfl⟩
  unfold text tokens
  cases hinputs : i.inputs with
  | none => simpa using hgreater
  | some refs =>
    have hrefs := prints_between '(' ')' .openParen .closeParen (by decide) fun r hr =>
      PortRef.prints (h.inputs refs hinputs r hr)
    have hall := hgreater.append hrefs ⟨'(', by simp, rfl⟩
    simpa using hall.of_closed

end Invocation

namespace Connection

structure Spelled (c : Connection) : Prop where
  dest : c.dest.Spelled
  src : c.src.Spelled

def tokens (c : Connection) : List Token := c.dest.tokens ++ .mark .becomes :: c.src.tokens

theorem prints {c : Connection} (h : c.Spelled) : Prints isNameChar c.text c.tokens := by
  have hdest := (PortRef.prints h.dest).append prints_becomes ⟨' ', by simp, rfl⟩
  simpa [text, tokens] using hdest.closed_append (PortRef.prints h.src)

end Connection

end Chronogram
