import Chronogram.Proofs.Phrases
import Mathlib.Data.List.Chain

/-! A statement has one reading. There are three forms of statements, and the readers try them in turn, each
as far as it goes, before the end of the text is asked for. No text is lost that way, and none has two forms.

Which tokens a text is made of is said without the scanner. Names, numbers and events take all characters they
can, and a sign stands as it is, whatever follows. So `==` may be two signs, which the scanner never finds; but
in no form does an equals sign stand behind anything but a name. -/

namespace Chronogram

namespace Token

variable {c : Char} {cs rest : List Char} {m : Mark} {t : Token} {ts us : List Token}

/-- The marks that expressions do not have, with their characters. -/
def signs : List (List Char × Mark) :=
  [([':', '='], .define), (['='], .becomes), (['<'], .less), (['>'], .greater), (['['], .openBracket),
    ([']'], .closeBracket), ([','], .comma), (['.'], .dot)]

/-- The characters are the tokens of a statement, with white space around them. -/
inductive Composes : List Char → List Token → Prop
  | done : Composes [] []
  | space {c : Char} {cs : List Char} {ts : List Token} (hc : isSpace c = true) (h : Composes cs ts) :
    Composes (c :: cs) ts
  | lexeme {cs rest : List Char} {t : Token} {ts : List Token} (ht : Lexeme cs t)
      (longest : ∀ more tail u, rest = more ++ tail → Lexeme (cs ++ more) u → more = [])
      (h : Composes rest ts) :
    Composes (cs ++ rest) (t :: ts)
  | sign {cs rest : List Char} {m : Mark} {ts : List Token} (hm : (cs, m) ∈ signs) (h : Composes rest ts) :
    Composes (cs ++ rest) (mark m :: ts)

theorem Lexeme.head_ne_equals (h : Lexeme cs t) : cs.head? ≠ some '=' := by
  intro hcs
  cases h with
  | number hc _ | word hc _ =>
    obtain rfl := Option.some.inj hcs
    exact absurd hc (by decide)
  | _ => simp at hcs

theorem Composes.head_eq (h : Composes cs ts) (hcs : cs.head? = some '=') :
    ts.head? = some (mark .becomes) := by
  cases h with
  | done => simp at hcs
  | space hc _ =>
    obtain rfl := Option.some.inj hcs
    exact absurd hc (by decide)
  | lexeme ht _ _ =>
    obtain ⟨c, us, rfl, -⟩ := ht.exists_cons
    exact absurd hcs ht.head_ne_equals
  | @sign cs rest m ts hm _ =>
    have hfirst : ∀ x ∈ signs, x.1 ≠ [] ∧ (x.1.head? = some '=' → x.2 = .becomes) := by decide
    obtain ⟨hne, hequals⟩ := hfirst _ hm
    rw [List.head?_append_of_ne_nil _ hne] at hcs
    exact congrArg (fun m => some (mark m)) (hequals hcs)

theorem scan_sign (hm : (cs, m) ∈ signs) (hrest : rest.head? ≠ some '=') :
    scan (cs ++ rest) = mark m :: scan rest := by
  simp only [signs, List.mem_cons, Prod.mk.injEq, List.not_mem_nil, or_false] at hm
  rcases hm with ⟨rfl, rfl⟩ | ⟨rfl, rfl⟩ | ⟨rfl, rfl⟩ | ⟨rfl, rfl⟩ | hm
  · exact scan_punctuation (by decide)
  · exact scan_comparison (by decide) hrest
  · exact scan_comparison (by decide) hrest
  · exact scan_comparison (by decide) hrest
  · rcases hm with ⟨rfl, rfl⟩ | ⟨rfl, rfl⟩ | ⟨rfl, rfl⟩ | ⟨rfl, rfl⟩
    all_goals exact scan_punctuation (by decide)

def Apart (t u : Token) : Prop := u = mark .becomes → ∃ w, t = word w

/-- The scanner takes signs together only where an equals sign follows one. -/
theorem Composes.scan_eq (h : Composes cs ts) (hts : ts.IsChain Apart) : scan cs = ts := by
  induction h with
  | done => rw [scan]
  | space hc _ ih => rw [scan, if_pos hc, ih hts]
  | lexeme ht longest _ ih =>
    obtain ⟨c, us, rfl, -⟩ := ht.exists_cons
    rw [ht.scan (ht.longest_iff.1 longest), ih hts.tail]
  | @sign cs rest m ts hm h ih =>
    have hne : rest.head? ≠ some '=' := by
      intro hequals
      obtain ⟨us, rfl⟩ := List.head?_eq_some_iff.1 (h.head_eq hequals)
      obtain ⟨w, hw⟩ := (List.isChain_cons_cons.1 hts).1 rfl
      cases hw
    rw [scan_sign hm hne, ih hts.tail]

/-- The tokens that statements are made of. -/
def isTerminal (t : Token) : Bool := t.isArithmetic || signs.any fun x => t = mark x.2

theorem exists_sign_of_punctuation (h : (punctuation c cs).1.isTerminal = true)
    (hnot : (punctuation c cs).1.isArithmetic = false) :
    ∃ us m, c :: cs = us ++ (punctuation c cs).2 ∧ (us, m) ∈ signs ∧ (punctuation c cs).1 = mark m := by
  revert h hnot
  unfold punctuation
  split
  case h_4 => exact fun _ _ => ⟨[':', '='], .define, rfl, by decide, rfl⟩
  case h_5 => exact fun _ _ => ⟨['<'], .less, rfl, by decide, rfl⟩
  case h_6 => exact fun _ _ => ⟨['>'], .greater, rfl, by decide, rfl⟩
  case h_7 => exact fun _ _ => ⟨['='], .becomes, rfl, by decide, rfl⟩
  case h_14 => exact fun _ _ => ⟨['['], .openBracket, rfl, by decide, rfl⟩
  case h_15 => exact fun _ _ => ⟨[']'], .closeBracket, rfl, by decide, rfl⟩
  case h_16 => exact fun _ _ => ⟨[','], .comma, rfl, by decide, rfl⟩
  case h_18 => exact fun _ _ => ⟨['.'], .dot, rfl, by decide, rfl⟩
  case h_19 =>
    split
    · intro _ hnot
      cases hnot
    · intro h
      simp [isTerminal, isArithmetic, signs] at h
  all_goals
    intro h hnot
    simp [isTerminal, isArithmetic, signs] at h hnot

/-- Where the scanner finds nothing but tokens of statements, the text is composed of them. -/
theorem composes_scan (cs : List Char) (h : ∀ t ∈ scan cs, t.isTerminal = true) :
    Composes cs (scan cs) := by
  fun_induction scan cs with
  | case1 => exact .done
  | case2 c cs hc ih => exact .space hc (ih h)
  | case3 c cs hspace hc ih =>
    obtain ⟨ht, hnext⟩ := lexeme_digits hc cs
    have hcomposes := Composes.lexeme ht (ht.longest_iff.2 hnext) (ih (List.forall_mem_cons.1 h).2)
    rwa [List.cons_append, List.takeWhile_append_dropWhile] at hcomposes
  | case4 c cs hspace hdigit hc ih =>
    obtain ⟨ht, hnext⟩ := lexeme_word hc cs
    have hcomposes := Composes.lexeme ht (ht.longest_iff.2 hnext) (ih (List.forall_mem_cons.1 h).2)
    rwa [List.cons_append, List.takeWhile_append_dropWhile] at hcomposes
  | case5 c cs hspace hdigit hletter ih =>
    obtain ⟨hfirst, hothers⟩ := List.forall_mem_cons.1 h
    cases hnot : (punctuation c cs).1.isArithmetic with
    | true =>
      obtain ⟨us, hus, ht, hnext⟩ := exists_lexeme_of_punctuation hnot
      have hcomposes := Composes.lexeme ht (ht.longest_iff.2 hnext) (ih hothers)
      rwa [List.cons_append, ← hus] at hcomposes
    | false =>
      obtain ⟨us, m, hus, hm, ht⟩ := exists_sign_of_punctuation hfirst hnot
      rw [ht, hus]
      exact .sign hm (ih hothers)

/-- Tokens that the scanner finds in each text that is composed of them. -/
structure Legible (ts : List Token) : Prop where
  terminal : ∀ t ∈ ts, t.isTerminal = true
  apart : ts.IsChain Apart
  head : ts.head? ≠ some (mark .becomes)

theorem legible_of_forall (h : ∀ t ∈ ts, t.isTerminal = true ∧ t ≠ mark .becomes) : Legible ts where
  terminal t ht := (h t ht).1
  apart := (List.pairwise_of_forall_mem_list fun _ _ u hu hequals => absurd hequals (h u hu).2).isChain
  head hhead := (h _ (List.mem_of_head? hhead)).2 rfl

theorem Legible.append (h : Legible ts) (h' : Legible us) : Legible (ts ++ us) where
  terminal := List.forall_mem_append.2 ⟨h.terminal, h'.terminal⟩
  apart := h.apart.append h'.apart fun t _ u hu hequals => absurd (hequals ▸ hu) h'.head
  head hhead := by
    cases ts with
    | nil => exact h'.head hhead
    | cons t ts => exact h.head hhead

theorem Legible.assign (h : Legible ts) (w : String) : Legible (word w :: mark .becomes :: ts) where
  terminal := List.forall_mem_cons.2 ⟨rfl, List.forall_mem_cons.2 ⟨rfl, h.terminal⟩⟩
  apart := by
    rw [List.isChain_cons_cons, List.isChain_cons]
    exact ⟨fun _ => ⟨w, rfl⟩, fun t ht hequals => absurd (hequals ▸ ht) h.head, h.apart⟩
  head := by simp

theorem legible_token (ht : t.isTerminal = true) (hne : t ≠ mark .becomes) : Legible [t] :=
  legible_of_forall (List.forall_mem_singleton.2 ⟨ht, hne⟩)

theorem legible_more {items : List (List Token)} (h : ∀ item ∈ items, Legible item) :
    Legible (items.flatMap (mark .comma :: ·)) := by
  induction items with
  | nil => exact legible_of_forall (by simp)
  | cons item items ih =>
    rw [List.forall_mem_cons] at h
    exact ((legible_token rfl (by simp)).append h.1).append (ih h.2)

theorem legible_separated {items : List (List Token)} (h : ∀ item ∈ items, Legible item) :
    Legible (separated items) := by
  cases items with
  | nil => exact legible_of_forall (by simp [separated])
  | cons item items =>
    rw [List.forall_mem_cons] at h
    rw [Reader.separated_cons]
    exact h.1.append (legible_more h.2)

theorem legible_between {items : List (List Token)} {first last : Mark}
    (hfirst : (mark first).isTerminal = true ∧ mark first ≠ mark .becomes)
    (hlast : (mark last).isTerminal = true ∧ mark last ≠ mark .becomes) (h : ∀ item ∈ items, Legible item) :
    Legible (between first last items) :=
  ((legible_token hfirst.1 hfirst.2).append (legible_separated h)).append (legible_token hlast.1 hlast.2)

theorem legible_of_forall₂ {α : Type} {Writes : List Token → α → Prop} {items : List (List Token)}
    {as : List α} (hwrites : ∀ item a, Writes item a → Legible item) (h : List.Forall₂ Writes items as) :
    ∀ item ∈ items, Legible item := by
  intro item hitem
  obtain ⟨a, -, ha⟩ := Fallible.exists_right_of_forall₂ h hitem
  exact hwrites item a ha

end Token

open Token

theorem Expr.Derives.legible {ts : List Token} {level : Level} {e : Expr} (h : Derives level ts e) :
    Legible ts := by
  refine legible_of_forall fun t ht => ⟨?_, ?_⟩
  · rw [isTerminal, h.isArithmetic t ht, Bool.true_or]
  · rintro rfl
    exact absurd (h.isArithmetic _ ht) (by decide)

theorem Time.Writes.legible {ts : List Token} {t : Time} (h : Writes ts t) : Legible ts := by
  apply legible_of_forall
  cases h <;> simp [isTerminal, isArithmetic]

theorem PortRef.Writes.legible {ts : List Token} {r : PortRef} (h : Writes ts r) : Legible ts := by
  apply legible_of_forall
  cases h <;> simp [isTerminal, isArithmetic, signs]

theorem Instantiation.WritesArgument.legible {ts : List Token} {a : Option String × Expr}
    (h : WritesArgument ts a) : Legible ts := by
  cases h with
  | positional h => exact h.legible
  | named name h => exact h.legible.assign name

theorem Instantiation.Writes.legible {ts : List Token} {name component : String}
    {arguments : List (Option String × Expr)} (h : Writes ts name component arguments) : Legible ts := by
  have hstart : Legible [.word name, .mark .define, .word "new", .word component] :=
    legible_of_forall (by simp [isTerminal, isArithmetic, signs])
  cases h with
  | bare => exact hstart
  | listed _ _ hitems =>
    have hlegible := legible_of_forall₂ (fun _ _ => WritesArgument.legible) hitems
    exact hstart.append (legible_between (by decide) (by decide) hlegible)

theorem Invocation.WritesInputs.legible {ts : List Token} {inputs : Option (List PortRef)}
    (h : WritesInputs ts inputs) : Legible ts := by
  cases h with
  | absent => exact legible_of_forall (by simp)
  | listed hrefs =>
    have hlegible := legible_of_forall₂ (fun _ _ => PortRef.Writes.legible) hrefs
    exact legible_between (by decide) (by decide) hlegible

theorem Invocation.Writes.legible {ts : List Token} {i : Invocation} (h : Writes ts i) : Legible ts := by
  cases h with
  | triggers name target _ htimes hinputs =>
    have hstart : Legible [.word name, .mark .define, .word target, .mark .less] :=
      legible_of_forall (by simp [isTerminal, isArithmetic, signs])
    have hseparated := legible_separated (legible_of_forall₂ (fun _ _ => Time.Writes.legible) htimes)
    have hend := (legible_token (t := .mark .greater) rfl (by simp)).append hinputs.legible
    exact hstart.append (hseparated.append hend)

theorem Connection.Writes.legible {ts : List Token} {c : Connection} (h : Writes ts c) : Legible ts := by
  cases h with
  | wires hdest hsrc =>
    cases hdest with
    | own port => exact hsrc.legible.assign port
    | called i port =>
      have hstart : Legible [.word i, .mark .dot] :=
        legible_of_forall (by simp [isTerminal, isArithmetic, signs])
      exact hstart.append (hsrc.legible.assign port)

namespace Statement

/-- A statement as it is written, in one of three forms. -/
inductive Form where
  | instantiation (name component : String) (arguments : List (Option String × Expr))
  | invocation (i : Invocation)
  | connection (c : Connection)

namespace Form

variable {s : String} {loc : Option Loc} {ts : List Token} {f g : Form}

/-- The statement of a form. Of the arguments as much is kept as can be collected. -/
def statement : Form → Statement
  | instantiation name component arguments => .instantiate (.collected name component arguments)
  | invocation i => .invoke i
  | connection c => .connect c

inductive Derives : List Token → Form → Prop
  | instantiation {ts : List Token} {name component : String} {arguments : List (Option String × Expr)}
    (h : Instantiation.Writes ts name component arguments) :
    Derives ts (.instantiation name component arguments)
  | invocation {ts : List Token} {i : Invocation} (h : Invocation.Writes ts i) : Derives ts (.invocation i)
  | connection {ts : List Token} {c : Connection} (h : Connection.Writes ts c) : Derives ts (.connection c)

theorem Derives.legible (h : Derives ts f) : Legible ts := by
  cases h with
  | instantiation h | invocation h | connection h => exact h.legible

/-- What is derived is read, whichever readers are tried before. -/
theorem Derives.takes (h : Derives ts f) :
    Reader.statement.Takes [.openBracket, .openParen, .dot] ts f.statement := by
  cases h with
  | instantiation h => exact (Reader.takes_instantiate h).mono (by simp)
  | invocation h => exact (Reader.takes_invoke h).mono (by simp)
  | connection h => exact (Reader.takes_connect h).mono (by simp)

theorem Derives.read (h : Derives ts f) : Reader.statement ts = .ok (some (f.statement, [])) := by
  have hread := h.takes [] (Reader.clear_nil _)
  rwa [List.append_nil] at hread

/-- Forms of the same tokens are read as one statement, so they are of one kind. -/
theorem Derives.unique (h : Derives ts f) (h' : Derives ts g) : f = g := by
  have hstatement : f.statement = g.statement := by simpa using h.read.symm.trans h'.read
  cases h with
  | @instantiation name component _ h =>
    cases h' with
    | @instantiation name' component' _ h' =>
      have hcollected := Statement.instantiate.inj hstatement
      obtain rfl : name = name' := congrArg Instantiation.name hcollected
      obtain rfl : component = component' := congrArg Instantiation.component hcollected
      -- the statement does not show all arguments, but the tokens do
      rw [h.unique h']
    | invocation _ | connection _ => cases hstatement
  | invocation _ =>
    cases h' with
    | invocation _ => rw [Statement.invoke.inj hstatement]
    | instantiation _ | connection _ => cases hstatement
  | connection _ =>
    cases h' with
    | connection _ => rw [Statement.connect.inj hstatement]
    | instantiation _ | invocation _ => cases hstatement

def Denotes (s : String) (f : Form) : Prop := ∃ ts, Composes s.toList ts ∧ Derives ts f

theorem denotes_iff : Denotes s f ↔ Derives (scan s.toList) f := by
  refine ⟨?_, fun h => ⟨_, composes_scan _ h.legible.terminal, h⟩⟩
  rintro ⟨ts, hcomposes, hderives⟩
  rwa [hcomposes.scan_eq hderives.legible.apart]

end Form

end Statement

namespace Reader

variable {α β : Type} {p q : Reader α} {f : α → Reader β}

theorem finds_statement : statement.Finds fun ts st => ∃ f, Statement.Form.Derives ts f ∧ st = f.statement := by
  refine Finds.either ?_ (Finds.either ?_ ?_)
  · refine (finds_instantiation.bind fun i => finds_pure (Statement.instantiate i)).mono ?_
    rintro ts st ⟨us, i, _, rfl, ⟨arguments, hwrites, hi⟩, rfl, rfl⟩
    rw [List.append_nil]
    exact ⟨_, .instantiation hwrites, congrArg Statement.instantiate hi⟩
  · refine (finds_invocation.bind fun i => finds_pure (Statement.invoke i)).mono ?_
    rintro ts st ⟨us, i, _, rfl, hwrites, rfl, rfl⟩
    rw [List.append_nil]
    exact ⟨_, .invocation hwrites, rfl⟩
  · refine (finds_connection.bind fun c => finds_pure (Statement.connect c)).mono ?_
    rintro ts st ⟨us, c, _, rfl, hwrites, rfl, rfl⟩
    rw [List.append_nil]
    exact ⟨_, .connection hwrites, rfl⟩

/-- The reader does not find that a rule beyond the grammar is broken. -/
def Unbroken (p : Reader α) : Prop := ∀ ts cause, p ts ≠ .error cause

theorem unbroken_pure (a : α) : Unbroken (pure a : Reader α) := fun _ _ h => by cases h

theorem unbroken_fail : Unbroken (fail : Reader α) := fun _ _ h => by cases h

theorem Unbroken.bind (hp : p.Unbroken) (hf : ∀ a, (f a).Unbroken) : (p >>= f).Unbroken := by
  intro ts cause h
  simp only [Bind.bind] at h
  split at h
  · exact hf _ _ _ h
  · cases h
  next hbroken => exact hp _ _ hbroken

theorem Unbroken.either (hp : p.Unbroken) (hq : q.Unbroken) : (either p q).Unbroken := by
  intro ts cause h
  unfold Reader.either at h
  split at h
  · exact hq _ _ h
  · exact hp _ _ h

theorem Unbroken.optional (hp : p.Unbroken) : (optional p).Unbroken := by
  intro ts cause h
  unfold Reader.optional at h
  split at h
  · cases h
  · cases h
  next hbroken => exact hp _ _ hbroken

theorem unbroken_mark (m : Mark) : (mark m).Unbroken := by
  intro ts cause h
  unfold mark at h
  split at h <;> cases h

theorem unbroken_word : word.Unbroken := by
  intro ts cause h
  unfold word at h
  split at h <;> cases h

theorem unbroken_number : number.Unbroken := by
  intro ts cause h
  unfold number at h
  split at h <;> cases h

theorem unbroken_eventName : eventName.Unbroken := by
  intro ts cause h
  unfold eventName at h
  split at h <;> cases h

theorem unbroken_expr : expr.Unbroken := fun _ _ h => by cases h

theorem Unbroken.more (hp : p.Unbroken) (fuel : Nat) : (more p fuel).Unbroken := by
  induction fuel with
  | zero => exact unbroken_pure []
  | succ fuel ih =>
    refine ((unbroken_mark .comma).bind fun _ => hp).optional.bind fun o => ?_
    cases o with
    | none => exact unbroken_pure []
    | some a => exact ih.bind fun as => unbroken_pure (a :: as)

theorem Unbroken.list (hp : p.Unbroken) : (list p).Unbroken := fun ts =>
  (hp.bind fun a => (hp.more ts.length).bind fun as => unbroken_pure (a :: as)) ts

theorem Unbroken.enclosed (hp : p.Unbroken) (first last : Mark) : (enclosed first last p).Unbroken :=
  (unbroken_mark first).bind fun _ => hp.list.optional.bind fun items =>
    (unbroken_mark last).bind fun _ => unbroken_pure (items.getD [])

theorem unbroken_time : time.Unbroken := by
  have hsign : sign.Unbroken := Unbroken.either ((unbroken_mark .plus).bind fun _ => unbroken_pure 1)
    ((unbroken_mark .minus).bind fun _ => unbroken_pure (-1))
  have hoffset := (hsign.bind fun k => unbroken_number.bind fun n => unbroken_pure (k * (n : Int))).optional
  exact unbroken_eventName.bind fun _ => hoffset.bind fun _ => unbroken_pure _

theorem unbroken_portRef : portRef.Unbroken := by
  refine unbroken_word.bind fun head => ((unbroken_mark .dot).bind fun _ => unbroken_word).optional.bind
    fun tail => ?_
  cases tail with
  | none => exact unbroken_pure _
  | some _ => exact unbroken_pure _

theorem unbroken_argument : argument.Unbroken := by
  apply Unbroken.either
  · exact unbroken_word.bind fun _ => (unbroken_mark .becomes).bind fun _ =>
      unbroken_expr.bind fun _ => unbroken_pure _
  · exact unbroken_expr.bind fun _ => unbroken_pure _

theorem unbroken_instantiation : instantiation.Unbroken := by
  refine unbroken_word.bind fun _ => (unbroken_mark .define).bind fun _ => unbroken_word.bind fun keyword => ?_
  split
  · exact unbroken_fail
  · exact unbroken_word.bind fun _ =>
      (unbroken_argument.enclosed .openBracket .closeBracket).optional.bind fun _ => unbroken_pure _

theorem unbroken_invocation : invocation.Unbroken :=
  unbroken_word.bind fun _ => (unbroken_mark .define).bind fun _ => unbroken_word.bind fun _ =>
    (unbroken_mark .less).bind fun _ => unbroken_time.list.bind fun _ => (unbroken_mark .greater).bind fun _ =>
      (unbroken_portRef.enclosed .openParen .closeParen).optional.bind fun _ => unbroken_pure _

theorem unbroken_connection : connection.Unbroken :=
  unbroken_portRef.bind fun _ => (unbroken_mark .becomes).bind fun _ => unbroken_portRef.bind fun _ =>
    unbroken_pure _

theorem unbroken_statement : statement.Unbroken :=
  (unbroken_instantiation.bind fun _ => unbroken_pure _).either
    ((unbroken_invocation.bind fun _ => unbroken_pure _).either
      (unbroken_connection.bind fun _ => unbroken_pure _))

/-- Where no rule can be broken, a text is refused only because it has no reading. -/
theorem Unbroken.whole_cases (hp : p.Unbroken) (what : Phrase) (s : String) :
    (∃ a, p.whole what s = .ok a) ∨ p.whole what s = .error (.unreadable what s .noReading) := by
  unfold whole
  split
  · exact .inl ⟨_, rfl⟩
  · exact .inr rfl
  next hbroken => exact absurd hbroken (hp _ _)

end Reader

namespace Statement

open Fallible

theorem parse_eq_ok_iff {s : String} {loc : Option Loc} {st : Statement} :
    Statement.parse s loc = .ok st ↔ ∃ f, Form.Denotes s f ∧ st = f.statement.withLoc loc := by
  simp only [Statement.parse, bind_eq_ok, pure_eq_ok, Reader.whole_eq_ok_iff, Form.denotes_iff]
  constructor
  · rintro ⟨_, hread, rfl⟩
    obtain ⟨ts, hts, f, hf, rfl⟩ := Reader.finds_statement _ _ _ hread
    rw [List.append_nil] at hts
    exact ⟨f, hts ▸ hf, rfl⟩
  · rintro ⟨f, hf, rfl⟩
    exact ⟨f.statement, hf.read, rfl⟩

theorem parse_cases (s : String) (loc : Option Loc) :
    (∃ st, Statement.parse s loc = .ok st) ∨
      Statement.parse s loc = .error (.unreadable .statement s .noReading) := by
  rcases Reader.unbroken_statement.whole_cases .statement s with ⟨st, hst⟩ | hrefused
  · exact .inl ⟨st.withLoc loc, bind_eq_ok.2 ⟨st, hst, rfl⟩⟩
  · exact .inr (bind_eq_error.2 (.inl hrefused))

/-- A text is of one form at most, with one reading. It is read exactly if it is of a form, and then as the
statement of the form, at the given place; any other text is refused for having no reading. -/
theorem one_reading (s : String) (loc : Option Loc) :
    (∀ f g, Form.Denotes s f → Form.Denotes s g → f = g) ∧
    (∀ st, Statement.parse s loc = .ok st ↔ ∃ f, Form.Denotes s f ∧ st = f.statement.withLoc loc) ∧
    (Statement.parse s loc = .error (.unreadable .statement s .noReading) ↔ ¬ ∃ f, Form.Denotes s f) := by
  refine ⟨fun f g hf hg => ?_, fun st => parse_eq_ok_iff, ?_⟩
  · exact (Form.denotes_iff.1 hf).unique (Form.denotes_iff.1 hg)
  · constructor
    · rintro hrefused ⟨f, hf⟩
      rw [parse_eq_ok_iff.2 ⟨f, hf, rfl⟩] at hrefused
      cases hrefused
    · intro hnone
      rcases parse_cases s loc with ⟨st, hst⟩ | hrefused
      · obtain ⟨f, hf, -⟩ := parse_eq_ok_iff.1 hst
        exact absurd ⟨f, hf⟩ hnone
      · exact hrefused

namespace New

/-! Statements in which every name is the keyword. -/

def listed : Form := .instantiation "new" "new" [(some "new", .const (-2)), (none, .param "new")]

def triggered : Form := .invocation { name := "new", target := "new", times := [⟨"new", 0⟩], inputs := some [] }

def wired : Form := .connection { dest := ⟨some "new", "new"⟩, src := ⟨none, "new"⟩ }

theorem denotes_listed : Form.Denotes "new:=new new[new=-2,new]" listed := by
  have hscan : scan "new:=new new[new=-2,new]".toList =
      [.word "new", .mark .define, .word "new", .word "new", .mark .openBracket, .word "new", .mark .becomes,
        .mark .minus, .number 2, .mark .comma, .word "new", .mark .closeBracket] := by decide +kernel
  rw [Form.denotes_iff, hscan]
  have hnegative : Expr.Derives .sum [.mark .minus, .number 2] (.const (-2)) :=
    .product (.signed (.negative (.primary (.number 2))))
  have hword : Expr.Derives .sum [.word "new"] (.param "new") := .product (.signed (.primary (.word "new")))
  exact .instantiation (.listed "new" "new" (.cons (.named "new" hnegative) (.cons (.positional hword) .nil)))

theorem denotes_triggered : Form.Denotes "new := new<'new - 0>()" triggered := by
  have hscan : scan "new := new<'new - 0>()".toList =
      [.word "new", .mark .define, .word "new", .mark .less, .event "new", .mark .minus, .number 0,
        .mark .greater, .mark .openParen, .mark .closeParen] := by decide +kernel
  rw [Form.denotes_iff, hscan]
  exact .invocation (.triggers "new" "new" (by simp) (.cons (.earlier "new" 0) .nil) (.listed .nil))

theorem denotes_wired : Form.Denotes "new.new =\tnew" wired := by
  have hscan : scan "new.new =\tnew".toList =
      [.word "new", .mark .dot, .word "new", .mark .becomes, .word "new"] := by decide +kernel
  rw [Form.denotes_iff, hscan]
  exact .connection (.wires (.called "new" "new") (.own "new"))

end New

/-- The keyword may stand for each name, and still each text has its one form. With letters right behind it, it is
part of another name. -/
theorem one_reading_new :
    (∀ f, Form.Denotes "new:=new new[new=-2,new]" f → f = New.listed) ∧
    Statement.parse "new:=new new[new=-2,new]" none = .ok New.listed.statement ∧
    (∀ f, Form.Denotes "new := new<'new - 0>()" f → f = New.triggered) ∧
    Statement.parse "new := new<'new - 0>()" none = .ok New.triggered.statement ∧
    (∀ f, Form.Denotes "new.new =\tnew" f → f = New.wired) ∧
    Statement.parse "new.new =\tnew" none = .ok New.wired.statement ∧
    ¬ ∃ f, Form.Denotes "new := newnew" f := by
  obtain ⟨hlisted, hlisted', -⟩ := one_reading "new:=new new[new=-2,new]" none
  obtain ⟨htriggered, htriggered', -⟩ := one_reading "new := new<'new - 0>()" none
  obtain ⟨hwired, hwired', -⟩ := one_reading "new.new =\tnew" none
  obtain ⟨-, hjoined, -⟩ := one_reading "new := newnew" none
  refine ⟨fun f hf => hlisted f _ hf New.denotes_listed, (hlisted' _).2 ⟨_, New.denotes_listed, rfl⟩,
    fun f hf => htriggered f _ hf New.denotes_triggered, (htriggered' _).2 ⟨_, New.denotes_triggered, rfl⟩,
    fun f hf => hwired f _ hf New.denotes_wired, (hwired' _).2 ⟨_, New.denotes_wired, rfl⟩, ?_⟩
  rintro ⟨f, hf⟩
  have hnone : (Statement.parse "new := newnew" none).toOption = none := by decide +kernel
  rw [(hjoined _).2 ⟨f, hf, rfl⟩] at hnone
  cases hnone

end Statement

end Chronogram
