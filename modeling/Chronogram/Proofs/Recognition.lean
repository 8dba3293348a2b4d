import Chronogram.Proofs.Printing

/-! Recognition: a text is read as an expression exactly if it spells tokens that the grammar derives.
Spelling is stated without the scanner: each token takes as many characters as it can, and white space
may stand between tokens. The scanner finds the one way to spell a text, and the readers, which go
from left to right, find the one derivation. -/

namespace Chronogram

namespace Token

variable {c d : Char} {cs rest : List Char} {t : Token} {ts : List Token}

/-- The characters are a token that expressions are made of. -/
inductive Lexeme : List Char → Token → Prop
  | number {c : Char} {cs : List Char} (hc : isDigit c = true) (hcs : ∀ d ∈ cs, isDigit d = true) :
    Lexeme (c :: cs) (number (numeral (c :: cs)))
  | word {c : Char} {cs : List Char} (hc : isLetter c = true) (hcs : ∀ d ∈ cs, isNameChar d = true) :
    Lexeme (c :: cs) (word (String.ofList (c :: cs)))
  | event {c : Char} {cs : List Char} (hc : isLetter c = true) (hcs : ∀ d ∈ cs, isNameChar d = true) :
    Lexeme ('\'' :: c :: cs) (event (String.ofList (c :: cs)))
  | plus : Lexeme ['+'] (mark .plus)
  | minus : Lexeme ['-'] (mark .minus)
  | star : Lexeme ['*'] (mark .star)
  | openParen : Lexeme ['('] (mark .openParen)
  | closeParen : Lexeme [')'] (mark .closeParen)

/-- The characters are the tokens, each of them as long as it can be, with white space around them. -/
inductive Spells : List Char → List Token → Prop
  | done : Spells [] []
  | space {c : Char} {cs : List Char} {ts : List Token} (hc : isSpace c = true) (h : Spells cs ts) :
    Spells (c :: cs) ts
  | token {cs rest : List Char} {t : Token} {ts : List Token} (ht : Lexeme cs t)
      (longest : ∀ more tail u, rest = more ++ tail → Lexeme (cs ++ more) u → more = [])
      (h : Spells rest ts) :
    Spells (cs ++ rest) (t :: ts)

/-- A token that starts with `c` may go on with `d`. -/
def continues (c d : Char) : Bool :=
  if isDigit c then isDigit d else (isLetter c || c == '\'') && isNameChar d

theorem continues_of_isLetter (hc : isLetter c = true) : continues c d = isNameChar d := by
  simp [continues, isDigit_of_isLetter hc, hc]

theorem continues_quote : continues '\'' d = isNameChar d := by
  have hquote : isDigit '\'' = false := by decide
  simp [continues, hquote]

theorem continues_of_mark (hc : isDigit c = false ∧ isLetter c = false ∧ c ≠ '\'') :
    continues c d = false := by
  simp [continues, hc]

theorem Lexeme.continues (h : Lexeme (c :: cs) t) : ∀ d ∈ cs, continues c d = true := by
  intro d hd
  cases h with
  | number hc hcs => simpa [Token.continues, hc] using hcs d hd
  | word hc hcs =>
    rw [continues_of_isLetter hc]
    exact hcs d hd
  | event hc hcs =>
    rw [continues_quote]
    rcases List.mem_cons.1 hd with rfl | hd
    · simp [isNameChar, hc]
    · exact hcs d hd
  | _ => simp at hd

theorem Lexeme.extend (h : Lexeme (c :: cs) t) (hd : Token.continues c d = true) :
    ∃ u, Lexeme (c :: cs ++ [d]) u := by
  have hsnoc : ∀ {p : Char → Bool} {cs : List Char}, (∀ x ∈ cs, p x = true) → p d = true →
      ∀ x ∈ cs ++ [d], p x = true := by
    intro p cs hcs hpd x hx
    rcases List.mem_append.1 hx with hx | hx
    · exact hcs x hx
    · exact List.mem_singleton.1 hx ▸ hpd
  cases h with
  | number hc hcs => exact ⟨_, .number hc (hsnoc hcs (by simpa [Token.continues, hc] using hd))⟩
  | word hc hcs => exact ⟨_, .word hc (hsnoc hcs (by rwa [continues_of_isLetter hc] at hd))⟩
  | event hc hcs => exact ⟨_, .event hc (hsnoc hcs (by rwa [continues_quote] at hd))⟩
  | _ =>
    rw [continues_of_mark (by decide)] at hd
    cases hd

/-- A token is as long as it can be exactly if the next character does not go on with it. -/
theorem Lexeme.longest_iff (h : Lexeme (c :: cs) t) :
    (∀ more tail u, rest = more ++ tail → Lexeme (c :: cs ++ more) u → more = []) ↔
      ∀ d ∈ rest.head?, Token.continues c d = false := by
  constructor
  · intro hlongest d hd
    obtain ⟨tail, rfl⟩ := List.head?_eq_some_iff.1 hd
    by_contra hcont
    obtain ⟨u, hu⟩ := h.extend (by simpa using hcont)
    exact absurd (hlongest [d] tail u rfl hu) (by simp)
  · intro hnext more tail u hrest hu
    cases more with
    | nil => rfl
    | cons d more =>
      have hd := Lexeme.continues hu d (by simp)
      rw [hnext d (by simp [hrest])] at hd
      cases hd

theorem Lexeme.exists_cons (h : Lexeme cs t) : ∃ c us, cs = c :: us ∧ isSpace c = false := by
  cases h with
  | number hc _ => exact ⟨_, _, rfl, isSpace_of_isNameChar (by simp [isNameChar, hc])⟩
  | word hc _ => exact ⟨_, _, rfl, isSpace_of_isNameChar (by simp [isNameChar, hc])⟩
  | _ => exact ⟨_, _, rfl, by decide⟩

/-- A token that is as long as it can be is what the scanner finds. -/
theorem Lexeme.scan (h : Lexeme (c :: cs) t) (hrest : ∀ d ∈ rest.head?, Token.continues c d = false) :
    scan (c :: cs ++ rest) = t :: scan rest := by
  have hname : ∀ {c cs}, isLetter c = true → (∀ d ∈ cs, isNameChar d = true) →
      isName (String.ofList (c :: cs)) = true := by
    intro c cs hc hcs
    simpa [isName, hc] using hcs
  cases h with
  | number hc hcs => exact scan_digits hc hcs fun d hd => by simpa [Token.continues, hc] using hrest d hd
  | word hc hcs =>
    have hends : Ends rest := fun d hd => by rw [← continues_of_isLetter hc, hrest d hd]
    have hscan := scan_word (hname hc hcs) hends
    rwa [String.toList_ofList] at hscan
  | event hc hcs =>
    have hends : Ends rest := fun d hd => by rw [← continues_quote, hrest d hd]
    have hscan := scan_event (hname hc hcs) hends
    rwa [String.toList_ofList] at hscan
  | _ => exact scan_mark (by decide) fun _ => rfl

theorem Spells.scan_eq (h : Spells cs ts) : scan cs = ts := by
  induction h with
  | done => rw [scan]
  | space hc _ ih => rw [scan, if_pos hc, ih]
  | token ht longest _ ih =>
    obtain ⟨c, us, rfl, -⟩ := ht.exists_cons
    rw [ht.scan (ht.longest_iff.1 longest), ih]

def isArithmetic : Token → Bool
  | number _ | word _ | event _ => true
  | mark m => m ∈ [.plus, .minus, .star, .openParen, .closeParen]
  | stray _ => false

theorem eq_false_of_head? {p : Char → Bool} (h : d ∈ (cs.dropWhile p).head?) : p d = false := by
  have hnot := List.head?_dropWhile_not p cs
  rwa [h] at hnot

theorem exists_lexeme_of_punctuation (h : (punctuation c cs).1.isArithmetic = true) :
    ∃ us, cs = us ++ (punctuation c cs).2 ∧ Lexeme (c :: us) (punctuation c cs).1 ∧
      ∀ d ∈ (punctuation c cs).2.head?, continues c d = false := by
  have hmark : ∀ {m : Mark}, Lexeme [c] (mark m) →
      (isDigit c = false ∧ isLetter c = false ∧ c ≠ '\'') →
      ∃ us, cs = us ++ cs ∧ Lexeme (c :: us) (mark m) ∧ ∀ d ∈ cs.head?, continues c d = false :=
    fun hm hc => ⟨[], rfl, hm, fun _ _ => continues_of_mark hc⟩
  revert h
  unfold punctuation
  split
  case h_9 => exact fun _ => hmark .plus (by decide)
  case h_10 => exact fun _ => hmark .minus (by decide)
  case h_11 => exact fun _ => hmark .star (by decide)
  case h_12 => exact fun _ => hmark .openParen (by decide)
  case h_13 => exact fun _ => hmark .closeParen (by decide)
  case h_19 d ds =>
    split
    next hd =>
      refine fun _ => ⟨d :: ds.takeWhile isNameChar, ?_, .event hd ?_, fun x hx => ?_⟩
      · rw [List.cons_append, List.takeWhile_append_dropWhile]
      · exact fun x hx => List.mem_takeWhile_imp hx
      · rw [continues_quote]
        exact eq_false_of_head? hx
    · intro h
      cases h
  all_goals
    intro h
    cases h

theorem lexeme_digits (hc : isDigit c = true) (cs : List Char) :
    Lexeme (c :: cs.takeWhile isDigit) (number (numeral (c :: cs.takeWhile isDigit))) ∧
      ∀ d ∈ (cs.dropWhile isDigit).head?, continues c d = false := by
  refine ⟨.number hc fun d hd => List.mem_takeWhile_imp hd, fun d hd => ?_⟩
  simpa [continues, hc] using eq_false_of_head? hd

theorem lexeme_word (hc : isLetter c = true) (cs : List Char) :
    Lexeme (c :: cs.takeWhile isNameChar) (word (String.ofList (c :: cs.takeWhile isNameChar))) ∧
      ∀ d ∈ (cs.dropWhile isNameChar).head?, continues c d = false := by
  refine ⟨.word hc fun d hd => List.mem_takeWhile_imp hd, fun d hd => ?_⟩
  rw [continues_of_isLetter hc]
  exact eq_false_of_head? hd

/-- Where the scanner finds nothing but tokens of expressions, they are spelled by the text. -/
theorem spells_scan (cs : List Char) (h : ∀ t ∈ scan cs, t.isArithmetic = true) :
    Spells cs (scan cs) := by
  fun_induction scan cs with
  | case1 => exact .done
  | case2 c cs hc ih => exact .space hc (ih h)
  | case3 c cs hspace hc ih =>
    obtain ⟨ht, hnext⟩ := lexeme_digits hc cs
    have hspells := Spells.token ht (ht.longest_iff.2 hnext) (ih (List.forall_mem_cons.1 h).2)
    rwa [List.cons_append, List.takeWhile_append_dropWhile] at hspells
  | case4 c cs hspace hdigit hc ih =>
    obtain ⟨ht, hnext⟩ := lexeme_word hc cs
    have hspells := Spells.token ht (ht.longest_iff.2 hnext) (ih (List.forall_mem_cons.1 h).2)
    rwa [List.cons_append, List.takeWhile_append_dropWhile] at hspells
  | case5 c cs hspace hdigit hletter ih =>
    obtain ⟨hfirst, hothers⟩ := List.forall_mem_cons.1 h
    obtain ⟨us, hus, ht, hnext⟩ := exists_lexeme_of_punctuation hfirst
    have hspells := Spells.token ht (ht.longest_iff.2 hnext) (ih hothers)
    rwa [List.cons_append, ← hus] at hspells

end Token

namespace Expr

variable {ts : List Token} {e : Expr}

theorem Derives.isArithmetic {level : Level} (h : Derives level ts e) :
    ∀ t ∈ ts, t.isArithmetic = true := by
  induction h with
  | product _ ih | signed _ ih | primary _ ih => exact ih
  | plus _ _ ih ih' | minus _ _ ih ih' | times _ _ ih ih' =>
    simp only [List.forall_mem_append, List.forall_mem_cons]
    exact ⟨ih, rfl, ih'⟩
  | negative _ ih => exact List.forall_mem_cons.2 ⟨rfl, ih⟩
  | number _ | event _ | word _ => simp [Token.isArithmetic]
  | parens _ ih =>
    simp only [List.forall_mem_append, List.forall_mem_cons]
    exact ⟨⟨rfl, ih⟩, rfl, by simp⟩

theorem Derives.ne_nil {level : Level} (h : Derives level ts e) : ts ≠ [] := by
  induction h with
  | product _ ih | signed _ ih | primary _ ih => exact ih
  | _ => simp

/-- What a reader takes from the front of the tokens is a phrase of its kind. -/
def Level.Finds (level : Level) (ts : List Token) (r : Option (Expr × List Token)) : Prop :=
  ∀ e rest, r = some (e, rest) → ∃ used, ts = used ++ rest ∧ Derives level used e

/-- A phrase together with what is read behind it is a phrase of the same kind. -/
def Level.Grows (level : Level) (more : Expr → List Token → Expr × List Token) : Prop :=
  ∀ used e ts, Derives level used e →
    ∃ further, ts = further ++ (more e ts).2 ∧ Derives level (used ++ further) (more e ts).1

theorem Level.Finds.map {level : Level} {r : Option (Expr × List Token)}
    {more : Expr → List Token → Expr × List Token} (hr : level.Finds ts r) (hmore : level.Grows more) :
    level.Finds ts (r.map fun p => more p.1 p.2) := by
  intro e rest hread
  obtain ⟨⟨f, rest'⟩, hf, heq⟩ := Option.map_eq_some_iff.1 hread
  obtain ⟨used, rfl, hused⟩ := hr _ _ hf
  obtain ⟨further, hrest, hall⟩ := hmore _ _ rest' hused
  dsimp only at heq
  rw [heq] at hrest hall
  exact ⟨used ++ further, by rw [List.append_assoc, ← hrest], hall⟩

theorem Level.Grows.operand {level : Level} {more : Expr → List Token → Expr × List Token}
    (hmore : level.Grows more) {sign : Token} {used operand rest : List Token}
    (h : Derives level (used ++ sign :: operand) e) :
    ∃ further, sign :: (operand ++ rest) = further ++ (more e rest).2 ∧
      Derives level (used ++ further) (more e rest).1 := by
  obtain ⟨further, hrest, hall⟩ := hmore _ _ rest h
  refine ⟨sign :: operand ++ further, ?_, ?_⟩
  · rw [List.append_assoc, ← hrest, List.cons_append]
  · rwa [List.append_assoc] at hall

/-- All readers that go down to one depth of nesting find phrases. -/
structure SoundAt (fuel : Nat) : Prop where
  primary : ∀ ts, Level.primary.Finds ts (readPrimary fuel ts)
  signed : ∀ ts, Level.signed.Finds ts (readSigned fuel ts)
  product : ∀ ts, Level.product.Finds ts (readProduct fuel ts)
  factors : Level.product.Grows (moreFactors fuel)
  sum : ∀ ts, Level.sum.Finds ts (readSum fuel ts)
  summands : Level.sum.Grows (moreSummands fuel)

theorem Derives.stays {level : Level} (h : Derives level ts e) (us : List Token) :
    ∃ further, us = further ++ us ∧ Derives level (ts ++ further) e :=
  ⟨[], rfl, by rwa [List.append_nil]⟩

theorem soundAt_zero : SoundAt 0 where
  primary _ _ _ h := by simp [readPrimary] at h
  signed _ _ _ h := by simp [readSigned] at h
  product _ _ _ h := by simp [readProduct] at h
  factors _ _ ts h := by
    simp only [moreFactors]
    exact h.stays ts
  sum _ _ _ h := by simp [readSum] at h
  summands _ _ ts h := by
    simp only [moreSummands]
    exact h.stays ts

namespace SoundAt

variable {fuel : Nat} (h : SoundAt fuel)

include h

theorem readPrimary_succ (ts : List Token) : Level.primary.Finds ts (readPrimary (fuel + 1) ts) := by
  intro e rest hread
  unfold readPrimary at hread
  split at hread
  · cases hread
  next n ts _ =>
    cases hread
    exact ⟨[.number n], rfl, .number n⟩
  next name ts _ =>
    cases hread
    exact ⟨[.event name], rfl, .event name⟩
  next name ts _ =>
    cases hread
    exact ⟨[.word name], rfl, .word name⟩
  next hfuel =>
    cases hfuel
    split at hread
    next hr =>
      cases hread
      obtain ⟨used, rfl, hused⟩ := h.sum _ _ _ hr
      exact ⟨.mark .openParen :: used ++ [.mark .closeParen], by simp, .parens hused⟩
    · cases hread
  · cases hread

theorem readSigned_succ (ts : List Token) : Level.signed.Finds ts (readSigned (fuel + 1) ts) := by
  intro e rest hread
  unfold readSigned at hread
  split at hread
  · cases hread
  next hfuel =>
    cases hfuel
    obtain ⟨⟨f, rest'⟩, hr, heq⟩ := Option.map_eq_some_iff.1 hread
    cases heq
    obtain ⟨used, rfl, hused⟩ := h.signed _ _ _ hr
    exact ⟨.mark .minus :: used, rfl, .negative hused⟩
  next hfuel _ =>
    cases hfuel
    obtain ⟨used, hts, hused⟩ := h.primary _ _ _ hread
    exact ⟨used, hts, .primary hused⟩

theorem moreFactors_succ : Level.product.Grows (moreFactors (fuel + 1)) := by
  intro used e ts hused
  unfold moreFactors
  split
  next hfuel =>
    cases hfuel
    split
    next hr =>
      obtain ⟨factor, rfl, hfactor⟩ := h.signed _ _ _ hr
      exact h.factors.operand (.times hused hfactor)
    · exact hused.stays _
  · exact hused.stays _

theorem moreSummands_succ : Level.sum.Grows (moreSummands (fuel + 1)) := by
  intro used e ts hused
  unfold moreSummands
  split
  next hfuel =>
    cases hfuel
    split
    next hr =>
      obtain ⟨summand, rfl, hsummand⟩ := h.product _ _ _ hr
      exact h.summands.operand (.plus hused hsummand)
    · exact hused.stays _
  next hfuel =>
    cases hfuel
    split
    next hr =>
      obtain ⟨summand, rfl, hsummand⟩ := h.product _ _ _ hr
      exact h.summands.operand (.minus hused hsummand)
    · exact hused.stays _
  · exact hused.stays _

theorem succ : SoundAt (fuel + 1) where
  primary := h.readPrimary_succ
  signed := h.readSigned_succ
  product ts := by
    intro e rest hread
    unfold readProduct at hread
    have hfirst : Level.product.Finds ts (readSigned fuel ts) := fun e rest hr => by
      obtain ⟨used, hts, hused⟩ := h.signed ts e rest hr
      exact ⟨used, hts, .signed hused⟩
    exact hfirst.map h.factors e rest hread
  factors := h.moreFactors_succ
  sum ts := by
    intro e rest hread
    unfold readSum at hread
    have hfirst : Level.sum.Finds ts (readProduct fuel ts) := fun e rest hr => by
      obtain ⟨used, hts, hused⟩ := h.product ts e rest hr
      exact ⟨used, hts, .product hused⟩
    exact hfirst.map h.summands e rest hread
  summands := h.moreSummands_succ

end SoundAt

/-- The readers call each other with less depth, so the depth is what the induction is on. -/
theorem soundAt (fuel : Nat) : SoundAt fuel := by
  induction fuel with
  | zero => exact soundAt_zero
  | succ _ ih => exact ih.succ

/-- Tokens are read to their end exactly if they are derived. -/
theorem read_eq_some_iff : read ts = some (e, []) ↔ Derives .sum ts e := by
  constructor
  · intro h
    obtain ⟨used, rfl, hused⟩ := (soundAt _).sum ts e [] h
    rwa [List.append_nil]
  · exact Derives.read

/-- The text spells tokens that are derived as a sum. -/
def Denotes (s : String) (e : Expr) : Prop := ∃ ts, Token.Spells s.toList ts ∧ Derives .sum ts e

theorem denotes_iff {s : String} : Denotes s e ↔ Derives .sum (Token.scan s.toList) e := by
  constructor
  · rintro ⟨ts, hspells, hderives⟩
    rwa [hspells.scan_eq]
  · intro h
    exact ⟨_, Token.spells_scan _ h.isArithmetic, h⟩

theorem parse_eq_ok_iff {s : String} : Expr.parse s = .ok e ↔ Denotes s e := by
  rw [denotes_iff, ← read_eq_some_iff, Expr.parse, Reader.whole, Reader.expr]
  cases hread : read (Token.scan s.toList) with
  | none => simp
  | some r =>
    obtain ⟨f, rest⟩ := r
    cases rest with
    | nil => simp
    | cons t rest => simp

theorem parse_cases (s : String) :
    (∃ e, Expr.parse s = .ok e) ∨ Expr.parse s = .error (.unreadable .expression s .noReading) := by
  rw [Expr.parse, Reader.whole, Reader.expr]
  split
  next f _ => exact .inl ⟨f, rfl⟩
  · exact .inr rfl
  next hf => cases hf

/-- Texts are read as the grammar says: a text gives the expression that it denotes, a text that denotes
none is refused as unreadable, and no text denotes two. -/
theorem exact_recognition (s : String) :
    (∀ e, Expr.parse s = .ok e ↔ Denotes s e) ∧
    (Expr.parse s = .error (.unreadable .expression s .noReading) ↔ ¬ ∃ e, Denotes s e) ∧
    ∀ e f, Denotes s e → Denotes s f → e = f := by
  refine ⟨fun e => parse_eq_ok_iff, ?_, fun e f he hf => ?_⟩
  · constructor
    · rintro hrefused ⟨e, he⟩
      rw [parse_eq_ok_iff.2 he] at hrefused
      cases hrefused
    · intro hnone
      rcases parse_cases s with ⟨e, he⟩ | hrefused
      · exact absurd ⟨e, parse_eq_ok_iff.1 he⟩ hnone
      · exact hrefused
  · rw [← parse_eq_ok_iff] at he hf
    rw [he] at hf
    exact Except.ok.inj hf

def signed : Expr := sub (mul (const 2) (sub (const 0) (event "G"))) (const 3)

/-- Signs in front of a number fold into it, also through parentheses, and those in front of an event do
not; two operands with nothing between them are no expression. -/
theorem exact_recognition_signed :
    Denotes "--(2)*-'G\t- 3" signed ∧ (∀ f, Denotes "--(2)*-'G\t- 3" f → f = signed) ∧
      ¬ ∃ e, Denotes "2 'G" e := by
  obtain ⟨hread, -, hunique⟩ := exact_recognition "--(2)*-'G\t- 3"
  obtain ⟨hread', -, -⟩ := exact_recognition "2 'G"
  have hsigned : Denotes "--(2)*-'G\t- 3" signed :=
    (hread signed).1 (Fallible.toOption_eq_some.1 (by decide +kernel))
  refine ⟨hsigned, fun f hf => hunique f signed hf hsigned, ?_⟩
  rintro ⟨e, he⟩
  have hnone : (Expr.parse "2 'G").toOption = none := by decide +kernel
  rw [(hread' e).2 he] at hnone
  cases hnone

end Expr

end Chronogram
