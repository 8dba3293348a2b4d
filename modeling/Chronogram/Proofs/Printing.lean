import Chronogram.Proofs.Derivation
import Chronogram.Proofs.Grammar

/-! Expressions and their texts. The text of an expression has parentheses only where a sum stands
inside a product or behind a minus, so a text may belong to several trees, which differ in how sums
and products are grouped. It is read as the one that groups to the left. -/

namespace Chronogram

namespace Token

variable {rest : List Char}

/-- No name or numeral goes on in what follows. -/
def Ends (rest : List Char) : Prop := ∀ c ∈ rest.head?, isNameChar c = false

theorem ends_nil : Ends [] := by simp [Ends]

theorem ends_cons {c : Char} (h : isNameChar c = false) : Ends (c :: rest) := by simp [Ends, h]

theorem span_of_head {p : Char → Bool} {cs : List Char} (hcs : ∀ c ∈ cs, p c = true)
    (hrest : ∀ c ∈ rest.head?, p c = false) :
    (cs ++ rest).takeWhile p = cs ∧ (cs ++ rest).dropWhile p = rest := by
  rw [List.takeWhile_append_of_pos hcs, List.dropWhile_append_of_pos hcs]
  cases rest with
  | nil => simp
  | cons c rest => simpa using hrest c

theorem isSpace_of_isNameChar {c : Char} (h : isNameChar c = true) : isSpace c = false := by
  by_contra hspace
  simp only [isSpace, Bool.not_eq_false, Bool.or_eq_true, beq_iff_eq] at hspace
  rcases hspace with ((rfl | rfl) | rfl) | rfl
  all_goals exact absurd h (by decide)

theorem isDigit_of_isLetter {c : Char} (h : isLetter c = true) : isDigit c = false := by
  have hle : ∀ a b : Char, a ≤ b ↔ a.toNat ≤ b.toNat := fun _ _ => UInt32.le_iff_toNat_le
  simp only [isLetter, Bool.or_eq_true, Bool.and_eq_true, decide_eq_true_eq, beq_iff_eq, hle,
    Char.reduceToNat] at h
  simp only [isDigit, Bool.and_eq_false_iff, decide_eq_false_iff_not, hle, Char.reduceToNat]
  rcases h with (h | h) | rfl
  · omega
  · omega
  · decide

theorem exists_of_isName {w : String} (h : isName w = true) :
    ∃ c cs, w = String.ofList (c :: cs) ∧ isLetter c = true ∧ ∀ d ∈ cs, isNameChar d = true := by
  rw [← String.ofList_toList (s := w)] at h ⊢
  unfold isName at h
  rw [String.toList_ofList] at h
  cases hw : w.toList with
  | nil => simp [hw] at h
  | cons c cs =>
    simp only [hw, Bool.and_eq_true, List.all_eq_true] at h
    exact ⟨c, cs, rfl, h.1, h.2⟩

theorem scan_word {w : String} (hw : isName w = true) (hrest : Ends rest) :
    scan (w.toList ++ rest) = word w :: scan rest := by
  obtain ⟨c, cs, rfl, hc, hcs⟩ := exists_of_isName hw
  obtain ⟨htake, hdrop⟩ := span_of_head hcs hrest
  have hspace : isSpace c = false := isSpace_of_isNameChar (by simp [isNameChar, hc])
  rw [String.toList_ofList, List.cons_append, scan, htake, hdrop]
  simp [hspace, isDigit_of_isLetter hc, hc]

theorem scan_event {x : String} (hx : isName x = true) (hrest : Ends rest) :
    scan ('\'' :: (x.toList ++ rest)) = event x :: scan rest := by
  obtain ⟨c, cs, rfl, hc, hcs⟩ := exists_of_isName hx
  obtain ⟨htake, hdrop⟩ := span_of_head hcs hrest
  have hquote : punctuation '\'' (c :: (cs ++ rest)) = (event (String.ofList (c :: cs)), rest) := by
    simp [punctuation, hc, htake, hdrop]
  rw [String.toList_ofList, List.cons_append, scan, hquote]
  simp [show isSpace '\'' = false ∧ isDigit '\'' = false ∧ isLetter '\'' = false by decide]

theorem scan_digits {c : Char} {cs : List Char} (hc : isDigit c = true) (hcs : ∀ d ∈ cs, isDigit d = true)
    (hrest : ∀ d ∈ rest.head?, isDigit d = false) :
    scan (c :: cs ++ rest) = number (numeral (c :: cs)) :: scan rest := by
  obtain ⟨htake, hdrop⟩ := span_of_head hcs hrest
  have hspace : isSpace c = false := isSpace_of_isNameChar (by simp [isNameChar, hc])
  rw [List.cons_append, scan, htake, hdrop]
  simp [hspace, hc]

theorem scan_numeral (n : Nat) (hrest : Ends rest) :
    scan (n.repr.toList ++ rest) = number n :: scan rest := by
  rw [Nat.repr_eq_ofList_toDigits, String.toList_ofList]
  have hdigits : ∀ c ∈ Nat.toDigits 10 n, isDigit c = true := fun c hc => by
    have := Nat.isDigit_of_mem_toDigits (by decide) (by decide) hc
    simpa [Char.isDigit, isDigit, Char.le_def] using this
  have hvalue : numeral (Nat.toDigits 10 n) = n := Nat.ofDigitChars_ten_toDigits
  generalize hcs : Nat.toDigits 10 n = cs at hdigits hvalue
  cases cs with
  | nil => exact absurd hcs Nat.toDigits_ne_nil
  | cons c cs =>
    rw [List.forall_mem_cons] at hdigits
    have hends : ∀ c ∈ rest.head?, isDigit c = false := fun c hc => by
      have := hrest c hc
      simp_all [isNameChar]
    rw [scan_digits hdigits.1 hdigits.2 hends, hvalue]

theorem scan_mark {c : Char} {m : Mark} (hc : isSpace c = false ∧ isDigit c = false ∧ isLetter c = false)
    (hm : ∀ cs, punctuation c cs = (mark m, cs)) : scan (c :: rest) = mark m :: scan rest := by
  obtain ⟨hspace, hdigit, hletter⟩ := hc
  rw [scan, hm]
  simp [hspace, hdigit, hletter]

theorem scan_space : scan (' ' :: rest) = scan rest := by
  rw [scan]
  simp [isSpace]

def ofInt : Int → List Token
  | .ofNat n => [number n]
  | .negSucc n => [mark .minus, number (n + 1)]

theorem scan_int (n : Int) (hrest : Ends rest) :
    scan ((toString n).toList ++ rest) = ofInt n ++ scan rest := by
  rw [Int.toString_eq_repr]
  cases n with
  | ofNat n => exact scan_numeral n hrest
  | negSucc n =>
    rw [Int.repr, String.toList_append, List.append_assoc]
    exact (scan_mark (by decide) fun _ => rfl).trans (congrArg _ (scan_numeral (n + 1) hrest))

def enclosed (wanted : Bool) (ts : List Token) : List Token :=
  if wanted then mark .openParen :: ts ++ [mark .closeParen] else ts

end Token

namespace Expr

variable {e l r : Expr}

def tokens : Expr → List Token
  | const n => Token.ofInt n
  | param p => [.word p]
  | event x => [.event x]
  | add l r => l.tokens ++ .mark .plus :: r.tokens
  | sub l r => l.tokens ++ .mark .minus :: Token.enclosed r.isSum r.tokens
  | mul l r => Token.enclosed l.isSum l.tokens ++ .mark .star :: Token.enclosed r.isSum r.tokens

def operandText (e : Expr) : String := if e.isSum then "(" ++ e.text ++ ")" else e.text

theorem scan_operand
    (h : ∀ {rest}, Token.Ends rest → Token.scan (e.text.toList ++ rest) = e.tokens ++ Token.scan rest)
    {rest : List Char} (hrest : Token.Ends rest) :
    Token.scan (e.operandText.toList ++ rest) = Token.enclosed e.isSum e.tokens ++ Token.scan rest := by
  unfold operandText Token.enclosed
  split
  · simp only [String.toList_append, List.append_assoc]
    calc Token.scan ('(' :: (e.text.toList ++ ')' :: rest))
        = .mark .openParen :: Token.scan (e.text.toList ++ ')' :: rest) :=
          Token.scan_mark (by decide) fun _ => rfl
      _ = .mark .openParen :: (e.tokens ++ Token.scan (')' :: rest)) := by
          rw [h (Token.ends_cons (by decide))]
      _ = .mark .openParen :: (e.tokens ++ .mark .closeParen :: Token.scan rest) := by
          rw [Token.scan_mark (by decide) fun _ => rfl]
      _ = _ := by simp
  · exact h hrest

/-- The text of an expression is made of its tokens, and keeps apart from what stands behind it. -/
theorem scan_text (he : e.Plain) {rest : List Char} (hrest : Token.Ends rest) :
    Token.scan (e.text.toList ++ rest) = e.tokens ++ Token.scan rest := by
  induction e generalizing rest with
  | const n => exact Token.scan_int n hrest
  | param p => exact Token.scan_word (he.1 p (by simp [params])) hrest
  | event x =>
    rw [text, String.toList_append, List.append_assoc]
    exact Token.scan_event (he.2 x (by simp [events])) hrest
  | add l r ihl ihr =>
    obtain ⟨hl, hr⟩ := plain_operands he
    simp only [text, String.toList_append, List.append_assoc]
    calc Token.scan (l.text.toList ++ ' ' :: '+' :: ' ' :: (r.text.toList ++ rest))
        = l.tokens ++ Token.scan (' ' :: '+' :: ' ' :: (r.text.toList ++ rest)) :=
          ihl hl (Token.ends_cons (by decide))
      _ = l.tokens ++ .mark .plus :: Token.scan (r.text.toList ++ rest) := by
          rw [Token.scan_space, Token.scan_mark (by decide) fun _ => rfl, Token.scan_space]
      _ = _ := by rw [ihr hr hrest, tokens, List.append_assoc, List.cons_append]
  | sub l r ihl ihr =>
    obtain ⟨hl, hr⟩ := plain_operands he
    simp only [text, String.toList_append, List.append_assoc]
    calc Token.scan (l.text.toList ++ ' ' :: '-' :: ' ' :: (r.operandText.toList ++ rest))
        = l.tokens ++ Token.scan (' ' :: '-' :: ' ' :: (r.operandText.toList ++ rest)) :=
          ihl hl (Token.ends_cons (by decide))
      _ = l.tokens ++ .mark .minus :: Token.scan (r.operandText.toList ++ rest) := by
          rw [Token.scan_space, Token.scan_mark (by decide) fun _ => rfl, Token.scan_space]
      _ = _ := by rw [scan_operand (ihr hr) hrest, tokens, List.append_assoc, List.cons_append]
  | mul l r ihl ihr =>
    obtain ⟨hl, hr⟩ := plain_operands he
    simp only [text, String.toList_append, List.append_assoc]
    calc Token.scan (l.operandText.toList ++ '*' :: (r.operandText.toList ++ rest))
        = Token.enclosed l.isSum l.tokens ++ Token.scan ('*' :: (r.operandText.toList ++ rest)) :=
          scan_operand (ihl hl) (Token.ends_cons (by decide))
      _ = Token.enclosed l.isSum l.tokens ++ .mark .star :: Token.scan (r.operandText.toList ++ rest) := by
          rw [Token.scan_mark (by decide) fun _ => rfl]
      _ = _ := by rw [scan_operand (ihr hr) hrest, tokens, List.append_assoc, List.cons_append]

def isProduct : Expr → Bool
  | mul _ _ => true
  | _ => false

/-- Adds the summands of an expression to another one, first to last. -/
def addOnto (l : Expr) : Expr → Expr
  | add a b => add (addOnto l a) b
  | sub a b => sub (addOnto l a) b
  | e => add l e

/-- Multiplies an expression by the factors of another one, first to last. -/
def mulOnto (l : Expr) : Expr → Expr
  | mul a b => mul (mulOnto l a) b
  | e => mul l e

/-- The expression with its sums and products grouped to the left. -/
def regrouped : Expr → Expr
  | const n => const n
  | param p => param p
  | event x => event x
  | add l r => addOnto l.regrouped r.regrouped
  | sub l r => sub l.regrouped r.regrouped
  | mul l r => mulOnto l.regrouped r.regrouped

theorem addOnto_of_not_isSum (h : e.isSum = false) : addOnto l e = add l e := by
  cases e with
  | add a b => cases h
  | sub a b => cases h
  | _ => rfl

theorem mulOnto_of_not_isProduct (h : e.isProduct = false) : mulOnto l e = mul l e := by
  cases e with
  | mul a b => cases h
  | _ => rfl

theorem addOnto_assoc (l r e : Expr) : addOnto l (addOnto r e) = addOnto (addOnto l r) e := by
  induction e with
  | add a b iha _ => simp only [addOnto, iha]
  | sub a b iha _ => simp only [addOnto, iha]
  | _ => rfl

theorem mulOnto_assoc (l r e : Expr) : mulOnto l (mulOnto r e) = mulOnto (mulOnto l r) e := by
  induction e with
  | mul a b iha _ => simp only [mulOnto, iha]
  | _ => rfl

@[simp] theorem isSum_addOnto (l e : Expr) : (addOnto l e).isSum = true := by
  cases e <;> rfl

@[simp] theorem isProduct_mulOnto (l e : Expr) : (mulOnto l e).isProduct = true := by
  cases e <;> rfl

theorem isProduct_of_isSum (h : e.isSum = true) : e.isProduct = false := by
  cases e with
  | mul a b => cases h
  | _ => rfl

theorem isSum_mulOnto (l e : Expr) : (mulOnto l e).isSum = false := by
  cases e <;> rfl

@[simp] theorem isSum_regrouped (e : Expr) : e.regrouped.isSum = e.isSum := by
  cases e with
  | add l r => exact isSum_addOnto _ _
  | mul l r => exact isSum_mulOnto _ _
  | _ => rfl

@[simp] theorem isProduct_regrouped (e : Expr) : e.regrouped.isProduct = e.isProduct := by
  cases e with
  | add l r => exact isProduct_of_isSum (isSum_addOnto _ _)
  | mul l r => exact isProduct_mulOnto _ _
  | _ => rfl

theorem eval_addOnto (l e : Expr) (ρ : Symbol → Int) : (addOnto l e).eval ρ = l.eval ρ + e.eval ρ := by
  induction e with
  | add a b iha _ => rw [addOnto, eval, iha, eval, Int.add_assoc]
  | sub a b iha _ => rw [addOnto, eval, iha, eval, Int.add_sub_assoc]
  | _ => rfl

theorem eval_mulOnto (l e : Expr) (ρ : Symbol → Int) : (mulOnto l e).eval ρ = l.eval ρ * e.eval ρ := by
  induction e with
  | mul a b iha _ => rw [mulOnto, eval, iha, eval, Int.mul_assoc]
  | _ => rfl

theorem eval_regrouped (e : Expr) (ρ : Symbol → Int) : e.regrouped.eval ρ = e.eval ρ := by
  induction e with
  | add l r ihl ihr => rw [regrouped, eval_addOnto, ihl, ihr, eval]
  | sub l r ihl ihr => rw [regrouped, eval, ihl, ihr, eval]
  | mul l r ihl ihr => rw [regrouped, eval_mulOnto, ihl, ihr, eval]
  | _ => rfl

theorem text_addOnto (l e : Expr) : (addOnto l e).text = l.text ++ " + " ++ e.text := by
  induction e with
  | add a b iha _ => simp only [addOnto, text, iha, String.append_assoc]
  | sub a b iha _ => simp only [addOnto, text, iha, String.append_assoc]
  | _ => rfl

theorem text_mulOnto (l e : Expr) : (mulOnto l e).text = l.operandText ++ "*" ++ e.operandText := by
  induction e with
  | mul a b iha _ =>
    have hl : (mulOnto l a).operandText = (mulOnto l a).text := by simp [operandText, isSum_mulOnto]
    have hr : (mul a b).operandText = a.operandText ++ "*" ++ b.operandText := rfl
    calc (mulOnto l (mul a b)).text = (mulOnto l a).operandText ++ "*" ++ b.operandText := rfl
      _ = l.operandText ++ "*" ++ a.operandText ++ "*" ++ b.operandText := by rw [hl, iha]
      _ = _ := by simp only [hr, String.append_assoc]
  | _ => rfl

/-- The groups cannot be told from the text. -/
theorem text_regrouped (e : Expr) : e.regrouped.text = e.text := by
  induction e with
  | add l r ihl ihr => rw [regrouped, text_addOnto, ihl, ihr, text]
  | sub l r ihl ihr => simp only [regrouped, text, ihl, ihr, isSum_regrouped]
  | mul l r ihl ihr => simp only [regrouped, text_mulOnto, operandText, text, ihl, ihr, isSum_regrouped]
  | _ => rfl

/-- What a sum adds on its right is no sum, and what a product multiplies by is no product. -/
def groupsLeft : Expr → Bool
  | add _ r => !r.isSum
  | mul _ r => !r.isProduct
  | _ => true

def LeftGrouped (e : Expr) : Prop := ∀ t ∈ e.parts, t.groupsLeft = true

instance (e : Expr) : Decidable e.LeftGrouped := inferInstanceAs (Decidable (∀ t ∈ _, _))

theorem leftGrouped_add :
    (add l r).LeftGrouped ↔ r.isSum = false ∧ l.LeftGrouped ∧ r.LeftGrouped := by
  simp [LeftGrouped, parts, groupsLeft, or_imp, forall_and]

theorem leftGrouped_sub : (sub l r).LeftGrouped ↔ l.LeftGrouped ∧ r.LeftGrouped := by
  simp [LeftGrouped, parts, groupsLeft, or_imp, forall_and]

theorem leftGrouped_mul :
    (mul l r).LeftGrouped ↔ r.isProduct = false ∧ l.LeftGrouped ∧ r.LeftGrouped := by
  simp [LeftGrouped, parts, groupsLeft, or_imp, forall_and]

theorem leftGrouped_addOnto (hl : l.LeftGrouped) (he : e.LeftGrouped) : (addOnto l e).LeftGrouped := by
  induction e with
  | add a b iha _ =>
    obtain ⟨hb, ha, hb'⟩ := leftGrouped_add.1 he
    exact leftGrouped_add.2 ⟨hb, iha ha, hb'⟩
  | sub a b iha _ =>
    obtain ⟨ha, hb⟩ := leftGrouped_sub.1 he
    exact leftGrouped_sub.2 ⟨iha ha, hb⟩
  | _ => exact leftGrouped_add.2 ⟨rfl, hl, he⟩

theorem leftGrouped_mulOnto (hl : l.LeftGrouped) (he : e.LeftGrouped) : (mulOnto l e).LeftGrouped := by
  induction e with
  | mul a b iha _ =>
    obtain ⟨hb, ha, hb'⟩ := leftGrouped_mul.1 he
    exact leftGrouped_mul.2 ⟨hb, iha ha, hb'⟩
  | _ => exact leftGrouped_mul.2 ⟨rfl, hl, he⟩

theorem leftGrouped_regrouped (e : Expr) : e.regrouped.LeftGrouped := by
  induction e with
  | add l r ihl ihr => exact leftGrouped_addOnto ihl ihr
  | sub l r ihl ihr => exact leftGrouped_sub.2 ⟨ihl, ihr⟩
  | mul l r ihl ihr => exact leftGrouped_mulOnto ihl ihr
  | _ => simp [LeftGrouped, regrouped, parts, groupsLeft]

/-- Exactly what is grouped to the left already is left as it is. -/
theorem regrouped_eq_self_iff : e.regrouped = e ↔ e.LeftGrouped := by
  constructor
  · intro h
    rw [← h]
    exact leftGrouped_regrouped e
  · intro h
    induction e with
    | add l r ihl ihr =>
      obtain ⟨hr, hl, hr'⟩ := leftGrouped_add.1 h
      rw [regrouped, ihl hl, ihr hr', addOnto_of_not_isSum hr]
    | sub l r ihl ihr =>
      obtain ⟨hl, hr⟩ := leftGrouped_sub.1 h
      rw [regrouped, ihl hl, ihr hr]
    | mul l r ihl ihr =>
      obtain ⟨hr, hl, hr'⟩ := leftGrouped_mul.1 h
      rw [regrouped, ihl hl, ihr hr', mulOnto_of_not_isProduct hr]
    | _ => rfl

/-- The tokens of an expression, alone and behind others, are phrases for its regrouped form. -/
structure Derived (e : Expr) : Prop where
  sum : Derives .sum e.tokens e.regrouped
  product : Derives .product (Token.enclosed e.isSum e.tokens) e.regrouped
  summand : ∀ {ts l}, Derives .sum ts l →
    Derives .sum (ts ++ .mark .plus :: e.tokens) (addOnto l e.regrouped)
  factor : ∀ {ts l}, Derives .product ts l →
    Derives .product (ts ++ .mark .star :: Token.enclosed e.isSum e.tokens) (mulOnto l e.regrouped)

theorem derived_of_signed (h : Derives .signed e.tokens e.regrouped) (hs : e.isSum = false)
    (hp : e.isProduct = false) : e.Derived where
  sum := .product (.signed h)
  product := by
    rw [hs]
    exact .signed h
  summand hl := by
    rw [addOnto_of_not_isSum (by simpa using hs)]
    exact .plus hl (.signed h)
  factor hl := by
    rw [mulOnto_of_not_isProduct (by simpa using hp), hs]
    exact .times hl h

theorem derived_of_sum (h : Derives .sum e.tokens e.regrouped) (hs : e.isSum = true)
    (hsummand : ∀ {ts l}, Derives .sum ts l →
      Derives .sum (ts ++ .mark .plus :: e.tokens) (addOnto l e.regrouped)) : e.Derived where
  sum := h
  product := by
    rw [hs]
    exact .signed (.primary (.parens h))
  summand := hsummand
  factor hl := by
    rw [mulOnto_of_not_isProduct (isProduct_of_isSum (by simpa using hs)), hs]
    exact .times hl (.primary (.parens h))

theorem derived (e : Expr) : e.Derived := by
  induction e with
  | const n =>
    cases n with
    | ofNat n => exact derived_of_signed (.primary (.number n)) rfl rfl
    | negSucc n => exact derived_of_signed (.negative (.primary (.number (n + 1)))) rfl rfl
  | param p => exact derived_of_signed (.primary (.word p)) rfl rfl
  | event x => exact derived_of_signed (.primary (.event x)) rfl rfl
  | add l r ihl ihr =>
    refine derived_of_sum (ihr.summand ihl.sum) rfl fun {ts a} h => ?_
    -- without parentheses the summands of both operands follow one by one
    have hboth := ihr.summand (ihl.summand h)
    rw [List.append_assoc, List.cons_append] at hboth
    rw [regrouped, addOnto_assoc]
    exact hboth
  | sub l r ihl ihr =>
    refine derived_of_sum (.minus ihl.sum ihr.product) rfl fun {ts a} h => ?_
    have hboth := Derives.minus (ihl.summand h) ihr.product
    rw [List.append_assoc, List.cons_append] at hboth
    exact hboth
  | mul l r ihl ihr =>
    have hproduct : Derives .product (mul l r).tokens (mul l r).regrouped := ihr.factor ihl.product
    refine ⟨.product hproduct, hproduct, fun {ts a} h => ?_, fun {ts a} h => ?_⟩
    · rw [addOnto_of_not_isSum (by rw [isSum_regrouped]; rfl)]
      exact .plus h hproduct
    · have hboth := ihr.factor (ihl.factor h)
      rw [List.append_assoc, List.cons_append] at hboth
      rw [regrouped, mulOnto_assoc]
      exact hboth

/-- The text of an expression is read back, as the expression in its regrouped form. -/
theorem parse_text (he : e.Plain) : Expr.parse e.text = .ok e.regrouped := by
  have hscan : Token.scan e.text.toList = e.tokens := by
    have h := scan_text he Token.ends_nil
    rwa [List.append_nil, Token.scan, List.append_nil] at h
  rw [Expr.parse, Reader.whole, Reader.expr, hscan, e.derived.sum.read]

/-- Every expression over identifiers can be read back from its text. What is read has the same value
for every assignment and the same text, and is the expression itself exactly if no sum stands to the
right of a plus in it and no product to the right of a times. -/
theorem read_back_from_text (he : e.Plain) :
    ∃ e', Expr.parse e.text = .ok e' ∧ (∀ ρ, e'.eval ρ = e.eval ρ) ∧ e'.text = e.text ∧
      (e' = e ↔ e.LeftGrouped) :=
  ⟨e.regrouped, parse_text he, eval_regrouped e, text_regrouped e, regrouped_eq_self_iff⟩

def tangled : Expr :=
  add (param "W") (sub (mul (const (-2)) (mul (event "G") (add (const 1) (param "N")))) (const (-3)))

/-- A sum and a product that are grouped to the right, with negative constants in them. -/
theorem read_back_from_text_tangled : tangled.Plain ∧
    ∃ e', Expr.parse "W + -2*'G*(1 + N) - -3" = .ok e' ∧ (∀ ρ, e'.eval ρ = tangled.eval ρ) ∧
      e'.text = "W + -2*'G*(1 + N) - -3" ∧ e' ≠ tangled := by
  have hplain : tangled.Plain := by decide
  have htext : tangled.text = "W + -2*'G*(1 + N) - -3" := by decide +kernel
  obtain ⟨e', hparse, hvalue, htext', hself⟩ := read_back_from_text hplain
  rw [htext] at hparse htext'
  exact ⟨hplain, e', hparse, hvalue, htext', fun h => absurd (hself.1 h) (by decide)⟩

end Expr

end Chronogram
