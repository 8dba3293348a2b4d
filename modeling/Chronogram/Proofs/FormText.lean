import Chronogram.Proofs.Linearization
import Chronogram.Proofs.Rereading

/-! Linear forms and their texts. A form is written as a sum of its terms, each with its sign, and then every
plus in front of a minus is turned into a subtraction, all over the text. Since no summand has a sign inside, the
text is the first summand followed by the sizes of the others, each behind the sign that it has. Read as an
expression it has the value of the form, so it is the text of no other form. -/

namespace Chronogram

open Token Fallible

/-- The symbol is an identifier, or one with a quote in front. -/
def Symbol.Spelled (s : Symbol) : Prop := isName s = true ∨ ∃ x, isName x = true ∧ s = Symbol.ofEvent x

namespace Token

theorem prints_star : Prints isNothing "*" [mark .star] := fun _ _ => scan_mark (by decide) fun _ => rfl

theorem prints_minus : Prints isNothing "-" [mark .minus] := fun _ _ => scan_mark (by decide) fun _ => rfl

theorem prints_plus : Prints isNothing " + " [mark .plus] := fun _ _ =>
  scan_space.trans ((scan_mark (by decide) fun _ => rfl).trans (congrArg _ scan_space))

theorem prints_subtraction : Prints isNothing " - " [mark .minus] := fun _ _ =>
  scan_space.trans ((scan_mark (by decide) fun _ => rfl).trans (congrArg _ scan_space))

end Token

theorem Text.toList_joined (separator first : String) (parts : List String) :
    (joined separator (first :: parts)).toList =
      first.toList ++ parts.flatMap fun part => separator.toList ++ part.toList := by
  induction parts generalizing first with
  | nil => simp [joined]
  | cons next parts ih =>
    have hnext := ih next
    rw [joined] at hnext ⊢
    rw [String.intercalate_cons_cons, String.toList_append, String.toList_append, hnext, List.flatMap_cons,
      List.append_assoc, List.append_assoc]

namespace LinearForm

/-- A part of the sum: so many times a symbol, or a number. -/
structure Summand where
  coeff : Int
  symbol : Option Symbol

namespace Summand

def value (ρ : Symbol → Int) (s : Summand) : Int := s.coeff * s.symbol.elim 1 ρ

def Spelled (s : Summand) : Prop := ∀ x, s.symbol = some x → x.Spelled

/-- The summand with its sign, as it is written in front. -/
def text (s : Summand) : String := s.symbol.elim (toString s.coeff) fun x => termText (x, s.coeff)

def size (s : Summand) : Summand := { s with coeff := s.coeff.natAbs }

def behind (s : Summand) : String := (if s.coeff < 0 then " - " else " + ") ++ s.size.text

end Summand

theorem toString_eq_sign (k : Int) : toString k = (if k < 0 then "-" else "") ++ toString (k.natAbs : Int) := by
  rw [Int.toString_eq_repr]
  cases k with
  | ofNat n =>
    have hn : ¬ Int.ofNat n < 0 := Int.not_lt.2 (Int.natCast_nonneg n)
    rw [if_neg hn, String.empty_append]
    rfl
  | negSucc n =>
    rw [if_pos (Int.negSucc_lt_zero n)]
    rfl

/-- The characters have no sign among them. -/
def Unsigned (cs : List Char) : Prop := ∀ c ∈ cs, c ≠ '+' ∧ c ≠ '-'

theorem unsigned_of_isNameChar {cs : List Char} (h : ∀ c ∈ cs, isNameChar c = true) : Unsigned cs := by
  intro c hc
  constructor
  · rintro rfl
    exact absurd (h _ hc) (by decide)
  · rintro rfl
    exact absurd (h _ hc) (by decide)

theorem isNameChar_of_mem_numeral {n : Nat} : ∀ c ∈ (toString (n : Int)).toList, isNameChar c = true := by
  intro c hc
  change c ∈ n.repr.toList at hc
  rw [Nat.repr_eq_ofList_toDigits, String.toList_ofList] at hc
  have hdigit := Nat.isDigit_of_mem_toDigits (by decide) (by decide) hc
  simp_all [isNameChar, isDigit, Char.isDigit, Char.le_def]

theorem unsigned_symbol {x : Symbol} (h : x.Spelled) : Unsigned x.toList := by
  rcases h with h | ⟨y, h, rfl⟩
  · exact unsigned_of_isNameChar (isNameChar_of_isName h)
  · intro c hc
    rw [Symbol.ofEvent, String.toList_append, List.mem_append] at hc
    rcases hc with hc | hc
    · rw [List.mem_singleton.1 hc]
      decide
    · exact unsigned_of_isNameChar (isNameChar_of_isName h) c hc

/-- Only where a plus stands is anything changed. -/
theorem subtractions_append {cs : List Char} (h : '+' ∉ cs) (rest : List Char) :
    subtractions (cs ++ rest) = cs ++ subtractions rest := by
  induction cs with
  | nil => rfl
  | cons c cs ih =>
    rw [List.mem_cons, not_or] at h
    rw [List.cons_append, subtractions, ih h.2, List.cons_append]
    exact fun _ heq _ => h.1 heq.symm

theorem subtractions_plus {cs : List Char} (h : cs.head? ≠ some '-') :
    subtractions ('+' :: ' ' :: cs) = '+' :: ' ' :: subtractions cs := by
  rw [subtractions]
  · rw [subtractions]
    intro _ heq
    exact absurd heq (by decide)
  · rintro us - heq
    rw [(List.cons.inj heq).2] at h
    exact h rfl

namespace Summand

variable {s : Summand}

theorem text_eq (s : Summand) : s.text = (if s.coeff < 0 then "-" else "") ++ s.size.text := by
  obtain ⟨k, symbol⟩ := s
  cases symbol with
  | none => exact toString_eq_sign k
  | some x =>
    change termText (x, k) = _ ++ termText (x, (k.natAbs : Int))
    simp only [termText]
    by_cases hone : k = 1
    · simp [hone]
    · by_cases hneg : k = -1
      · simp [hneg]
      · have hsize : (k.natAbs : Int) ≠ 1 ∧ (k.natAbs : Int) ≠ -1 := by omega
        rw [if_neg hone, if_neg hneg, if_neg hsize.1, if_neg hsize.2, toString_eq_sign k, String.append_assoc,
          String.append_assoc, String.append_assoc]

theorem value_eq (s : Summand) (ρ : Symbol → Int) :
    s.value ρ = if s.coeff < 0 then -s.size.value ρ else s.size.value ρ := by
  simp only [value, size]
  split
  next hneg => rw [Int.ofNat_natAbs_of_nonpos hneg.le, neg_mul, neg_neg]
  next hneg => rw [Int.natAbs_of_nonneg (not_lt.1 hneg)]

theorem unsigned_size (h : s.Spelled) : Unsigned s.size.text.toList := by
  obtain ⟨k, symbol⟩ := s
  have hnumeral : Unsigned (toString (k.natAbs : Int)).toList :=
    unsigned_of_isNameChar isNameChar_of_mem_numeral
  cases symbol with
  | none => exact hnumeral
  | some x =>
    have hx := unsigned_symbol (h x rfl)
    have hsize : (k.natAbs : Int) ≠ -1 := by omega
    change Unsigned (termText (x, (k.natAbs : Int))).toList
    simp only [termText, if_neg hsize]
    split
    · exact hx
    · intro c hc
      simp only [String.toList_append, List.mem_append] at hc
      rcases hc with (hc | hc) | hc
      · exact hnumeral c hc
      · rw [List.mem_singleton.1 hc]
        decide
      · exact hx c hc

theorem plus_not_mem_size (h : s.Spelled) : '+' ∉ s.size.text.toList :=
  fun hplus => (unsigned_size h _ hplus).1 rfl

theorem plus_not_mem_text (h : s.Spelled) : '+' ∉ s.text.toList := by
  rw [text_eq, String.toList_append, List.mem_append, not_or]
  refine ⟨?_, plus_not_mem_size h⟩
  split <;> simp

end Summand

def continued (text : String) (ss : List Summand) : String := ss.foldl (fun text s => text ++ s.behind) text

theorem toList_continued (text : String) (ss : List Summand) :
    (continued text ss).toList = text.toList ++ ss.flatMap (·.behind.toList) := by
  induction ss generalizing text with
  | nil => simp [continued]
  | cons s ss ih =>
    rw [continued, List.foldl_cons, ← continued, ih, String.toList_append, List.append_assoc, List.flatMap_cons]

/-- The sign of a summand that follows others takes the place of the plus. -/
theorem subtractions_behind {s : Summand} (h : s.Spelled) {rest : List Char} (hrest : rest.head? ≠ some '-') :
    subtractions (" + ".toList ++ s.text.toList ++ rest) = s.behind.toList ++ subtractions rest := by
  have hsize := Summand.plus_not_mem_size h
  have hblank : '+' ∉ [' '] := by decide
  rw [Summand.text_eq, Summand.behind]
  by_cases hneg : s.coeff < 0
  · rw [if_pos hneg, if_pos hneg, String.toList_append, String.toList_append]
    change subtractions ([' '] ++ '+' :: ' ' :: '-' :: (s.size.text.toList ++ rest)) = _
    rw [subtractions_append hblank, subtractions, subtractions_append hsize]
    rfl
  · -- no minus follows, so the plus stays
    have hhead : (s.size.text.toList ++ rest).head? ≠ some '-' := by
      cases hs : s.size.text.toList with
      | nil => exact hrest
      | cons c cs => exact fun heq => (Summand.unsigned_size h c (by simp [hs])).2 (Option.some.inj heq)
    rw [if_neg hneg, if_neg hneg, String.toList_append, String.toList_append]
    change subtractions ([' '] ++ '+' :: ' ' :: (s.size.text.toList ++ rest)) = _
    rw [subtractions_append hblank, subtractions_plus hhead, subtractions_append hsize]
    rfl

theorem subtractions_flatMap {ss : List Summand} (h : ∀ s ∈ ss, s.Spelled) :
    subtractions (ss.flatMap fun s => " + ".toList ++ s.text.toList) = ss.flatMap (·.behind.toList) := by
  induction ss with
  | nil => rfl
  | cons s ss ih =>
    obtain ⟨hs, hss⟩ := List.forall_mem_cons.1 h
    have hrest : (ss.flatMap fun s => " + ".toList ++ s.text.toList).head? ≠ some '-' := by
      cases ss with
      | nil => simp
      | cons t ss => simp
    rw [List.flatMap_cons, List.flatMap_cons, subtractions_behind hs hrest, ih hss]

def sortedTerms (f : LinearForm) : List (Symbol × Int) := f.terms.mergeSort fun a b => !(b.1 < a.1 : Bool)

theorem perm_sortedTerms (f : LinearForm) : f.sortedTerms.Perm f.terms := List.mergeSort_perm _ _

theorem pairwise_sortedTerms (f : LinearForm) : f.sortedTerms.Pairwise fun a b => a.1 ≤ b.1 := by
  have hsorted : f.sortedTerms.Pairwise fun a b => (!(b.1 < a.1 : Bool)) = true := by
    refine List.pairwise_mergeSort (fun a b c hab hbc => ?_) (fun a b => ?_) f.terms
    · simp only [Bool.not_eq_true', decide_eq_false_iff_not] at hab hbc ⊢
      exact String.le_trans hab hbc
    · simp only [Bool.or_eq_true, Bool.not_eq_true', decide_eq_false_iff_not]
      exact String.le_total a.1 b.1
  refine hsorted.imp fun {a b} hab => ?_
  rw [Bool.not_eq_true', decide_eq_false_iff_not] at hab
  exact hab

def summands (f : LinearForm) : List Summand :=
  f.sortedTerms.map (fun t => ⟨t.2, some t.1⟩) ++
    if f.constant ≠ 0 ∨ f.terms = [] then [⟨f.constant, none⟩] else []

theorem summands_ne_nil (f : LinearForm) : f.summands ≠ [] := by
  intro h
  obtain ⟨hterms, hconstant⟩ := List.append_eq_nil_iff.1 h
  have hnil : f.terms = [] := by
    have hperm := f.perm_sortedTerms
    rwa [List.map_eq_nil_iff.1 hterms, List.nil_perm] at hperm
  simp [hnil] at hconstant

theorem spelled_summands {f : LinearForm} (h : ∀ x ∈ f.symbols, x.Spelled) :
    ∀ s ∈ f.summands, s.Spelled := by
  intro s hs x hx
  rw [summands, List.mem_append] at hs
  rcases hs with hs | hs
  · obtain ⟨t, ht, rfl⟩ := List.mem_map.1 hs
    rw [← Option.some.inj hx]
    exact h _ (List.mem_map_of_mem (f.perm_sortedTerms.mem_iff.1 ht))
  · split at hs
    · rw [List.mem_singleton.1 hs] at hx
      cases hx
    · cases hs

theorem sum_summands (f : LinearForm) (ρ : Symbol → Int) : (f.summands.map (·.value ρ)).sum = f.eval ρ := by
  have hterms : ∀ ts : List (Symbol × Int),
      ((ts.map fun t => Summand.mk t.2 (some t.1)).map (·.value ρ)).sum = termsValue ρ ts := by
    intro ts
    induction ts with
    | nil => rfl
    | cons t ts ih =>
      rw [List.map_cons, List.map_cons, List.sum_cons, ih]
      rfl
  rw [summands, List.map_append, List.sum_append, hterms, termsValue_perm f.perm_sortedTerms, eval]
  split
  · simp [Summand.value]
  next h =>
    push Not at h
    simp [h.1]

theorem text_eq_joined (f : LinearForm) :
    f.text = String.ofList (subtractions (Text.joined " + " (f.summands.map (·.text))).toList) := by
  have hnil : f.sortedTerms.map termText = [] ↔ f.terms = [] := by
    rw [List.map_eq_nil_iff, ← List.length_eq_zero_iff, f.perm_sortedTerms.length_eq, List.length_eq_zero_iff]
  unfold text summands
  rw [← sortedTerms]
  simp only [hnil]
  congr 4
  rw [List.map_append, List.map_map]
  split
  · rfl
  · exact (List.append_nil _).symm

/-- The text of a form is its first summand and then the others, each behind its sign. -/
theorem text_eq_continued {f : LinearForm} (h : ∀ x ∈ f.symbols, x.Spelled) {s : Summand} {ss : List Summand}
    (hs : f.summands = s :: ss) : f.text = continued s.text ss := by
  have hall := spelled_summands h
  rw [hs] at hall
  obtain ⟨hfirst, hothers⟩ := List.forall_mem_cons.1 hall
  have hchars : (ss.map (·.text)).flatMap (fun part => " + ".toList ++ part.toList) =
      ss.flatMap fun s => " + ".toList ++ s.text.toList := List.flatMap_map _ _ _
  rw [text_eq_joined, hs, List.map_cons, Text.toList_joined, hchars,
    subtractions_append (Summand.plus_not_mem_text hfirst), subtractions_flatMap hothers, ← toList_continued,
    String.ofList_toList]

/-! The sum that a text is read as. -/

/-- The text is a phrase of the kind, for a linear expression with the value. -/
def Reads (level : Expr.Level) (text : String) (value : (Symbol → Int) → Int) : Prop :=
  ∃ ts e, Prints isNameChar text ts ∧ Expr.Derives level ts e ∧ e.Linear ∧ ∀ ρ, e.eval ρ = value ρ

namespace Reads

variable {s u : String} {v w : (Symbol → Int) → Int}

theorem product (h : Reads .signed s v) : Reads .product s v := by
  obtain ⟨ts, e, hs, he, hv⟩ := h
  exact ⟨ts, e, hs, .signed he, hv⟩

theorem sum (h : Reads .product s v) : Reads .sum s v := by
  obtain ⟨ts, e, hs, he, hv⟩ := h
  exact ⟨ts, e, hs, .product he, hv⟩

theorem int (k : Int) : Reads .signed (toString k) fun _ => k := by
  cases k with
  | ofNat n => exact ⟨_, _, prints_int _, .primary (.number n), ⟨_, rfl⟩, fun _ => rfl⟩
  | negSucc n => exact ⟨_, _, prints_int _, .negative (.primary (.number (n + 1))), ⟨_, rfl⟩, fun _ => rfl⟩

theorem symbol {x : Symbol} (h : x.Spelled) : Reads .signed x fun ρ => ρ x := by
  rcases h with h | ⟨y, h, rfl⟩
  · exact ⟨_, _, prints_word h, .primary (.word x), ⟨_, rfl⟩, fun _ => rfl⟩
  · exact ⟨_, _, prints_event h, .primary (.event y), ⟨_, rfl⟩, fun _ => rfl⟩

theorem negative (h : Reads .signed s v) : Reads .signed ("-" ++ s) fun ρ => -v ρ := by
  obtain ⟨ts, e, hs, he, ⟨f, hf⟩, hv⟩ := h
  have hzero : (Expr.sub (.const 0) e).Linear := ⟨const 0 - f, by simp [Expr.linearize, hf]⟩
  have hnegated : e.negated.Linear ∧ ∀ ρ, e.negated.eval ρ = -e.eval ρ := by
    cases e with
    | const n => exact ⟨⟨_, rfl⟩, fun _ => rfl⟩
    | _ => exact ⟨hzero, fun _ => zero_sub _⟩
  refine ⟨_, e.negated, prints_minus.closed_append hs, .negative he, hnegated.1, fun ρ => ?_⟩
  rw [hnegated.2, hv]

theorem times {k : Int} (h : Reads .product s fun _ => k) (h' : Reads .signed u v) :
    Reads .product (s ++ "*" ++ u) fun ρ => k * v ρ := by
  obtain ⟨ts, e, hs, he, ⟨f, hf⟩, hk⟩ := h
  obtain ⟨us, e', hu, he', ⟨f', hf'⟩, hv⟩ := h'
  have hconstant : f.isConstant = true := isConstant_iff.2 ⟨k, fun ρ => by rw [Expr.eval_linearize hf, hk]⟩
  refine ⟨_, _, ?_, .times he he', Expr.linear_mul_iff.2 ⟨f, f', hf, hf', .inl hconstant⟩, fun ρ => ?_⟩
  · have hboth := (hs.append prints_star ⟨'*', by simp, rfl⟩).closed_append hu
    rwa [List.append_assoc] at hboth
  · rw [Expr.eval, hk, hv]

theorem further (h : Reads .sum s v) (h' : Reads .product u w) :
    Reads .sum (s ++ (" + " ++ u)) (fun ρ => v ρ + w ρ) ∧
      Reads .sum (s ++ (" - " ++ u)) (fun ρ => v ρ - w ρ) := by
  obtain ⟨ts, e, hs, he, ⟨f, hf⟩, hv⟩ := h
  obtain ⟨us, e', hu, he', ⟨f', hf'⟩, hw⟩ := h'
  constructor
  · refine ⟨_, _, hs.append (prints_plus.closed_append hu) ⟨' ', by simp, rfl⟩, .plus he he',
      ⟨f + f', by simp [Expr.linearize, hf, hf']⟩, fun ρ => ?_⟩
    rw [Expr.eval, hv, hw]
  · refine ⟨_, _, hs.append (prints_subtraction.closed_append hu) ⟨' ', by simp, rfl⟩, .minus he he',
      ⟨f - f', by simp [Expr.linearize, hf, hf']⟩, fun ρ => ?_⟩
    rw [Expr.eval, hv, hw]

theorem summand {a : Summand} (h : a.Spelled) : Reads .product a.text (a.value ·) := by
  obtain ⟨k, symbol⟩ := a
  cases symbol with
  | none =>
    simp only [Summand.value, Option.elim_none, mul_one]
    exact (int k).product
  | some x =>
    have hx := Reads.symbol (h x rfl)
    change Reads .product (termText (x, k)) fun ρ => k * ρ x
    simp only [termText]
    split
    next hone => simpa [hone] using hx.product
    next =>
      split
      next hneg => simpa [hneg] using hx.negative.product
      -- a minus in front of the number belongs to the number alone
      next => exact (int k).product.times hx

theorem behind {a : Summand} (ha : a.Spelled) (h : Reads .sum s v) :
    Reads .sum (s ++ a.behind) fun ρ => v ρ + a.value ρ := by
  have hsize : a.size.Spelled := ha
  obtain ⟨hplus, hminus⟩ := h.further (summand hsize)
  simp only [Summand.behind, Summand.value_eq a]
  by_cases hneg : a.coeff < 0
  · simpa only [if_pos hneg, ← sub_eq_add_neg] using hminus
  · simpa only [if_neg hneg] using hplus

theorem continued {others : List Summand} (hothers : ∀ a ∈ others, a.Spelled) (h : Reads .sum s v) :
    Reads .sum (continued s others) fun ρ => v ρ + (others.map (·.value ρ)).sum := by
  induction others generalizing s v with
  | nil => simpa [LinearForm.continued] using h
  | cons a others ih =>
    obtain ⟨ha, hothers⟩ := List.forall_mem_cons.1 hothers
    have hall := ih hothers (h.behind ha)
    simp only [List.map_cons, List.sum_cons, ← add_assoc]
    exact hall

end Reads

variable {f g : LinearForm}

theorem reads_text (h : ∀ x ∈ f.symbols, x.Spelled) : Reads .sum f.text f.eval := by
  have hall := spelled_summands h
  cases hs : f.summands with
  | nil => exact absurd hs (summands_ne_nil f)
  | cons a others =>
    rw [hs, List.forall_mem_cons] at hall
    have hsum := (Reads.summand hall.1).sum.continued hall.2
    have hvalue : (fun ρ => a.value ρ + (others.map (·.value ρ)).sum) = f.eval := by
      funext ρ
      rw [← sum_summands, hs, List.map_cons, List.sum_cons]
    rwa [hvalue, ← text_eq_continued h hs] at hsum

/-- The text of a form is an expression, whose form is the same. -/
theorem exists_parse_text (h : ∀ x ∈ f.symbols, x.Spelled) :
    ∃ e f', Expr.parse f.text = .ok e ∧ e.linearize = .ok f' ∧ f'.same f = true := by
  obtain ⟨ts, e, hprints, hderives, ⟨f', hf'⟩, heval⟩ := reads_text h
  refine ⟨e, f', Reader.whole_eq_ok (Reader.takes_derived hderives) hprints .expression, hf', ?_⟩
  exact same_iff.2 fun ρ => by rw [Expr.eval_linearize hf', heval]

/-- Forms that are the same have the same terms, and sorted these stand in one order only. -/
theorem text_of_same (h : f.same g = true) : f.text = g.text := by
  have hperm := perm_of_same h
  have hterms : f.sortedTerms = g.sortedTerms := by
    refine List.Perm.eq_of_pairwise (fun a b ha hb hab hba => ?_) f.pairwise_sortedTerms g.pairwise_sortedTerms
      (f.perm_sortedTerms.trans (hperm.trans g.perm_sortedTerms.symm))
    have ha := hperm.mem_iff.1 (f.perm_sortedTerms.mem_iff.1 ha)
    have hb := g.perm_sortedTerms.mem_iff.1 hb
    exact List.inj_on_of_nodup_map g.nodup ha hb (String.le_antisymm hab hba)
  have hnil : f.terms = [] ↔ g.terms = [] := by
    rw [← List.length_eq_zero_iff, hperm.length_eq, List.length_eq_zero_iff]
  rw [text_eq_joined, text_eq_joined, summands, summands, hterms, constant_of_same h]
  simp only [hnil]

end LinearForm

open LinearForm

/-- The text of a form whose symbols are identifiers, with a quote or without, is read back as the same form. So
forms are the same exactly when their texts are. -/
theorem forms_reread :
    (∀ f : LinearForm, (∀ x ∈ f.symbols, x.Spelled) →
      ∃ e f', Expr.parse f.text = .ok e ∧ e.linearize = .ok f' ∧ f'.same f = true) ∧
    ∀ f g : LinearForm, (∀ x ∈ f.symbols, x.Spelled) → (∀ x ∈ g.symbols, x.Spelled) →
      (f.text = g.text ↔ f.same g = true) := by
  refine ⟨fun f hf => exists_parse_text hf, fun f g hf hg => ⟨fun htext => ?_, text_of_same⟩⟩
  obtain ⟨e, f', hparse, hform, hsame⟩ := exists_parse_text hf
  obtain ⟨e', g', hparse', hform', hsame'⟩ := exists_parse_text hg
  -- one text is read once
  rw [htext, hparse'] at hparse
  rw [← Except.ok.inj hparse, hform'] at hform
  rw [← Except.ok.inj hform, same_iff] at hsame
  rw [same_iff] at hsame' ⊢
  exact fun ρ => (hsame ρ).symm.trans (hsame' ρ)

namespace LinearForm

/-- A form that begins with a minus and ends with one. -/
def elapsed : LinearForm := ⟨[("'G", -1), ("W", 2)], -3, by decide, by decide⟩

def elapsedReversed : LinearForm := ⟨[("W", 2), ("'G", -1)], -3, by decide, by decide⟩

theorem text_elapsed : elapsed.text = "-'G + 2*W - 3" := by
  have hsorted : elapsed.sortedTerms = elapsed.terms := List.mergeSort_of_pairwise (by decide)
  rw [text, ← sortedTerms, hsorted]
  decide +kernel

theorem spelled_elapsed : (∀ x ∈ elapsed.symbols, x.Spelled) ∧ ∀ x ∈ elapsedReversed.symbols, x.Spelled := by
  have hevent : Symbol.Spelled "'G" := .inr ⟨"G", by decide, by decide⟩
  have hparam : Symbol.Spelled "W" := .inl (by decide)
  exact ⟨List.forall_mem_cons.2 ⟨hevent, List.forall_mem_singleton.2 hparam⟩,
    List.forall_mem_cons.2 ⟨hparam, List.forall_mem_singleton.2 hevent⟩⟩

end LinearForm

theorem forms_reread_elapsed :
    (∀ x ∈ elapsed.symbols, x.Spelled) ∧ (∀ x ∈ elapsedReversed.symbols, x.Spelled) ∧
    (∃ e f', Expr.parse "-'G + 2*W - 3" = .ok e ∧ e.linearize = .ok f' ∧ f'.same elapsed = true) ∧
    elapsedReversed.text = "-'G + 2*W - 3" := by
  obtain ⟨hspelled, hreversed⟩ := spelled_elapsed
  refine ⟨hspelled, hreversed, ?_, ?_⟩
  · have hread := forms_reread.1 elapsed hspelled
    rwa [text_elapsed] at hread
  · have hsame := forms_reread.2 elapsedReversed elapsed hreversed hspelled
    rw [hsame.2 (by decide), text_elapsed]

end Chronogram
