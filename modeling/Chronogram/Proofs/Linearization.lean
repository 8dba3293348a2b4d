import Chronogram.Proofs.Wiring

/-! Linear forms are canonical. The constant and the coefficients of a form can be read off its values, so two
forms compare as the same exactly if they have the same value everywhere, in whatever order their terms
stand. An expression has a form unless it multiplies two expressions whose values both vary; whether a
value varies is a matter of the function and not of the names that are written, since names cancel. -/

namespace Chronogram

open Fallible

namespace LinearForm

variable {f g : LinearForm} {ρ σ : Symbol → Int} {s : Symbol}

theorem constant_eq : f.constant = f.eval fun _ => 0 := by rw [eval, termsValue_zero, zero_add]

theorem mem_terms_iff {t : Symbol × Int} : t ∈ f.terms ↔ f.coeff t.1 = t.2 ∧ t.2 ≠ 0 := by
  refine ⟨fun h => ⟨coeff_of_mem h, f.nonzero t h⟩, ?_⟩
  rintro ⟨hcoeff, hne⟩
  cases hlookup : f.terms.lookup t.1 with
  | none =>
    rw [coeff, hlookup] at hcoeff
    exact absurd hcoeff.symm hne
  | some k =>
    rw [coeff, hlookup] at hcoeff
    obtain rfl : k = t.2 := hcoeff
    exact Association.mem_of_lookup hlookup

theorem mem_symbols_iff : s ∈ f.symbols ↔ f.coeff s ≠ 0 := by
  rw [symbols, List.mem_map]
  constructor
  · rintro ⟨t, ht, rfl⟩
    rw [coeff_of_mem ht]
    exact f.nonzero t ht
  · intro hne
    exact ⟨(s, f.coeff s), mem_terms_iff.2 ⟨rfl, hne⟩, rfl⟩

theorem eval_congr (h : ∀ s ∈ f.symbols, ρ s = σ s) : f.eval ρ = f.eval σ := by
  have hterms : ∀ ts : List (Symbol × Int), (∀ s ∈ ts.map (·.1), ρ s = σ s) →
      termsValue ρ ts = termsValue σ ts := by
    intro ts hts
    induction ts with
    | nil => rfl
    | cons t ts ih =>
      rw [List.map_cons, List.forall_mem_cons] at hts
      rw [termsValue, termsValue, hts.1, ih hts.2]
  rw [eval, eval, hterms f.terms h]

/-- Two forms are the same exactly if no assignment tells them apart. -/
theorem same_iff : f.same g = true ↔ ∀ ρ, f.eval ρ = g.eval ρ := by
  refine ⟨fun h ρ => eval_eq_of_same h, fun h => ?_⟩
  have hconstant : f.constant = g.constant := by rw [constant_eq, constant_eq, h]
  have hcoeff : ∀ s, f.coeff s = g.coeff s := fun s => by rw [coeff_eq, coeff_eq, h, h]
  have hperm : f.terms.Perm g.terms := by
    refine (List.perm_ext_iff_of_nodup (.of_map _ f.nodup) (.of_map _ g.nodup)).2 fun t => ?_
    rw [mem_terms_iff, mem_terms_iff, hcoeff]
  simp only [same, Bool.and_eq_true, beq_iff_eq, List.all_eq_true]
  exact ⟨⟨hconstant, hperm.length_eq⟩, fun t ht => Association.lookup_of_mem g.nodup (hperm.subset ht)⟩

def known (env : List (Symbol × Int)) : Symbol → Int := fun s => (env.lookup s).getD 0

/-- Adding up terms stops at the first symbol that the environment leaves open. -/
theorem foldlM_terms {env : List (Symbol × Int)} {add : Int → Symbol × Int → Except Symbol Int}
    (hsome : ∀ total t v, env.lookup t.1 = some v → add total t = .ok (total + t.2 * v))
    (hnone : ∀ total t, env.lookup t.1 = none → add total t = .error t.1)
    (ts : List (Symbol × Int)) (total : Int) :
    ts.foldlM add total = ((ts.map (·.1)).find? fun s => (env.lookup s).isNone).elim
      (.ok (termsValue (known env) ts + total)) .error := by
  induction ts generalizing total with
  | nil => simp [termsValue, pure, Except.pure]
  | cons t ts ih =>
    rw [List.foldlM_cons]
    cases hlookup : env.lookup t.1 with
    | none =>
      rw [hnone total t hlookup, List.map_cons, List.find?_cons_of_pos (by simp [hlookup])]
      rfl
    | some v =>
      have hvalue : termsValue (known env) (t :: ts) + total =
          termsValue (known env) ts + (total + t.2 * v) := by
        rw [termsValue, known, hlookup, Option.getD_some]
        ring
      rw [hsome total t v hlookup, List.map_cons, List.find?_cons_of_neg (by simp [hlookup]), hvalue]
      exact ih _

theorem eval?_eq (f : LinearForm) (env : List (Symbol × Int)) :
    f.eval? env =
      (f.symbols.find? fun s => (env.lookup s).isNone).elim (.ok (f.eval (known env))) .error :=
  foldlM_terms (fun _ _ _ h => by rw [h]) (fun _ _ h => by rw [h]) f.terms f.constant

/-- There is no value exactly if a symbol that matters is left open. -/
theorem eval?_eq_error_iff {env : List (Symbol × Int)} :
    (∃ s, f.eval? env = .error s) ↔ ∃ s, f.coeff s ≠ 0 ∧ env.lookup s = none := by
  rw [eval?_eq]
  cases hfind : f.symbols.find? fun s => (env.lookup s).isNone with
  | none =>
    refine iff_of_false (by simp) ?_
    rintro ⟨s, hne, hnone⟩
    have hbound := List.find?_eq_none.1 hfind s (mem_symbols_iff.2 hne)
    simp [hnone] at hbound
  | some s =>
    have hnone : env.lookup s = none := by simpa using List.find?_some hfind
    exact iff_of_true ⟨s, rfl⟩ ⟨s, mem_symbols_iff.1 (List.mem_of_find?_eq_some hfind), hnone⟩

end LinearForm

namespace Expr

variable {e : Expr}

def Varies (e : Expr) : Prop := ∃ ρ σ : Symbol → Int, e.eval ρ ≠ e.eval σ

/-- A product of two expressions whose values both vary. -/
def Entangled (e : Expr) : Prop := ∃ l r, e = mul l r ∧ l.Varies ∧ r.Varies

theorem varies_iff {f : LinearForm} (h : e.linearize = .ok f) : e.Varies ↔ f.isConstant = false := by
  simp only [Varies, ← eval_linearize h]
  rw [← Bool.not_eq_true, LinearForm.isConstant_iff, not_exists]
  constructor
  · rintro ⟨ρ, σ, hne⟩ c hc
    exact hne (by rw [hc, hc])
  · intro hnone
    by_contra hsame
    push Not at hsame
    exact hnone (f.eval fun _ => 0) fun ρ => hsame ρ _

/-- The value changes with the symbol alone. -/
def DependsOn (e : Expr) (s : Symbol) : Prop :=
  ∃ ρ σ : Symbol → Int, (∀ x, x ≠ s → ρ x = σ x) ∧ e.eval ρ ≠ e.eval σ

theorem mem_symbols_iff_dependsOn {f : LinearForm} (h : e.linearize = .ok f) {s : Symbol} :
    s ∈ f.symbols ↔ e.DependsOn s := by
  simp only [DependsOn, ← eval_linearize h]
  constructor
  · intro hs
    refine ⟨LinearForm.unit s, fun _ => 0, fun x hx => if_neg hx, fun heq => ?_⟩
    rw [LinearForm.mem_symbols_iff, LinearForm.coeff_eq, heq, sub_self] at hs
    exact hs rfl
  · rintro ⟨ρ, σ, hsame, hne⟩
    by_contra hs
    refine hne (LinearForm.eval_congr fun x hx => hsame x ?_)
    rintro rfl
    exact hs hx

theorem not_entangled_of_ne_mul (h : ∀ l r, e ≠ mul l r) : ¬ e.Entangled := by
  rintro ⟨l, r, he, -⟩
  exact h l r he

/-- Either there is a form, and nothing in the expression is entangled, or an entangled product in it is what
linearizing stops at. -/
theorem linearize_cases (e : Expr) :
    ((∃ f, e.linearize = .ok f) ∧ ∀ p ∈ e.parts, ¬ p.Entangled) ∨
      ∃ p ∈ e.parts, p.Entangled ∧ e.linearize = .error p := by
  induction e with
  | const n => exact .inl ⟨⟨_, rfl⟩, List.forall_mem_singleton.2 (not_entangled_of_ne_mul (by simp))⟩
  | param p => exact .inl ⟨⟨_, rfl⟩, List.forall_mem_singleton.2 (not_entangled_of_ne_mul (by simp))⟩
  | event x => exact .inl ⟨⟨_, rfl⟩, List.forall_mem_singleton.2 (not_entangled_of_ne_mul (by simp))⟩
  | add l r ihl ihr | sub l r ihl ihr =>
    rw [parts, linearize]
    rcases ihl with ⟨⟨fl, hl⟩, hpl⟩ | ⟨p, hmem, hp, hl⟩
    · rcases ihr with ⟨⟨fr, hr⟩, hpr⟩ | ⟨p, hmem, hp, hr⟩
      · refine .inl ⟨⟨_, by rw [hl, hr]; rfl⟩, List.forall_mem_cons.2 ⟨?_, List.forall_mem_append.2 ⟨hpl, hpr⟩⟩⟩
        exact not_entangled_of_ne_mul (by simp)
      · exact .inr ⟨p, by simp [hmem], hp, by rw [hl, hr]; rfl⟩
    · exact .inr ⟨p, by simp [hmem], hp, by rw [hl]; rfl⟩
  | mul l r ihl ihr =>
    rcases ihl with ⟨⟨fl, hl⟩, hpl⟩ | ⟨p, hmem, hp, hl⟩
    · rcases ihr with ⟨⟨fr, hr⟩, hpr⟩ | ⟨p, hmem, hp, hr⟩
      · -- both factors have forms, and the product has one exactly if a factor does not vary
        by_cases hvary : l.Varies ∧ r.Varies
        · refine .inr ⟨mul l r, by simp [parts], ⟨l, r, rfl, hvary⟩, ?_⟩
          rw [varies_iff hl, varies_iff hr] at hvary
          refine bind_eq_error.2 (.inr ⟨fl, hl, bind_eq_error.2 (.inr ⟨fr, hr, ?_⟩)⟩)
          rw [if_neg (by simp [hvary.1]), if_neg (by simp [hvary.2])]
          rfl
        · refine .inl ⟨linear_mul_iff.2 ⟨fl, fr, hl, hr, ?_⟩, ?_⟩
          · rw [varies_iff hl, varies_iff hr, not_and_or, Bool.not_eq_false, Bool.not_eq_false] at hvary
            exact hvary
          · refine List.forall_mem_cons.2 ⟨?_, List.forall_mem_append.2 ⟨hpl, hpr⟩⟩
            rintro ⟨l', r', heq, hvary'⟩
            cases heq
            exact hvary hvary'
      · exact .inr ⟨p, by simp [parts, hmem], hp, by rw [linearize, hl, hr]; rfl⟩
    · exact .inr ⟨p, by simp [parts, hmem], hp, by rw [linearize, hl]; rfl⟩

end Expr

namespace Bench

variable {b : Bench} {dest src : Endpoint} {loc : Option Loc}

theorem checkWidths_eq_nil_iff :
    b.checkWidths dest src loc = [] ↔ ∀ ρ, dest.width.eval ρ = src.width.eval ρ := by
  rw [← LinearForm.same_iff, checkWidths]
  split
  next hsame => simp [hsame]
  next hsame => simp [hsame]

theorem kind_of_checkWidths : ∀ d ∈ b.checkWidths dest src loc, d.kind = .widthMismatch := by
  unfold checkWidths
  split
  · simp
  · exact List.forall_mem_singleton.2 rfl

theorem kind_of_checkIntervals : ∀ d ∈ b.checkIntervals dest src loc, d.kind ≠ .widthMismatch := by
  unfold checkIntervals
  dsimp only
  split
  · simp
  · simp
  · simp

/-- Of a wire whose ends are found and which is the first one to its destination, the widths are complained
about exactly if they differ somewhere. -/
theorem connect_of_ends {ws : Wires} {wire : Wire}
    (hdest : b.endpoint wire.dest .sink wire.loc = .ok (some dest, []))
    (hsrc : b.endpoint wire.src .source wire.loc = .ok (some src, []))
    (hfree : ws.drivers.lookup wire.dest.text = none) :
    ∃ ws' found, b.connect ws wire = .ok (ws', found) ∧
      ((∀ d ∈ found, d.kind ≠ .widthMismatch) ↔ ∀ ρ, dest.width.eval ρ = src.width.eval ρ) := by
  refine ⟨{ ws with drivers := ws.drivers ++ [(wire.dest.text, wire.src)] },
    b.checkWidths dest src wire.loc ++ b.checkIntervals dest src wire.loc, ?_, ?_⟩
  · rw [connect, hdest, hsrc]
    refine bind_eq_ok.2 ⟨_, rfl, bind_eq_ok.2 ⟨_, rfl, ?_⟩⟩
    dsimp only
    rw [hfree]
    rfl
  · have hiff : b.checkWidths dest src wire.loc = [] ↔ _ := checkWidths_eq_nil_iff
    rw [← hiff, List.forall_mem_append]
    constructor
    · rintro ⟨hwidths, -⟩
      exact List.eq_nil_iff_forall_not_mem.2 fun d hd => hwidths d hd (kind_of_checkWidths d hd)
    · intro hnil
      rw [hnil]
      exact ⟨by simp, kind_of_checkIntervals⟩

end Bench

theorem LinearForm.eval_of_events_eq_nil {f : LinearForm} (h : f.events = []) (v : Valuation)
    (event : String → Int) : f.eval (Valuation.mk v.param event).symbol = f.eval v.symbol := by
  refine eval_congr fun s hs => ?_
  have hparam : s.isEvent = false := by
    rw [events, List.map_eq_nil_iff, List.filter_eq_nil_iff] at h
    simpa using h s hs
  simp [Valuation.symbol, hparam]

/-- An expression has a linear form unless it contains a product of two factors that both vary, and then it is
such a product that is complained about. The form has the value of the expression, and a term with a
coefficient for each symbol that the value depends on. Forms compare as the same exactly if they have the
same values, and therefore a wire may connect widths that agree for all values of the parameters, and no
others. A form can be evaluated in an environment exactly if this gives a value to each symbol that has a
coefficient. -/
theorem exact_linearization :
    (∀ e : Expr,
      ((∃ p, e.linearize = .error p) ↔ ∃ p ∈ e.parts, p.Entangled) ∧
      (∀ p, e.linearize = .error p → p ∈ e.parts ∧ p.Entangled) ∧
      ∀ f, e.linearize = .ok f → (∀ t ∈ f.terms, t.2 ≠ 0) ∧ (∀ s, s ∈ f.symbols ↔ e.DependsOn s) ∧
        ∀ ρ, f.eval ρ = e.eval ρ) ∧
    (∀ f g : LinearForm, f.same g = true ↔ ∀ ρ, f.eval ρ = g.eval ρ) ∧
    (∀ (b : Bench) (ws : Wires) (wire : Wire) (dest src : Endpoint),
      b.endpoint wire.dest .sink wire.loc = .ok (some dest, []) →
      b.endpoint wire.src .source wire.loc = .ok (some src, []) →
      ws.drivers.lookup wire.dest.text = none →
      ∃ ws' found, b.connect ws wire = .ok (ws', found) ∧
        ((∀ d ∈ found, d.kind ≠ .widthMismatch) ↔ ∀ ρ, dest.width.eval ρ = src.width.eval ρ) ∧
        (dest.width.events = [] → src.width.events = [] → ∀ event : String → Int,
          ((∀ d ∈ found, d.kind ≠ .widthMismatch) ↔ ∀ param : String → Int,
            dest.width.eval (Valuation.mk param event).symbol =
              src.width.eval (Valuation.mk param event).symbol))) ∧
    ∀ (f : LinearForm) (env : List (Symbol × Int)),
      ((∃ s, f.eval? env = .error s) ↔ ∃ s, f.coeff s ≠ 0 ∧ env.lookup s = none) ∧
      ∀ n, f.eval? env = .ok n → n = f.eval (LinearForm.known env) := by
  refine ⟨fun e => ?_, fun f g => LinearForm.same_iff, ?_, fun f env => ⟨f.eval?_eq_error_iff, ?_⟩⟩
  · rcases e.linearize_cases with ⟨⟨f, hf⟩, hnone⟩ | ⟨p, hmem, hp, herror⟩
    · refine ⟨iff_of_false (by simp [hf]) ?_, by simp [hf], fun g hg => ?_⟩
      · rintro ⟨p, hmem, hp⟩
        exact hnone p hmem hp
      · exact ⟨g.nonzero, fun s => Expr.mem_symbols_iff_dependsOn hg, Expr.eval_linearize hg⟩
    · refine ⟨iff_of_true ⟨p, herror⟩ ⟨p, hmem, hp⟩, fun q hq => ?_, by simp [herror]⟩
      obtain rfl : p = q := Except.error.inj (herror.symm.trans hq)
      exact ⟨hmem, hp⟩
  · intro b ws wire dest src hdest hsrc hfree
    obtain ⟨ws', found, hconnect, hiff⟩ := Bench.connect_of_ends hdest hsrc hfree
    refine ⟨ws', found, hconnect, hiff, fun hdest' hsrc' event => hiff.trans ?_⟩
    refine ⟨fun h param => h _, fun h ρ => ?_⟩
    obtain ⟨v, rfl⟩ := Valuation.exists_symbol_eq ρ
    rw [← LinearForm.eval_of_events_eq_nil hdest' v event, ← LinearForm.eval_of_events_eq_nil hsrc' v event]
    exact h v.param
  · intro n hn
    rw [LinearForm.eval?_eq] at hn
    cases hfind : f.symbols.find? fun s => (env.lookup s).isNone with
    | none =>
      rw [hfind] at hn
      exact (Except.ok.inj hn).symm
    | some s =>
      rw [hfind] at hn
      cases hn

namespace Widths

/-- A component whose input has the width of its first output in another spelling, and not the width of its
second output. -/
def main : Signature :=
  Primitives.element "Main" "" ["W"] 1
    [{ Primitives.source "x" "W" with width := .sub (.mul (.const 2) (.param "W")) (.param "W") },
      { Primitives.source "y" "W" with direction := .output },
      { Primitives.source "z" "W" with direction := .output, width := .const 8 }]

def bench : Bench := ⟨⟨main, []⟩, [], []⟩

def wire (output : String) : Wire := ⟨⟨none, output⟩, ⟨none, "x"⟩, none⟩

def input : Endpoint :=
  ⟨⟨none, "x"⟩, (LinearForm.symbol "W" 0).scale 2 - .symbol "W" 0, (Primitives.source "x" "W").interval⟩

def output (name : String) (width : LinearForm) : Endpoint :=
  ⟨⟨none, name⟩, width, (Primitives.source name "W").interval⟩

theorem endpoints : bench.endpoint (wire "y").dest .sink none = .ok (some (output "y" (.symbol "W" 0)), []) ∧
    bench.endpoint (wire "z").dest .sink none = .ok (some (output "z" (.const 8)), []) ∧
    bench.endpoint ⟨none, "x"⟩ .source none = .ok (some input, []) := ⟨rfl, rfl, rfl⟩

end Widths

/-- In the sample a wire may lead from `2*W - W` to `W` but not to `8`. A product may have a factor in which
`W` cancels, but not twice the factor `W`; and `2*W - W` has no value without one for `W`. -/
theorem exact_linearization_widths :
    (∃ ws found, Widths.bench.connect {} (Widths.wire "y") = .ok (ws, found) ∧
      ∀ d ∈ found, d.kind ≠ .widthMismatch) ∧
    (∃ ws found, Widths.bench.connect {} (Widths.wire "z") = .ok (ws, found) ∧
      ∃ d ∈ found, d.kind = .widthMismatch) ∧
    (∃ f, (Expr.mul (.sub (.param "W") (.param "W")) (.event "G")).linearize = .ok f ∧
      ∀ ρ, f.eval ρ = 0) ∧
    (Expr.mul (.param "W") (.param "W")).Entangled ∧
    ∃ s, Widths.input.width.eval? [("V", 3)] = .error s := by
  obtain ⟨hexpr, hsame, hwire, heval⟩ := exact_linearization
  obtain ⟨hy, hz, hx⟩ := Widths.endpoints
  have hvalue : ∀ ρ, Widths.input.width.eval ρ = ρ "W" := by
    intro ρ
    simp only [Widths.input, LinearForm.eval_sub, LinearForm.eval_scale, LinearForm.eval_symbol]
    ring
  refine ⟨?_, ?_, ?_, ?_, ?_⟩
  · obtain ⟨ws, found, hconnect, hiff, -⟩ := hwire _ {} (Widths.wire "y") _ _ hy hx rfl
    refine ⟨ws, found, hconnect, hiff.2 fun ρ => ?_⟩
    rw [hvalue, Widths.output, LinearForm.eval_symbol, add_zero]
  · obtain ⟨ws, found, hconnect, hiff, -⟩ := hwire _ {} (Widths.wire "z") _ _ hz hx rfl
    refine ⟨ws, found, hconnect, ?_⟩
    by_contra hnone
    push Not at hnone
    have h := hiff.1 hnone fun _ => 0
    rw [hvalue, Widths.output, LinearForm.eval_const] at h
    exact absurd h (by decide)
  · obtain ⟨-, -, hform⟩ := hexpr (.mul (.sub (.param "W") (.param "W")) (.event "G"))
    refine ⟨_, rfl, fun ρ => ?_⟩
    rw [(hform _ rfl).2.2 ρ]
    simp [Expr.eval]
  · exact ((hexpr (.mul (.param "W") (.param "W"))).2.1 _ rfl).2
  · refine (heval Widths.input.width [("V", 3)]).1.2 ⟨"W", ?_, rfl⟩
    rw [LinearForm.coeff_eq, hvalue, hvalue]
    decide

end Chronogram
