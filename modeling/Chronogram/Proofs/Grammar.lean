import Chronogram.Declaration.Reading
import Chronogram.Proofs.Call
import Mathlib.Data.List.TakeWhile

/-! Names in what is read. Every name in a token list is an identifier, so the names in expressions,
times and statements are, whatever the text is. -/

namespace Chronogram

namespace Token

/-- A name, if the token has one, is an identifier. -/
def Named : Token → Prop
  | word w => isName w = true
  | event e => isName e = true
  | _ => True

theorem isName_ofList {c : Char} (h : isLetter c = true) (cs : List Char) :
    isName (String.ofList (c :: cs.takeWhile isNameChar)) = true := by
  simp only [isName, String.toList_ofList, h, Bool.true_and, List.all_eq_true]
  exact fun d hd => List.mem_takeWhile_imp hd

theorem named_punctuation (c : Char) (cs : List Char) : (punctuation c cs).1.Named := by
  unfold punctuation
  split
  case h_19 =>
    split
    next hd => exact isName_ofList hd _
    · trivial
  all_goals trivial

theorem named_scan (cs : List Char) : ∀ t ∈ scan cs, t.Named := by
  fun_induction scan cs with
  | case1 => simp
  | case2 c cs _ ih => exact ih
  | case3 c cs _ _ ih => exact List.forall_mem_cons.2 ⟨trivial, ih⟩
  | case4 c cs _ _ hc ih => exact List.forall_mem_cons.2 ⟨isName_ofList hc cs, ih⟩
  | case5 c cs _ _ _ ih => exact List.forall_mem_cons.2 ⟨named_punctuation c cs, ih⟩

end Token

def AllNamed (ts : List Token) : Prop := ∀ t ∈ ts, t.Named

theorem AllNamed.tail {t : Token} {ts : List Token} (h : AllNamed (t :: ts)) : AllNamed ts :=
  fun t ht => h t (List.mem_cons_of_mem _ ht)

namespace Expr

theorem Plain.node {l r : Expr} (hl : l.Plain) (hr : r.Plain) :
    (add l r).Plain ∧ (sub l r).Plain ∧ (mul l r).Plain := by
  have hp : ∀ p ∈ l.params ++ r.params, Token.isName p = true := fun p hp =>
    (List.mem_append.1 hp).elim (hl.1 p) (hr.1 p)
  have hx : ∀ x ∈ l.events ++ r.events, Token.isName x = true := fun x hx =>
    (List.mem_append.1 hx).elim (hl.2 x) (hr.2 x)
  exact ⟨⟨hp, hx⟩, ⟨hp, hx⟩, ⟨hp, hx⟩⟩

theorem plain_const (n : Int) : (const n).Plain := ⟨by simp [params], by simp [events]⟩

theorem Plain.negated {e : Expr} (h : e.Plain) : e.negated.Plain := by
  unfold Expr.negated
  split
  · exact plain_const _
  · exact ((plain_const 0).node h).2.1

/-- What is read is a plain expression and leaves tokens with identifiers. -/
def Reads (r : Option (Expr × List Token)) : Prop := ∀ e rest, r = some (e, rest) → e.Plain ∧ AllNamed rest

theorem Reads.map {r : Option (Expr × List Token)} (hr : Reads r)
    {f : Expr × List Token → Expr × List Token}
    (hf : ∀ e rest, e.Plain → AllNamed rest → (f (e, rest)).1.Plain ∧ AllNamed (f (e, rest)).2) :
    Reads (r.map f) := by
  intro e rest h
  obtain ⟨⟨e', rest'⟩, hr', hfe⟩ := Option.map_eq_some_iff.1 h
  obtain ⟨he, hrest⟩ := hr e' rest' hr'
  have := hf e' rest' he hrest
  rwa [hfe] at this

/-- What is read so far stays a plain expression when more is read, up to tokens with identifiers. -/
def Extends (more : Expr → List Token → Expr × List Token) : Prop :=
  ∀ e ts, e.Plain → AllNamed ts → (more e ts).1.Plain ∧ AllNamed (more e ts).2

/-- All readers that go down to one depth of nesting read plain expressions. -/
structure PlainAt (fuel : Nat) : Prop where
  primary : ∀ ts, AllNamed ts → Reads (readPrimary fuel ts)
  signed : ∀ ts, AllNamed ts → Reads (readSigned fuel ts)
  product : ∀ ts, AllNamed ts → Reads (readProduct fuel ts)
  factors : Extends (moreFactors fuel)
  sum : ∀ ts, AllNamed ts → Reads (readSum fuel ts)
  summands : Extends (moreSummands fuel)

theorem plainAt_zero : PlainAt 0 where
  primary _ _ _ _ h := by simp [readPrimary] at h
  signed _ _ _ _ h := by simp [readSigned] at h
  product _ _ _ _ h := by simp [readProduct] at h
  factors _ _ he hts := by simpa [moreFactors] using ⟨he, hts⟩
  sum _ _ _ _ h := by simp [readSum] at h
  summands _ _ he hts := by simpa [moreSummands] using ⟨he, hts⟩

namespace PlainAt

variable {fuel : Nat} (h : PlainAt fuel)

include h

theorem readPrimary_succ {ts : List Token} (hts : AllNamed ts) : Reads (readPrimary (fuel + 1) ts) := by
  intro e rest hread
  unfold readPrimary at hread
  split at hread
  · cases hread
  · cases hread
    exact ⟨plain_const _, hts.tail⟩
  next name ts _ =>
    cases hread
    refine ⟨⟨by simp [params], ?_⟩, hts.tail⟩
    rintro x hx
    obtain rfl : x = name := by simpa [events] using hx
    exact hts (.event x) (by simp)
  next name ts _ =>
    cases hread
    refine ⟨⟨?_, by simp [events]⟩, hts.tail⟩
    rintro p hp
    obtain rfl : p = name := by simpa [params] using hp
    exact hts (.word p) (by simp)
  next hfuel =>
    cases hfuel
    split at hread
    next hr =>
      cases hread
      obtain ⟨he, hrest⟩ := h.sum _ hts.tail _ _ hr
      exact ⟨he, hrest.tail⟩
    · cases hread
  · cases hread

theorem readSigned_succ {ts : List Token} (hts : AllNamed ts) : Reads (readSigned (fuel + 1) ts) := by
  unfold readSigned
  split
  · exact fun e rest hread => absurd hread (by simp)
  next hfuel =>
    cases hfuel
    exact (h.signed _ hts.tail).map fun e rest he hrest => ⟨he.negated, hrest⟩
  next hfuel _ =>
    cases hfuel
    exact h.primary _ hts

theorem moreFactors_succ : Extends (moreFactors (fuel + 1)) := by
  intro e ts he hts
  unfold moreFactors
  split
  next hfuel =>
    cases hfuel
    split
    next hr =>
      obtain ⟨hf, hrest⟩ := h.signed _ hts.tail _ _ hr
      exact h.factors _ _ (he.node hf).2.2 hrest
    · exact ⟨he, hts⟩
  · exact ⟨he, hts⟩

theorem moreSummands_succ : Extends (moreSummands (fuel + 1)) := by
  intro e ts he hts
  unfold moreSummands
  split
  next hfuel =>
    cases hfuel
    split
    next hr =>
      obtain ⟨hf, hrest⟩ := h.product _ hts.tail _ _ hr
      exact h.summands _ _ (he.node hf).1 hrest
    · exact ⟨he, hts⟩
  next hfuel =>
    cases hfuel
    split
    next hr =>
      obtain ⟨hf, hrest⟩ := h.product _ hts.tail _ _ hr
      exact h.summands _ _ (he.node hf).2.1 hrest
    · exact ⟨he, hts⟩
  · exact ⟨he, hts⟩

theorem succ : PlainAt (fuel + 1) where
  primary _ hts := h.readPrimary_succ hts
  signed _ hts := h.readSigned_succ hts
  product ts hts := by
    unfold readProduct
    exact (h.signed ts hts).map h.factors
  factors := h.moreFactors_succ
  sum ts hts := by
    unfold readSum
    exact (h.product ts hts).map h.summands
  summands := h.moreSummands_succ

end PlainAt

/-- The readers call each other with less depth, so the depth is what the induction is on. -/
theorem plainAt (fuel : Nat) : PlainAt fuel := by
  induction fuel with
  | zero => exact plainAt_zero
  | succ _ ih => exact ih.succ

theorem reads_read {ts : List Token} (hts : AllNamed ts) : Reads (read ts) := (plainAt _).sum ts hts

end Expr

namespace Reader

variable {α β : Type} {P : α → Prop} {Q : β → Prop}

/-- Whatever the reader reads has the property, and it leaves tokens with identifiers. -/
def Yields (p : Reader α) (P : α → Prop) : Prop :=
  ∀ ts a rest, AllNamed ts → p ts = .ok (some (a, rest)) → P a ∧ AllNamed rest

abbrev Keeps (p : Reader α) : Prop := p.Yields fun _ => True

theorem Yields.mono {p : Reader α} {P' : α → Prop} (hp : p.Yields P) (h : ∀ a, P a → P' a) :
    p.Yields P' := fun ts a rest hts hok =>
  ⟨h a (hp ts a rest hts hok).1, (hp ts a rest hts hok).2⟩

theorem yields_pure {a : α} (ha : P a) : Yields (pure a : Reader α) P := by
  intro ts b rest hts hok
  cases hok
  exact ⟨ha, hts⟩

theorem Yields.bind {p : Reader α} {f : α → Reader β} (hp : p.Yields P)
    (hf : ∀ a, P a → (f a).Yields Q) : (p >>= f).Yields Q := by
  intro ts b rest hts hok
  dsimp only [Bind.bind] at hok
  split at hok
  next a mid ha =>
    obtain ⟨hPa, hmid⟩ := hp ts a mid hts ha
    exact hf a hPa mid b rest hmid hok
  · cases hok
  · cases hok

theorem yields_fail : (fail : Reader α).Yields P := fun _ _ _ _ hok => nomatch hok

theorem yields_broken (cause : Fault) : (broken cause : Reader α).Yields P :=
  fun _ _ _ _ hok => nomatch hok

theorem Yields.either {p q : Reader α} (hp : p.Yields P) (hq : q.Yields P) :
    (either p q).Yields P := by
  intro ts a rest hts hok
  unfold Reader.either at hok
  split at hok
  · exact hq ts a rest hts hok
  · exact hp ts a rest hts hok

theorem Yields.optional {p : Reader α} (hp : p.Yields P) :
    (optional p).Yields fun o => ∀ a, o = some a → P a := by
  intro ts o rest hts hok
  unfold Reader.optional at hok
  split at hok
  · cases hok
    exact ⟨nofun, hts⟩
  next a mid ha =>
    cases hok
    obtain ⟨hPa, hmid⟩ := hp ts a rest hts ha
    exact ⟨fun b hb => Option.some.inj hb ▸ hPa, hmid⟩
  · cases hok

theorem keeps_mark (m : Mark) : (mark m).Keeps := by
  intro ts a rest hts hok
  unfold mark at hok
  split at hok
  · split at hok
    · cases hok
      exact ⟨trivial, hts.tail⟩
    · cases hok
  · cases hok

theorem yields_word : word.Yields fun w => Token.isName w = true := by
  intro ts a rest hts hok
  unfold word at hok
  split at hok
  · cases hok
    exact ⟨hts (.word a) (by simp), hts.tail⟩
  · cases hok

theorem keeps_number : number.Keeps := by
  intro ts a rest hts hok
  unfold number at hok
  split at hok
  · cases hok
    exact ⟨trivial, hts.tail⟩
  · cases hok

theorem yields_eventName : eventName.Yields fun e => Token.isName e = true := by
  intro ts a rest hts hok
  unfold eventName at hok
  split at hok
  · cases hok
    exact ⟨hts (.event a) (by simp), hts.tail⟩
  · cases hok

theorem yields_expr : expr.Yields Expr.Plain := by
  intro ts e rest hts hok
  exact Expr.reads_read hts e rest (Except.ok.inj hok)

theorem keeps_relation : relation.Keeps := by
  intro ts a rest hts hok
  unfold relation at hok
  split at hok
  all_goals first | (cases hok; exact ⟨trivial, hts.tail⟩) | cases hok

theorem Yields.more {p : Reader α} (hp : p.Yields P) (fuel : Nat) :
    (more p fuel).Yields fun as => ∀ a ∈ as, P a := by
  induction fuel with
  | zero => exact yields_pure (by simp)
  | succ fuel ih =>
    refine ((keeps_mark .comma).bind fun _ _ => hp).optional.bind fun o ho => ?_
    cases o with
    | none => exact yields_pure (by simp)
    | some a =>
      refine ih.bind fun as has => yields_pure ?_
      exact List.forall_mem_cons.2 ⟨ho a rfl, has⟩

theorem Yields.list {p : Reader α} (hp : p.Yields P) :
    (list p).Yields fun as => ∀ a ∈ as, P a := by
  intro ts
  have h : (do let a ← p; return a :: (← Reader.more p ts.length) : Reader (List α)).Yields
      fun as => ∀ a ∈ as, P a :=
    hp.bind fun a ha => (hp.more ts.length).bind fun as has =>
      yields_pure (List.forall_mem_cons.2 ⟨ha, has⟩)
  exact h ts

theorem Yields.enclosed {p : Reader α} (hp : p.Yields P) (first last : Mark) :
    (enclosed first last p).Yields fun as => ∀ a ∈ as, P a := by
  refine (keeps_mark first).bind fun _ _ => hp.list.optional.bind fun o ho => ?_
  refine (keeps_mark last).bind fun _ _ => yields_pure ?_
  cases o with
  | none => simp
  | some as => exact ho as rfl

theorem Yields.whole {p : Reader α} (hp : p.Yields P) {what : Phrase} {s : String} {a : α}
    (h : p.whole what s = .ok a) : P a := by
  unfold Reader.whole at h
  split at h
  next b hb =>
    cases h
    exact (hp _ a [] (Token.named_scan _) hb).1
  · cases h
  · cases h

theorem yields_time : time.Yields fun t => Token.isName t.event = true := by
  have hsign : (either (do mark .plus; return (1 : Int)) (do mark .minus; return -1)).Keeps :=
    Yields.either ((keeps_mark .plus).bind fun _ _ => yields_pure trivial)
      ((keeps_mark .minus).bind fun _ _ => yields_pure trivial)
  refine yields_eventName.bind fun event hevent => ?_
  refine Yields.bind (P := fun _ => True) ?_ fun offset _ => yields_pure hevent
  refine Yields.mono (Yields.optional (P := fun _ => True) ?_) fun _ _ => trivial
  exact hsign.bind fun _ _ => keeps_number.bind fun _ _ => yields_pure trivial

theorem keeps_interval : interval.Keeps := by
  refine (keeps_mark _).bind fun _ _ => yields_time.bind fun start _ => ?_
  refine (keeps_mark _).bind fun _ _ => yields_time.bind fun stop _ => ?_
  refine ((keeps_mark _).either (keeps_mark _)).bind fun _ _ => ?_
  split
  · exact yields_pure trivial
  · exact yields_broken _

theorem yields_clause : clause.Yields fun c => c.lhs.Plain ∧ c.rhs.Plain :=
  yields_expr.bind fun _ hl => keeps_relation.bind fun _ _ =>
    yields_expr.bind fun _ hr => yields_pure ⟨hl, hr⟩

theorem yields_parameter : parameter.Yields fun p => ∀ e, p.default = some e → e.Plain := by
  refine (keeps_mark .question).optional.bind fun sign _ => yields_word.bind fun name _ => ?_
  refine ((keeps_mark .becomes).bind fun _ _ => yields_expr).optional.bind fun default hdefault => ?_
  split
  · exact yields_broken _
  · exact yields_pure hdefault

theorem yields_event : event.Yields fun e => e.delay.Plain :=
  yields_eventName.bind fun _ _ => (keeps_mark _).bind fun _ _ =>
    yields_expr.bind fun _ hd => yields_pure hd

theorem yields_port : port.Yields fun p => p.2.2.Plain :=
  yields_word.bind fun _ _ => (keeps_mark _).bind fun _ _ => keeps_interval.bind fun _ _ =>
    yields_expr.bind fun _ hw => yields_pure hw

theorem keeps_portRef : portRef.Keeps := by
  refine yields_word.bind fun _ _ => ?_
  refine ((keeps_mark .dot).bind fun _ _ => yields_word).optional.bind fun tail _ => ?_
  cases tail with
  | none => exact yields_pure trivial
  | some _ => exact yields_pure trivial

theorem yields_argument : argument.Yields fun a => a.2.Plain := by
  refine Yields.either ?_ ?_
  · exact yields_word.bind fun _ _ => (keeps_mark _).bind fun _ _ =>
      yields_expr.bind fun _ he => yields_pure he
  · exact yields_expr.bind fun _ he => yields_pure he

theorem plain_setNamed {named : List (String × Expr)} (hn : ∀ a ∈ named, a.2.Plain) {e : Expr}
    (he : e.Plain) (name : String) : ∀ a ∈ setNamed named name e, a.2.Plain := by
  unfold setNamed
  split
  · intro a ha
    obtain ⟨b, hb, rfl⟩ := List.mem_map.1 ha
    split
    · exact he
    · exact hn b hb
  · intro a ha
    rcases List.mem_append.1 ha with ha | ha
    · exact hn a ha
    · exact List.mem_singleton.1 ha ▸ he

theorem yields_instantiation : instantiation.Yields Instantiation.Plain := by
  refine yields_word.bind fun name _ => (keeps_mark _).bind fun _ _ =>
    yields_word.bind fun keyword _ => ?_
  split
  · exact yields_fail
  · refine yields_word.bind fun component _ => ?_
    refine (yields_argument.enclosed _ _).optional.bind fun arguments hargs => yields_pure ?_
    have hargs : ∀ a ∈ arguments.getD [], a.2.Plain := by
      cases arguments with
      | none => simp
      | some as => exact hargs as rfl
    refine ⟨?_, ?_⟩
    · intro e he
      obtain ⟨a, ha, hae⟩ := List.mem_filterMap.1 he
      split at hae
      · exact Option.some.inj hae ▸ hargs a ha
      · cases hae
    · refine List.foldlRecOn (motive := fun (named : List (String × Expr)) => ∀ a ∈ named, a.2.Plain)
        _ _ (by simp) ?_
      intro named ih a ha
      split
      · exact plain_setNamed ih (hargs a ha) _
      · exact ih

theorem yields_invocation : invocation.Yields Invocation.Plain := by
  refine yields_word.bind fun _ _ => (keeps_mark _).bind fun _ _ => yields_word.bind fun _ _ => ?_
  refine (keeps_mark _).bind fun _ _ => yields_time.list.bind fun times ht => ?_
  refine (keeps_mark _).bind fun _ _ => ?_
  exact (keeps_portRef.enclosed _ _).optional.bind fun _ _ => yields_pure ht

theorem keeps_connection : connection.Keeps :=
  keeps_portRef.bind fun _ _ => (keeps_mark _).bind fun _ _ =>
    keeps_portRef.bind fun _ _ => yields_pure trivial

end Reader

def Statement.Plain : Statement → Prop
  | instantiate i => i.Plain
  | invoke i => i.Plain
  | connect _ => True

theorem Reader.yields_statement : Reader.statement.Yields Statement.Plain :=
  Yields.either (yields_instantiation.bind fun _ h => yields_pure h)
    (Yields.either (yields_invocation.bind fun _ h => yields_pure h)
      (keeps_connection.bind fun _ _ => yields_pure trivial))

structure PortRef.Spelled (r : PortRef) : Prop where
  invocation : ∀ i, r.invocation = some i → Token.isName i = true
  port : Token.isName r.port = true

def Statement.Spelled : Statement → Prop
  | instantiate i => Token.isName i.name = true
  | invoke i => Token.isName i.name = true
  | connect c => c.dest.Spelled

namespace Reader

theorem yields_portRef : portRef.Yields PortRef.Spelled := by
  refine yields_word.bind fun head hhead => ?_
  refine ((keeps_mark .dot).bind fun _ _ => yields_word).optional.bind fun tail htail => ?_
  cases tail with
  | none => exact yields_pure ⟨by simp, hhead⟩
  | some tail => exact yields_pure ⟨by simpa using hhead, htail tail rfl⟩

theorem yields_instantiation_name : instantiation.Yields fun i => Token.isName i.name = true := by
  refine yields_word.bind fun name hname => (keeps_mark _).bind fun _ _ =>
    yields_word.bind fun keyword _ => ?_
  split
  · exact yields_fail
  · exact yields_word.bind fun component _ =>
      (yields_argument.enclosed _ _).optional.bind fun _ _ => yields_pure hname

theorem yields_invocation_name : invocation.Yields fun i => Token.isName i.name = true := by
  refine yields_word.bind fun name hname => (keeps_mark _).bind fun _ _ => yields_word.bind fun _ _ => ?_
  refine (keeps_mark _).bind fun _ _ => yields_time.list.bind fun _ _ => ?_
  refine (keeps_mark _).bind fun _ _ => ?_
  exact (keeps_portRef.enclosed _ _).optional.bind fun _ _ => yields_pure hname

theorem yields_connection_dest : connection.Yields fun c => c.dest.Spelled :=
  yields_portRef.bind fun _ hdest => (keeps_mark _).bind fun _ _ =>
    keeps_portRef.bind fun _ _ => yields_pure hdest

theorem yields_spelled : Reader.statement.Yields Statement.Spelled :=
  Yields.either (yields_instantiation_name.bind fun _ h => yields_pure h)
    (Yields.either (yields_invocation_name.bind fun _ h => yields_pure h)
      (yields_connection_dest.bind fun _ h => yields_pure h))

end Reader

theorem Statement.spelled_of_parse {s : String} {loc : Option Loc} {t : Statement}
    (h : Statement.parse s loc = .ok t) : t.Spelled := by
  simp only [Statement.parse, Fallible.bind_eq_ok, Fallible.pure_eq_ok] at h
  obtain ⟨q, hq, rfl⟩ := h
  have hspelled := Reader.yields_spelled.whole hq
  cases q <;> exact hspelled

end Chronogram
