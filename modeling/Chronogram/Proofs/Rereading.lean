import Chronogram.Proofs.Recognition
import Chronogram.Proofs.Spelling

/-! Declarations and statements are read back from their texts. A reader takes the tokens of a phrase for
the phrase, whatever stands behind them, unless that is a mark with which the phrase would go on. -/

namespace Chronogram

open Token

namespace Time

/-- The tokens of a time, in which an offset of zero may be left out. -/
inductive Writes : List Token → Time → Prop
  | bare (event : String) : Writes [.event event] ⟨event, 0⟩
  | later (event : String) (n : Nat) : Writes [.event event, .mark .plus, .number n] ⟨event, n⟩
  | earlier (event : String) (n : Nat) : Writes [.event event, .mark .minus, .number n] ⟨event, -n⟩

theorem writes_tokens (t : Time) : Writes t.tokens t := by
  obtain ⟨event, offset⟩ := t
  unfold tokens offsetTokens
  split
  next hpos =>
    obtain ⟨n, rfl⟩ := Int.eq_ofNat_of_zero_le (le_of_lt hpos)
    exact .later event n
  · split
    next hneg =>
      obtain ⟨n, rfl⟩ := Int.eq_negSucc_of_lt_zero hneg
      exact .earlier event (n + 1)
    next hpos hneg =>
      obtain rfl : offset = 0 := le_antisymm (not_lt.1 hpos) (not_lt.1 hneg)
      exact .bare event

end Time

namespace PortRef

inductive Writes : List Token → PortRef → Prop
  | own (port : String) : Writes [.word port] ⟨none, port⟩
  | called (invocation port : String) :
    Writes [.word invocation, .mark .dot, .word port] ⟨some invocation, port⟩

theorem writes_iff {ts : List Token} {r : PortRef} : Writes ts r ↔ ts = r.tokens := by
  constructor
  · rintro (_ | _)
    · rfl
    · rfl
  · rintro rfl
    obtain ⟨invocation, port⟩ := r
    cases invocation with
    | none => exact .own port
    | some i => exact .called i port

end PortRef

namespace Invocation

/-- The tokens of the inputs of an invocation, which may be left out. -/
inductive WritesInputs : List Token → Option (List PortRef) → Prop
  | absent : WritesInputs [] none
  | listed {items : List (List Token)} {refs : List PortRef} (h : List.Forall₂ PortRef.Writes items refs) :
    WritesInputs (between .openParen .closeParen items) (some refs)

/-- The tokens of an invocation, with one time at least. -/
inductive Writes : List Token → Invocation → Prop
  | triggers (name target : String) {items : List (List Token)} {times : List Time} {us : List Token}
    {inputs : Option (List PortRef)} (hne : items ≠ []) (htimes : List.Forall₂ Time.Writes items times)
    (hinputs : WritesInputs us inputs) :
    Writes (.word name :: .mark .define :: .word target :: .mark .less ::
      (separated items ++ .mark .greater :: us)) { name, target, times, inputs }

theorem writes_tokens {i : Invocation} (hne : i.times ≠ []) : Writes i.tokens { i with loc := none } := by
  have htimes : List.Forall₂ Time.Writes (i.times.map (·.tokens)) i.times :=
    List.forall₂_map_left_iff.2 (List.forall₂_same.2 fun t _ => t.writes_tokens)
  refine .triggers i.name i.target (by simpa using hne) htimes ?_
  cases i.inputs with
  | none => exact .absent
  | some refs =>
    exact .listed (List.forall₂_map_left_iff.2 (List.forall₂_same.2 fun r _ => PortRef.writes_iff.2 rfl))

end Invocation

namespace Connection

inductive Writes : List Token → Connection → Prop
  | wires {us vs : List Token} {dest src : PortRef} (hdest : PortRef.Writes us dest)
    (hsrc : PortRef.Writes vs src) :
    Writes (us ++ .mark .becomes :: vs) { dest, src }

theorem writes_tokens (c : Connection) : Writes c.tokens { c with loc := none } :=
  .wires (PortRef.writes_iff.2 rfl) (PortRef.writes_iff.2 rfl)

end Connection

namespace Reader

variable {α β : Type} {p q : Reader α} {f : α → Reader β} {a : α} {b : β} {stops stops' : List Mark}
  {t : Token} {ts us rest : List Token}

def Clear (stops : List Mark) (rest : List Token) : Prop := ∀ m ∈ stops, rest.head? ≠ some (.mark m)

theorem clear_nil (stops : List Mark) : Clear stops [] := by simp [Clear]

theorem Clear.mono (h : Clear stops rest) (hsub : stops' ⊆ stops) : Clear stops' rest :=
  fun m hm => h m (hsub hm)

/-- The reader takes the tokens for the value, unless they go on with one of the marks. -/
def Takes (p : Reader α) (stops : List Mark) (ts : List Token) (a : α) : Prop :=
  ∀ rest, Clear stops rest → p (ts ++ rest) = .ok (some (a, rest))

/-- The reader finds that the tokens do not start with what it reads. -/
def Refuses (p : Reader α) (ts : List Token) : Prop := p ts = .ok none

theorem Takes.mono (h : p.Takes stops ts a) (hsub : stops ⊆ stops') : p.Takes stops' ts a :=
  fun rest hrest => h rest (hrest.mono hsub)

theorem bind_eq (h : p ts = .ok (some (a, rest))) : (p >>= f) ts = f a rest := by
  simp only [Bind.bind, h]

theorem takes_pure (a : α) : Takes (pure a : Reader α) [] [] a := fun _ _ => rfl

theorem Takes.then (hp : p.Takes [] ts a) (hf : (f a).Takes stops us b) :
    (p >>= f).Takes stops (ts ++ us) b := by
  intro rest hrest
  rw [List.append_assoc, bind_eq (hp _ (by simp [Clear])), hf rest hrest]

theorem Takes.next (hp : p.Takes [] [t] a) (hf : (f a).Takes stops us b) :
    (p >>= f).Takes stops (t :: us) b := hp.then hf

/-- One reader after the other, where the second starts with a token at which the first ends. -/
theorem Takes.bind (hp : p.Takes stops ts a) (hf : (f a).Takes stops' (t :: us) b)
    (ht : ∀ m ∈ stops, t ≠ .mark m) : (p >>= f).Takes stops' (ts ++ t :: us) b := by
  intro rest hrest
  have hclear : Clear stops (t :: us ++ rest) := fun m hm => by simpa using ht m hm
  rw [List.append_assoc, bind_eq (hp _ hclear), hf rest hrest]

theorem Takes.finish (hp : p.Takes stops ts a) (hf : (f a).Takes [] [] b) :
    (p >>= f).Takes stops ts b := by
  intro rest hrest
  rw [bind_eq (hp rest hrest)]
  exact hf rest (by simp [Clear])

theorem Takes.map (hp : p.Takes stops ts a) (g : α → β) :
    Takes (p >>= fun a => pure (g a) : Reader β) stops ts (g a) := hp.finish (takes_pure (g a))

theorem Takes.optional (hp : p.Takes stops ts a) : (optional p).Takes stops ts (some a) := by
  intro rest hrest
  rw [Reader.optional, hp rest hrest]

theorem takes_absent (h : ∀ rest, Clear stops rest → p.Refuses rest) :
    (Reader.optional p).Takes stops [] none := by
  intro rest hrest
  rw [List.nil_append, Reader.optional, h rest hrest]

theorem Takes.left (hp : p.Takes stops ts a) (q : Reader α) : (either p q).Takes stops ts a := by
  intro rest hrest
  rw [either, hp rest hrest]

theorem Takes.right (hq : q.Takes stops ts a) (hp : ∀ rest, Clear stops rest → p.Refuses (ts ++ rest)) :
    (either p q).Takes stops ts a := by
  intro rest hrest
  rw [either, hp rest hrest, hq rest hrest]

theorem Refuses.bind (h : p.Refuses ts) : (p >>= f).Refuses ts := by
  simp only [Refuses, Bind.bind]
  rw [h]

theorem Takes.refuses (hp : p.Takes [] [t] a) (hf : (f a).Refuses us) : (p >>= f).Refuses (t :: us) := by
  rw [Refuses, ← List.singleton_append, bind_eq (hp us (by simp [Clear])), hf]

theorem Refuses.either (hp : p.Refuses ts) (hq : q.Refuses ts) : (either p q).Refuses ts := by
  rw [Refuses, Reader.either, hp, hq]

theorem takes_mark (m : Mark) : (mark m).Takes [] [.mark m] () := by
  intro rest _
  simp [mark]

theorem refuses_mark {m : Mark} (h : rest.head? ≠ some (.mark m)) : (mark m).Refuses rest := by
  unfold Refuses mark
  split
  next k ts =>
    rw [if_neg]
    rintro rfl
    exact h rfl
  · rfl

theorem takes_word (w : String) : word.Takes [] [.word w] w := fun _ _ => rfl

theorem takes_number (n : Nat) : number.Takes [] [.number n] n := fun _ _ => rfl

theorem takes_eventName (x : String) : eventName.Takes [] [.event x] x := fun _ _ => rfl

theorem takes_relation (r : Relation) : relation.Takes [] [.mark r.mark] r := by
  cases r <;> exact fun _ _ => rfl

theorem takes_derived {e : Expr} (h : Expr.Derives .sum ts e) : expr.Takes [.plus, .minus, .star] ts e := by
  intro rest hrest
  have hread := h.reads rest (4 * (ts ++ rest).length + 4) (e, rest)
    (hrest _ (by simp)) (by simp) fun m _ =>
      Expr.moreSummands_of_ne_sign (hrest _ (by simp)) (hrest _ (by simp)) m
  rw [expr, Expr.read, hread]

theorem takes_expr (e : Expr) : expr.Takes [.plus, .minus, .star] e.tokens e.regrouped :=
  takes_derived e.derived.sum

section List

variable {items : List (List Token)} {as : List α}

theorem separated_cons (items : List Token) (more : List (List Token)) :
    separated (items :: more) = items ++ more.flatMap (.mark .comma :: ·) := by
  induction more generalizing items with
  | nil => simp [separated]
  | cons next more ih =>
    have hnext := ih next
    simp only [separated] at hnext ⊢
    rw [List.intercalate_cons_cons, hnext, List.flatMap_cons]
    simp

theorem clear_more (hcomma : .comma ∉ stops) (hrest : Clear (.comma :: stops) rest)
    (items : List (List Token)) : Clear stops (items.flatMap (.mark .comma :: ·) ++ rest) := by
  cases items with
  | nil => exact hrest.mono (by simp)
  | cons next items =>
    intro m hm
    simp only [List.flatMap_cons, List.cons_append, List.head?_cons, ne_eq, Option.some.injEq,
      Token.mark.injEq]
    rintro rfl
    exact hcomma hm

theorem length_le_flatMap (items : List (List Token)) :
    items.length ≤ (items.flatMap (.mark .comma :: ·)).length := by
  induction items with
  | nil => simp
  | cons next items ih =>
    simp only [List.flatMap_cons, List.length_append, List.length_cons]
    omega

theorem takes_more (h : List.Forall₂ (p.Takes stops) items as) (hcomma : .comma ∉ stops) {fuel : Nat}
    (hfuel : items.length ≤ fuel) :
    (more p fuel).Takes (.comma :: stops) (items.flatMap (.mark .comma :: ·)) as := by
  induction h generalizing fuel with
  | nil =>
    intro rest hrest
    cases fuel with
    | zero => rfl
    | succ fuel =>
      have hnone : (optional (mark .comma >>= fun _ => p)).Takes (.comma :: stops) [] none :=
        takes_absent fun rest hrest => (refuses_mark (hrest .comma (by simp))).bind
      exact bind_eq (hnone rest hrest)
  | cons hitem _ ih =>
    intro rest hrest
    cases fuel with
    | zero => simp at hfuel
    | succ fuel =>
      have hnext := ((takes_mark .comma).then (f := fun _ => p) hitem).optional
      have hothers := ih (by simpa using hfuel) rest hrest
      rw [List.flatMap_cons, List.append_assoc, more]
      refine (bind_eq (hnext _ (clear_more hcomma hrest _))).trans ?_
      exact (bind_eq hothers).trans rfl

theorem takes_list (h : List.Forall₂ (p.Takes stops) items as) (hcomma : .comma ∉ stops)
    (hne : items ≠ []) : (list p).Takes (.comma :: stops) (separated items) as := by
  intro rest hrest
  cases h with
  | nil => exact absurd rfl hne
  | @cons item a items as hitem hitems =>
    rw [separated_cons, List.append_assoc]
    refine (bind_eq (hitem _ (clear_more hcomma hrest _))).trans ?_
    have hfuel : items.length ≤ (item ++ (items.flatMap (Token.mark .comma :: ·) ++ rest)).length := by
      have hlength := length_le_flatMap items
      simp only [List.length_append]
      omega
    exact (bind_eq (takes_more hitems hcomma hfuel rest hrest)).trans rfl

/-- Items between two marks. Where there are none, the second mark is not taken for one. -/
theorem takes_enclosed (h : List.Forall₂ (p.Takes stops) items as) (hcomma : .comma ∉ stops)
    (first last : Mark) (hlast : last ∉ Mark.comma :: stops)
    (hnone : ∀ rest, p.Refuses (.mark last :: rest)) :
    (enclosed first last p).Takes [] (between first last items) as := by
  have hend : ∀ m ∈ Mark.comma :: stops, Token.mark last ≠ .mark m := by
    rintro m hm heq
    cases heq
    exact hlast hm
  refine (takes_mark first).then ?_
  have hclose := (takes_mark last).map fun _ => as
  cases h with
  | nil =>
    intro rest _
    have hrefuses : (list p).Refuses (.mark last :: rest) := Refuses.bind (hnone rest)
    have habsent : optional (list p) (.mark last :: rest) = .ok (some (none, .mark last :: rest)) := by
      rw [optional, hrefuses]
    exact (bind_eq habsent).trans (hclose rest (by simp [Clear]))
  | cons hitem hitems =>
    have hlist := (takes_list (.cons hitem hitems) hcomma (by simp)).optional
    exact hlist.bind hclose hend

end List

theorem whole_eq_ok (hp : p.Takes stops ts a) {s : String} {goesOn : Char → Bool}
    (hs : Prints goesOn s ts) (what : Phrase) : p.whole what s = .ok a := by
  have hread := hp [] (clear_nil stops)
  rw [List.append_nil] at hread
  rw [whole, scan_of_prints hs, hread]

abbrev sign : Reader Int := either (do mark .plus; return 1) (do mark .minus; return -1)

theorem takes_sign {m : Mark} {k : Int} (h : sign.Takes [] [.mark m] k) (n : Nat) :
    (optional (do let s ← sign; return s * (← number))).Takes [.plus, .minus] [.mark m, .number n]
      (some (k * n)) :=
  ((h.then ((takes_number n).map fun n => k * n)).mono (by simp)).optional

theorem takes_plus : sign.Takes [] [.mark .plus] 1 := ((takes_mark .plus).map fun _ => 1).left _

theorem takes_minus : sign.Takes [] [.mark .minus] (-1) :=
  ((takes_mark .minus).map fun _ => -1).right fun _ _ => (refuses_mark (by simp)).bind

theorem takes_no_offset :
    (optional (do let s ← sign; return s * (← number))).Takes [.plus, .minus] [] none := by
  refine takes_absent fun rest hrest => Refuses.bind (Refuses.either ?_ ?_)
  · exact (refuses_mark (hrest .plus (by simp))).bind
  · exact (refuses_mark (hrest .minus (by simp))).bind

theorem takes_time {t : Time} (h : Time.Writes ts t) : time.Takes [.plus, .minus] ts t := by
  cases h with
  | bare event => exact (takes_eventName event).next (takes_no_offset.map _)
  | later event n =>
    have hoffset := (takes_sign takes_plus n).map fun o => (⟨event, o.getD 0⟩ : Time)
    rw [one_mul] at hoffset
    exact (takes_eventName event).next hoffset
  | earlier event n =>
    have hoffset := (takes_sign takes_minus n).map fun o => (⟨event, o.getD 0⟩ : Time)
    rw [neg_one_mul] at hoffset
    exact (takes_eventName event).next hoffset

theorem takes_interval (i : Interval) : interval.Takes [] i.tokens i := by
  have hbetween : Interval.between i.start i.stop = .ok i := by
    rw [Interval.between, Interval.between?, dif_pos i.nonempty]
  refine (takes_mark .openBracket).next ((takes_time i.start.writes_tokens).bind ((takes_mark .comma).next
    ((takes_time i.stop.writes_tokens).bind (((takes_mark .closeParen).left _).next ?_) (by simp))) (by simp))
  rw [hbetween]
  exact takes_pure i

theorem takes_clause (c : Clause) :
    clause.Takes [.plus, .minus, .star] c.tokens
      { lhs := c.lhs.regrouped, relation := c.relation, rhs := c.rhs.regrouped } := by
  refine (takes_expr c.lhs).bind ((takes_relation c.relation).next ((takes_expr c.rhs).map _)) ?_
  cases c.relation <;> simp [Relation.mark]

theorem takes_event (e : Event) :
    event.Takes [.plus, .minus, .star] e.tokens { name := e.name, delay := e.delay.regrouped } :=
  (takes_eventName e.name).next ((takes_mark .colon).next ((takes_expr e.delay).map _))

theorem takes_port (p : Port) :
    port.Takes [.plus, .minus, .star] p.tokens (p.name, p.interval, p.width.regrouped) :=
  (takes_word p.name).next ((takes_mark .colon).next
    ((takes_interval p.interval).then ((takes_expr p.width).map _)))

theorem takes_parameter (p : Parameter) :
    parameter.Takes [.becomes, .plus, .minus, .star] p.tokens
      { name := p.name, default := p.default.map (·.regrouped) } := by
  unfold Parameter.tokens
  cases hdefault : p.default with
  | none =>
    have hsign : (optional (mark .question)).Takes [.question] [] none :=
      takes_absent fun _ hrest => refuses_mark (hrest .question (by simp))
    have hnone : (optional (mark .becomes >>= fun _ => expr)).Takes [.becomes] [] none :=
      takes_absent fun _ hrest => (refuses_mark (hrest .becomes (by simp))).bind
    exact hsign.bind ((takes_word p.name).next
      ((hnone.mono (by simp)).finish (takes_pure _))) (by simp)
  | some e =>
    have hsome := ((takes_mark .becomes).next (f := fun _ => expr) (takes_expr e)).optional
    exact (takes_mark .question).optional.next ((takes_word p.name).next
      ((hsome.mono (by simp)).finish (takes_pure _)))

theorem takes_portRef {r : PortRef} (h : PortRef.Writes ts r) : portRef.Takes [.dot] ts r := by
  cases h with
  | own port =>
    have hnone : (optional (mark .dot >>= fun _ => word)).Takes [.dot] [] none :=
      takes_absent fun _ hrest => (refuses_mark (hrest .dot (by simp))).bind
    exact (takes_word port).next (hnone.finish (takes_pure _))
  | called i port =>
    have hsome := ((takes_mark .dot).next (f := fun _ => word) (takes_word port)).optional
    exact (takes_word i).next ((hsome.mono (by simp)).finish (takes_pure _))

/-- An expression is not the name of an argument, unless an equals sign follows. -/
theorem refuses_named {g : String → Reader α} {e : Expr} (h : Expr.Derives .sum ts e)
    (hrest : Clear [.becomes] rest) :
    (word >>= fun name => mark .becomes >>= fun _ => g name).Refuses (ts ++ rest) := by
  have harithmetic := h.isArithmetic
  cases ts with
  | nil => exact absurd rfl h.ne_nil
  | cons t ts =>
    rw [List.forall_mem_cons] at harithmetic
    have hhead : (ts ++ rest).head? ≠ some (.mark .becomes) := by
      cases ts with
      | nil => exact hrest .becomes (by simp)
      | cons u ts =>
        intro hu
        obtain rfl : u = .mark .becomes := by simpa using hu
        simpa [isArithmetic] using harithmetic.2 _ List.mem_cons_self
    cases t with
    | word w => exact (takes_word w).refuses (refuses_mark hhead).bind
    | _ => rfl

theorem setNamed_of_not_mem {named : List (String × Expr)} {n : String} (h : n ∉ named.map (·.1))
    (e : Expr) : setNamed named n e = named ++ [(n, e)] := by
  rw [setNamed, if_neg]
  simpa using h

section Collect

/-! The reader goes through the arguments and keeps those that have a name. -/

variable {keep : List (String × Expr) → Option String × Expr → List (String × Expr)}

theorem foldl_positional (hnone : ∀ named e, keep named (none, e) = named) (named : List (String × Expr))
    (args : List Expr) : (args.map fun e => (none, e)).foldl keep named = named := by
  induction args with
  | nil => rfl
  | cons e args ih => rw [List.map_cons, List.foldl_cons, hnone, ih]

theorem foldl_named (hsome : ∀ named n e, keep named (some n, e) = setNamed named n e)
    (named more : List (String × Expr)) (h : ((named ++ more).map (·.1)).Nodup) :
    (more.map fun a => (some a.1, a.2)).foldl keep named = named ++ more := by
  induction more generalizing named with
  | nil => simp
  | cons a more ih =>
    have hnew : a.1 ∉ named.map (·.1) := by
      rw [List.map_append, List.map_cons] at h
      exact fun ha => List.disjoint_of_nodup_append h ha List.mem_cons_self
    rw [List.map_cons, List.foldl_cons, hsome, setNamed_of_not_mem hnew, ih _ (by simpa using h)]
    simp

theorem foldl_collect (hnone : ∀ named e, keep named (none, e) = named)
    (hsome : ∀ named n e, keep named (some n, e) = setNamed named n e)
    (named : List (String × Expr)) (arguments : List (Option String × Expr)) :
    arguments.foldl keep named =
      arguments.foldl (fun named a => a.1.elim named fun n => setNamed named n a.2) named := by
  refine List.foldl_ext _ _ _ fun named a _ => ?_
  obtain ⟨n, e⟩ := a
  cases n with
  | none => exact hnone named e
  | some n => exact hsome named n e

end Collect

end Reader

namespace Instantiation

/-- The tokens of an argument, which may have a name. -/
inductive WritesArgument : List Token → Option String × Expr → Prop
  | positional {ts : List Token} {e : Expr} (h : Expr.Derives .sum ts e) : WritesArgument ts (none, e)
  | named {ts : List Token} {e : Expr} (name : String) (h : Expr.Derives .sum ts e) :
    WritesArgument (.word name :: .mark .becomes :: ts) (some name, e)

/-- The tokens of an instantiation, with its arguments in the order in which they are written. -/
inductive Writes : List Token → String → String → List (Option String × Expr) → Prop
  | bare (name component : String) :
    Writes [.word name, .mark .define, .word "new", .word component] name component []
  | listed (name component : String) {items : List (List Token)} {arguments : List (Option String × Expr)}
    (h : List.Forall₂ WritesArgument items arguments) :
    Writes (.word name :: .mark .define :: .word "new" :: .word component ::
      between .openBracket .closeBracket items) name component arguments

/-- What is kept of written arguments: those without a name in their order, and of those with one the last of
each name. -/
def collected (name component : String) (arguments : List (Option String × Expr)) : Instantiation where
  name
  component
  args := arguments.filterMap fun a => if a.1.isNone then some a.2 else none
  named := arguments.foldl (fun named a => a.1.elim named fun n => Reader.setNamed named n a.2) []

def regrouped (i : Instantiation) : Instantiation where
  name := i.name
  component := i.component
  args := i.args.map (·.regrouped)
  named := i.named.map fun a => (a.1, a.2.regrouped)
  loc := i.loc

theorem writesArgument (a : Option String × Expr) : WritesArgument (argumentTokens a) (a.1, a.2.regrouped) := by
  obtain ⟨name, e⟩ := a
  cases name with
  | none => exact .positional e.derived.sum
  | some name => exact .named name e.derived.sum

theorem arguments_regrouped (i : Instantiation) :
    i.arguments.map (fun a => (a.1, a.2.regrouped)) = i.regrouped.arguments := by
  simp [arguments, regrouped, Function.comp_def]

theorem writes_tokens (i : Instantiation) : Writes i.tokens i.name i.component i.regrouped.arguments := by
  rw [← i.arguments_regrouped, tokens]
  split
  next hnil =>
    rw [List.isEmpty_iff.1 hnil]
    exact .bare i.name i.component
  · refine .listed i.name i.component ?_
    rw [List.forall₂_map_left_iff, List.forall₂_map_right_iff]
    exact List.forall₂_same.2 fun a _ => writesArgument a

theorem collected_arguments {i : Instantiation} (h : i.Spelled) :
    collected i.name i.component i.regrouped.arguments = { i.regrouped with loc := none } := by
  have hdistinct : (i.regrouped.named.map (·.1)).Nodup := by
    simpa [regrouped, Function.comp_def] using h.distinct
  have hargs : (i.regrouped.arguments.filterMap fun a => if a.1.isNone then some a.2 else none) =
      i.regrouped.args := by
    simp [arguments, List.filterMap_append, List.filterMap_map]
  rw [collected, hargs, arguments, List.foldl_append, Reader.foldl_positional fun _ _ => rfl,
    Reader.foldl_named (fun _ _ _ => rfl) [] i.regrouped.named hdistinct]
  rfl

end Instantiation

namespace Reader

theorem takes_argument {x : Option String × Expr} (h : Instantiation.WritesArgument ts x) :
    argument.Takes [.becomes, .plus, .minus, .star] ts x := by
  cases h with
  | positional h =>
    have he : expr.Takes [.becomes, .plus, .minus, .star] ts _ := (takes_derived h).mono (by simp)
    exact (he.map _).right fun _ hrest => refuses_named h (hrest.mono (by simp))
  | @named ts _ name h =>
    have he : expr.Takes [.becomes, .plus, .minus, .star] ts _ := (takes_derived h).mono (by simp)
    exact ((takes_word name).next ((takes_mark .becomes).next (he.map _))).left _

theorem takes_arguments {name component : String} {arguments : List (Option String × Expr)}
    (h : Instantiation.Writes ts name component arguments) :
    ∃ us o, ts = .word name :: .mark .define :: .word "new" :: .word component :: us ∧
      (optional (enclosed .openBracket .closeBracket argument)).Takes [.openBracket] us o ∧
      o.getD [] = arguments := by
  cases h with
  | bare =>
    refine ⟨[], none, rfl, ?_, rfl⟩
    exact takes_absent fun _ hrest => (refuses_mark (hrest .openBracket (by simp))).bind
  | @listed _ _ items arguments hitems =>
    have hlist := takes_enclosed (hitems.imp fun _ _ => takes_argument) (by decide) .openBracket
      .closeBracket (by decide) fun rest => Refuses.either rfl (Refuses.bind rfl)
    exact ⟨_, some arguments, rfl, hlist.optional.mono (by simp), rfl⟩

theorem takes_instantiation {name component : String} {arguments : List (Option String × Expr)}
    (h : Instantiation.Writes ts name component arguments) :
    instantiation.Takes [.openBracket] ts (.collected name component arguments) := by
  obtain ⟨us, o, rfl, ho, rfl⟩ := takes_arguments h
  refine (takes_word name).next ((takes_mark .define).next ((takes_word "new").next
    ((takes_word component).next (ho.finish ?_))))
  intro rest _
  exact congrArg (fun named => Except.ok (some (Instantiation.mk name component _ named none, rest)))
    (foldl_collect (fun _ _ => rfl) (fun _ _ _ => rfl) [] (o.getD []))

theorem takes_inputs {inputs : Option (List PortRef)} (h : Invocation.WritesInputs ts inputs) :
    (optional (enclosed .openParen .closeParen portRef)).Takes [.openParen] ts inputs := by
  cases h with
  | absent => exact takes_absent fun _ hrest => (refuses_mark (hrest .openParen (by simp))).bind
  | listed hrefs =>
    have hlist := takes_enclosed (hrefs.imp fun _ _ => takes_portRef) (by decide) .openParen .closeParen
      (by decide) fun rest => Refuses.bind rfl
    exact hlist.optional.mono (by simp)

theorem takes_invocation {i : Invocation} (h : Invocation.Writes ts i) :
    invocation.Takes [.openParen] ts i := by
  cases h with
  | triggers name target hne htimes hinputs =>
    have hlist := takes_list (htimes.imp fun _ _ => takes_time) (by decide) hne
    exact (takes_word name).next ((takes_mark .define).next ((takes_word target).next
      ((takes_mark .less).next (hlist.bind ((takes_mark .greater).next ((takes_inputs hinputs).map _))
        (by simp)))))

theorem takes_connection {c : Connection} (h : Connection.Writes ts c) : connection.Takes [.dot] ts c := by
  cases h with
  | wires hdest hsrc =>
    exact (takes_portRef hdest).bind ((takes_mark .becomes).next ((takes_portRef hsrc).map _)) (by simp)

theorem refuses_define {g : String → Reader α} {c : Connection} (h : Connection.Writes ts c)
    (rest : List Token) :
    (word >>= fun name => mark .define >>= fun _ => g name).Refuses (ts ++ rest) := by
  cases h with
  | wires hdest _ =>
    cases hdest with
    | own port => exact (takes_word port).refuses (refuses_mark (by simp)).bind
    | called i _ => exact (takes_word i).refuses (refuses_mark (by simp)).bind

/-- The keyword is the target of an invocation if times follow. -/
theorem refuses_invocation {i : Invocation} (h : Invocation.Writes ts i) (rest : List Token) :
    instantiation.Refuses (ts ++ rest) := by
  cases h with
  | triggers name target _ _ _ =>
    refine (takes_word name).refuses ((takes_mark .define).refuses ((takes_word target).refuses ?_))
    split
    · rfl
    · exact Refuses.bind rfl

theorem takes_instantiate {name component : String} {arguments : List (Option String × Expr)}
    (h : Instantiation.Writes ts name component arguments) :
    statement.Takes [.openBracket] ts (.instantiate (.collected name component arguments)) :=
  ((takes_instantiation h).map Statement.instantiate).left _

theorem takes_invoke {i : Invocation} (h : Invocation.Writes ts i) :
    statement.Takes [.openParen] ts (.invoke i) :=
  (((takes_invocation h).map Statement.invoke).left _).right fun rest _ => (refuses_invocation h rest).bind

theorem takes_connect {c : Connection} (h : Connection.Writes ts c) :
    statement.Takes [.dot] ts (.connect c) :=
  (((takes_connection h).map Statement.connect).right fun rest _ => (refuses_define h rest).bind).right
    fun rest _ => (refuses_define h rest).bind

end Reader

theorem Time.parse_text {t : Time} (h : isName t.event = true) : Time.parse t.text = .ok t :=
  Reader.whole_eq_ok (Reader.takes_time t.writes_tokens) (Time.prints h) .time

theorem Interval.parse_text {i : Interval} (h : i.Spelled) : Interval.parse i.text = .ok i :=
  Reader.whole_eq_ok (Reader.takes_interval i) (Interval.prints h) .interval

def Parameter.regrouped (p : Parameter) : Parameter := { p with default := p.default.map (·.regrouped) }

theorem Parameter.parse_text {p : Parameter} (h : p.Spelled) (loc : Option Loc) :
    Parameter.parse p.text loc = .ok { p.regrouped with description := "", loc } := by
  have hread := Reader.whole_eq_ok (Reader.takes_parameter p) (Parameter.prints h) .parameter
  rw [Parameter.parse, hread]
  rfl

def Event.regrouped (e : Event) : Event := { e with delay := e.delay.regrouped }

theorem Event.parse_text {e : Event} (h : e.Spelled) (loc : Option Loc) :
    Event.parse e.text loc = .ok { e.regrouped with description := "", loc } := by
  have hread := Reader.whole_eq_ok (Reader.takes_event e) (Event.prints h) .event
  rw [Event.parse, hread]
  rfl

def Clause.regrouped (c : Clause) : Clause :=
  { c with lhs := c.lhs.regrouped, rhs := c.rhs.regrouped }

theorem Clause.parse_text {c : Clause} (h : c.Spelled) (loc : Option Loc) :
    Clause.parse c.text loc = .ok { c.regrouped with loc } := by
  have hread := Reader.whole_eq_ok (Reader.takes_clause c) (Clause.prints h) .clause
  rw [Clause.parse, hread]
  rfl

namespace Port

def regrouped (p : Port) : Port := { p with width := p.width.regrouped }

/-- Regrouping does not turn a width into a number. -/
theorem checkWidth_regrouped {width : Expr} (h : checkWidth width = .ok width) :
    checkWidth width.regrouped = .ok width.regrouped := by
  cases width with
  | const n => exact h
  | param p | event x | sub l r => rfl
  | add l r =>
    rw [Expr.regrouped]
    cases r.regrouped <;> rfl
  | mul l r =>
    rw [Expr.regrouped]
    cases r.regrouped <;> rfl

theorem parse_text {p : Port} (h : p.Spelled) (hwidth : checkWidth p.width = .ok p.width)
    (loc : Option Loc) :
    Port.parse p.text p.direction.text loc = .ok { p.regrouped with description := "", loc } := by
  have hread := Reader.whole_eq_ok (Reader.takes_port p) (Port.prints h) .port
  have hdirection : Direction.ofText p.direction.text = .ok p.direction := by
    cases p.direction with
    | input => exact Fallible.toOption_eq_some.1 (by decide +kernel)
    | output => exact Fallible.toOption_eq_some.1 (by decide +kernel)
  rw [Port.parse, hread]
  simp only [hdirection, checkWidth_regrouped hwidth, Bind.bind, Except.bind]
  rfl

end Port

namespace Statement

/-- All names are identifiers, and an invocation has at least one time. -/
def Printable : Statement → Prop
  | instantiate i => i.Spelled
  | invoke i => i.Spelled ∧ i.times ≠ []
  | connect c => c.Spelled

def regrouped : Statement → Statement
  | instantiate i => instantiate i.regrouped
  | invoke i => invoke i
  | connect c => connect c

theorem parse_text {s : Statement} (h : s.Printable) (loc : Option Loc) :
    Statement.parse s.text loc = .ok (s.regrouped.withLoc loc) := by
  suffices hread : Reader.statement.whole .statement s.text = .ok (s.regrouped.withLoc none) by
    rw [Statement.parse, hread]
    cases s <;> rfl
  cases s with
  | instantiate i =>
    have hread := Reader.takes_instantiate i.writes_tokens
    rw [Instantiation.collected_arguments h] at hread
    exact Reader.whole_eq_ok hread (Instantiation.prints h) _
  | invoke i =>
    exact Reader.whole_eq_ok (Reader.takes_invoke (Invocation.writes_tokens h.2)) (Invocation.prints h.1 h.2) _
  | connect c => exact Reader.whole_eq_ok (Reader.takes_connect c.writes_tokens) (Connection.prints h) _

end Statement

/-- What is declared and stated is read back from its text. An expression comes back regrouped, and nothing
else changes: a time keeps its offset, an argument its name or the lack of it, and no inputs stay different
from an empty list of them. A port is one that passed the check of its width. -/
theorem declarations_reread (loc : Option Loc) :
    (∀ e : Expr, e.Plain → Expr.parse e.text = .ok e.regrouped) ∧
      (∀ t : Time, isName t.event = true → Time.parse t.text = .ok t) ∧
      (∀ i : Interval, i.Spelled → Interval.parse i.text = .ok i) ∧
      (∀ p : Parameter, p.Spelled →
        Parameter.parse p.text loc = .ok { p.regrouped with description := "", loc }) ∧
      (∀ e : Event, e.Spelled →
        Event.parse e.text loc = .ok { e.regrouped with description := "", loc }) ∧
      (∀ p : Port, p.Spelled → Port.checkWidth p.width = .ok p.width →
        Port.parse p.text p.direction.text loc = .ok { p.regrouped with description := "", loc }) ∧
      (∀ c : Clause, c.Spelled → Clause.parse c.text loc = .ok { c.regrouped with loc }) ∧
      (∀ i : Instantiation, i.Spelled →
        Statement.parse i.text loc = .ok (.instantiate { i.regrouped with loc })) ∧
      (∀ i : Invocation, i.Spelled → i.times ≠ [] →
        Statement.parse i.text loc = .ok (.invoke { i with loc })) ∧
      ∀ c : Connection, c.Spelled → Statement.parse c.text loc = .ok (.connect { c with loc }) := by
  refine ⟨fun e he => Expr.parse_text he, fun t ht => Time.parse_text ht,
    fun i hi => Interval.parse_text hi, fun p hp => Parameter.parse_text hp loc,
    fun e he => Event.parse_text he loc,
    fun p hp hwidth => Port.parse_text hp hwidth loc, fun c hc => Clause.parse_text hc loc,
    fun i hi => ?_, fun i hi hne => ?_, fun c hc => ?_⟩
  · exact Statement.parse_text (s := .instantiate i) hi loc
  · exact Statement.parse_text (s := .invoke i) ⟨hi, hne⟩ loc
  · exact Statement.parse_text (s := .connect c) hc loc

/-- An instance and a component of the keyword's name, with a positional and a named argument. -/
def Instantiation.renewed : Instantiation where
  name := "new"
  component := "new"
  args := [.const (-8)]
  named := [("W", .add (.param "A") (.add (.param "B") (.const 1)))]

/-- A triggering of the instance of that name, before its event happens. -/
def Invocation.renewed (inputs : Option (List PortRef)) : Invocation :=
  { name := "again", target := "new", times := [⟨"G", -3⟩], inputs }

theorem declarations_reread_new :
    Statement.parse "new := new new[-8, W=A + B + 1]" none =
        .ok (.instantiate { Instantiation.renewed with
          named := [("W", .add (.add (.param "A") (.param "B")) (.const 1))] }) ∧
      Statement.parse "again := new<'G-3>" none = .ok (.invoke (.renewed none)) ∧
      Statement.parse "again := new<'G-3>()" none = .ok (.invoke (.renewed (some []))) := by
  obtain ⟨-, -, -, -, -, -, -, hinstantiate, hinvoke, -⟩ := declarations_reread none
  have hspelled : ∀ inputs, (∀ refs, inputs = some refs → refs = []) →
      (Invocation.renewed inputs).Spelled := by
    intro inputs hinputs
    have hname : isName "again" = true ∧ isName "new" = true ∧ isName "G" = true := by decide
    refine ⟨hname.1, hname.2.1, List.forall_mem_singleton.2 hname.2.2, fun refs hrefs => ?_⟩
    rw [hinputs refs hrefs]
    simp
  refine ⟨?_, ?_, ?_⟩
  · have htext : Instantiation.renewed.text = "new := new new[-8, W=A + B + 1]" := by decide +kernel
    rw [← htext]
    exact hinstantiate .renewed ⟨by decide, by decide, by decide, by decide, by decide, by decide⟩
  · have htext : (Invocation.renewed none).text = "again := new<'G-3>" := by decide +kernel
    rw [← htext]
    exact hinvoke _ (hspelled none (by simp)) (by simp [Invocation.renewed])
  · have htext : (Invocation.renewed (some [])).text = "again := new<'G-3>()" := by decide +kernel
    rw [← htext]
    exact hinvoke _ (hspelled (some []) (by simp)) (by simp [Invocation.renewed])

end Chronogram
