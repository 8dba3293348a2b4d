import Chronogram.Proofs.Binding
import Chronogram.Proofs.Phrases

/-! Arguments from the text to the bindings. What is written by position is bound to the parameter at its place,
and a parameter that is written by position and by name is complained about. What is written by name is
kept under its name, so of two arguments of one name the first is lost before anything is checked. -/

namespace Chronogram

open Fallible Token

namespace Reader

theorem lookup_setNamed (named : List (String × Expr)) (n : String) (e : Expr) (k : String) :
    (setNamed named n e).lookup k = if k == n then some e else named.lookup k := by
  unfold setNamed
  split
  next hany =>
    rw [Association.lookup_change fun _ => e]
    split
    next hk =>
      have hmem : n ∈ named.map (·.1) := by simpa using hany
      obtain ⟨e', he'⟩ := Association.exists_lookup hmem
      rw [eq_of_beq hk, he']
      rfl
    · rfl
  next hany =>
    have hnone : named.lookup n = none := Association.lookup_eq_none.2 (by simpa using hany)
    rw [List.lookup_append, List.lookup_cons]
    cases hk : k == n with
    | true => simp [eq_of_beq hk, hnone]
    | false => simp

end Reader

namespace Instantiation

def positional (arguments : List (Option String × Expr)) : List Expr :=
  arguments.filterMap fun a => if a.1.isNone then some a.2 else none

def byName (arguments : List (Option String × Expr)) : List (String × Expr) :=
  arguments.filterMap fun a => a.1.map fun n => (n, a.2)

variable {name component : String} {arguments : List (Option String × Expr)}

theorem named_collected_append (arguments : List (Option String × Expr)) (a : Option String × Expr) :
    (collected name component (arguments ++ [a])).named =
      a.1.elim (collected name component arguments).named
        fun n => Reader.setNamed (collected name component arguments).named n a.2 := by
  simp [collected]

theorem lookup_collected (n : String) :
    (collected name component arguments).named.lookup n = (byName arguments).reverse.lookup n := by
  induction arguments using List.reverseRecOn with
  | nil => rfl
  | append_singleton arguments a ih =>
    rw [named_collected_append, byName, List.filterMap_append, List.reverse_append]
    obtain ⟨k, e⟩ := a
    cases k with
    | none => simpa [byName] using ih
    | some k =>
      rw [Option.elim_some, Reader.lookup_setNamed, ih]
      cases hk : n == k with
      | true => simp [List.lookup_cons, hk]
      | false => simp [List.lookup_cons, hk, byName]

theorem mem_names_collected {n : String} :
    n ∈ (collected name component arguments).named.map (·.1) ↔ n ∈ (byName arguments).map (·.1) := by
  rw [← not_iff_not, ← Association.lookup_eq_none, lookup_collected, Association.lookup_eq_none,
    List.map_reverse, List.mem_reverse]

theorem mem_collected_of_last {before after : List (String × Expr)} {a : String × Expr}
    (h : byName arguments = before ++ a :: after) (hlast : a.1 ∉ after.map (·.1)) :
    a ∈ (collected name component arguments).named := by
  have hnone : after.reverse.lookup a.1 = none := by
    rw [Association.lookup_eq_none, List.map_reverse, List.mem_reverse]
    exact hlast
  obtain ⟨n, e⟩ := a
  have hlookup : (collected name component arguments).named.lookup n = some e := by
    rw [lookup_collected, h, List.reverse_append, List.reverse_cons, List.lookup_append, List.lookup_append,
      hnone]
    simp
  exact Association.mem_of_lookup hlookup

end Instantiation

/-- A parameter that is written by position and by name is not bound. -/
theorem Caller.resolve_of_taken {c : Caller} {table : Table} {s : Signature} {inst : Instantiation}
    (hget : table.get? inst.component = some s) {n : String} (hn : n ∈ inst.named.map (·.1))
    (htaken : n ∈ s.paramNames.take inst.args.length) :
    ∃ found, c.resolve table inst = .ok (none, found) ∧ ∃ d ∈ found, d.kind = .duplicateName ∧
      d.message = "Parameter '" ++ n ++ "' of '" ++ inst.name ++ "' is bound twice" := by
  obtain ⟨d, hd, hsame⟩ := complains_of_taken (c := c) hn htaken
  rcases bindParameters_cases c s inst with ⟨-, found, hne, hsub, hbind⟩ | ⟨hclean, -⟩
  · refine ⟨found, ?_, d, hsub hd, hsame⟩
    rw [resolve, hget]
    refine bind_eq_ok.2 ⟨_, hbind, ?_⟩
    simp [hne]
  · rw [hclean.named] at hd
    simp at hd

/-- The parameter is bound to the value of the argument. -/
def Instance.Gives (i : Instance) (a : String × Expr) : Prop :=
  ∃ b, i.bindings.lookup a.1 = some b ∧ ∀ ρ, b.eval ρ = a.2.eval ρ

/-- An instantiation is written with its arguments in one way. If an instance is made of it, then an argument
that is written by position is bound to the parameter at its place, an argument that is written by name to the
parameter of that name unless another one of the name is written behind it, and no parameter is written in
both ways. Where one is, it is complained about. -/
theorem written_arguments {text : String} {loc : Option Loc} {inst : Instantiation}
    (h : Statement.parse text loc = .ok (.instantiate inst)) (actions : List Table.Action) {callee : Signature}
    (hget : (Table.history actions).get? inst.component = some callee) (c : Caller) :
    ∃ arguments, (∀ written, Instantiation.Writes (scan text.toList) inst.name inst.component written ↔
        written = arguments) ∧
      let args := Instantiation.positional arguments
      let named := Instantiation.byName arguments
      (∀ i, c.resolve (Table.history actions) inst = .ok (some i, []) →
        args.length ≤ callee.params.length ∧ (∀ a ∈ callee.paramNames.zip args, i.Gives a) ∧
        (∀ a ∈ named, a.1 ∈ callee.paramNames ∧ a.1 ∉ callee.paramNames.take args.length) ∧
        ∀ before a after, named = before ++ a :: after → a.1 ∉ after.map (·.1) → i.Gives a) ∧
      ∀ n ∈ named.map (·.1), n ∈ callee.paramNames.take args.length →
        ∃ found, c.resolve (Table.history actions) inst = .ok (none, found) ∧
          ∃ d ∈ found, d.kind = .duplicateName ∧
            d.message = "Parameter '" ++ n ++ "' of '" ++ inst.name ++ "' is bound twice" := by
  obtain ⟨-, arguments, hwrites, hcollected⟩ := Instantiation.parse_iff.1 h
  have hargs : inst.args = Instantiation.positional arguments := congrArg (·.args) hcollected
  have hnamed : inst.named = (Instantiation.collected inst.name inst.component arguments).named :=
    congrArg (·.named) hcollected
  obtain ⟨-, hvalidate, -⟩ := (Table.consistent_of_history actions).stored _ callee hget
  have hv := Signature.valid_of_validate hvalidate
  refine ⟨arguments, fun written => ⟨fun hw => hw.unique hwrites, fun hw => hw ▸ hwrites⟩, ?_⟩
  dsimp only
  rw [← hargs]
  refine ⟨fun i hi => ?_, fun n hn htaken => ?_⟩
  · obtain ⟨-, -, hget', hbind, -⟩ := Caller.resolve_eq_some hi
    obtain rfl : callee = i.signature := by simpa [hget] using hget'
    obtain ⟨hp, hsettles⟩ := Caller.settles_of_bindParameters hv hbind
    have hname : ∀ n ∈ (Instantiation.byName arguments).map (·.1), n ∈ inst.named.map (·.1) := by
      intro n hn
      rw [hnamed]
      exact Instantiation.mem_names_collected.2 hn
    refine ⟨hp.arity, fun a ha => hsettles.argument a (List.mem_append_left _ ha), fun a ha => ?_,
      fun before a after hsplit hlast => hsettles.argument a (List.mem_append_right _ ?_)⟩
    · obtain ⟨b, hb, hab⟩ := List.mem_map.1 (hname a.1 (List.mem_map_of_mem ha))
      rw [← hab]
      exact ⟨hp.known b hb, hp.free b hb⟩
    · rw [hnamed]
      exact Instantiation.mem_collected_of_last hsplit hlast
  · refine Caller.resolve_of_taken hget ?_ htaken
    rw [hnamed]
    exact Instantiation.mem_names_collected.2 hn

namespace Swap

def difference : Instantiation where
  name := "x"
  component := "Span"
  args := [.param "V", .param "W"]
  named := [("D", .add (.param "W") (.const 1))]

/-- The first parameter is given by position and by name. -/
def doubled : Instantiation :=
  { name := "x", component := "Span", args := [.param "V"], named := [("W", .const 1)] }

/-- The last parameter is given twice by name, and the second argument is kept. -/
def overwritten : Instantiation := { difference with named := [("D", .const 2)] }

theorem parsed :
    Statement.parse "x := new Span[D=W + 1, V, W]" none = .ok (.instantiate difference) ∧
    Statement.parse "x := new Span[V, W=1]" none = .ok (.instantiate doubled) ∧
    Statement.parse "x := new Span[V, D=1, W, D=2]" none = .ok (.instantiate overwritten) := by
  simp only [← toOption_eq_some]
  decide +kernel

theorem derives_word (name : String) : Expr.Derives .sum [.word name] (.param name) :=
  .product (.signed (.primary (.word name)))

theorem derives_number (n : Nat) : Expr.Derives .sum [.number n] (.const n) :=
  .product (.signed (.primary (.number n)))

theorem written :
    Instantiation.Writes (scan "x := new Span[D=W + 1, V, W]".toList) "x" "Span"
      [(some "D", .add (.param "W") (.const 1)), (none, .param "V"), (none, .param "W")] ∧
    Instantiation.Writes (scan "x := new Span[V, W=1]".toList) "x" "Span"
      [(none, .param "V"), (some "W", .const 1)] ∧
    Instantiation.Writes (scan "x := new Span[V, D=1, W, D=2]".toList) "x" "Span"
      [(none, .param "V"), (some "D", .const 1), (none, .param "W"), (some "D", .const 2)] := by
  have hscan : scan "x := new Span[D=W + 1, V, W]".toList = .word "x" :: .mark .define :: .word "new" ::
        .word "Span" :: between .openBracket .closeBracket
          [[.word "D", .mark .becomes, .word "W", .mark .plus, .number 1], [.word "V"], [.word "W"]] ∧
      scan "x := new Span[V, W=1]".toList = .word "x" :: .mark .define :: .word "new" :: .word "Span" ::
        between .openBracket .closeBracket [[.word "V"], [.word "W", .mark .becomes, .number 1]] ∧
      scan "x := new Span[V, D=1, W, D=2]".toList = .word "x" :: .mark .define :: .word "new" ::
        .word "Span" :: between .openBracket .closeBracket [[.word "V"], [.word "D", .mark .becomes, .number 1],
          [.word "W"], [.word "D", .mark .becomes, .number 2]] := by
    decide +kernel
  rw [hscan.1, hscan.2.1, hscan.2.2]
  have hsum : Expr.Derives .sum [.word "W", .mark .plus, .number 1] (.add (.param "W") (.const 1)) :=
    .plus (derives_word "W") (.signed (.primary (.number 1)))
  have hV := Instantiation.WritesArgument.positional (derives_word "V")
  have hW := Instantiation.WritesArgument.positional (derives_word "W")
  refine ⟨.listed "x" "Span" (.cons (.named "D" hsum) (.cons hV (.cons hW .nil))),
    .listed "x" "Span" (.cons hV (.cons (.named "W" (derives_number 1)) .nil)),
    .listed "x" "Span" (.cons hV (.cons (.named "D" (derives_number 1)) (.cons hW
      (.cons (.named "D" (derives_number 2)) .nil))))⟩

theorem exists_instance (inst : Instantiation) (bindings : List (String × Expr))
    (h : ((caller.resolve (Table.history actions) inst).toOption.map
      fun r => (r.1.map (·.bindings), r.2.isEmpty)) = some (some bindings, true)) :
    ∃ i, caller.resolve (Table.history actions) inst = .ok (some i, []) ∧ i.bindings = bindings := by
  obtain ⟨⟨o, found⟩, hresolve, hr⟩ := Option.map_eq_some_iff.1 h
  simp only [Prod.mk.injEq, Option.map_eq_some_iff, List.isEmpty_iff] at hr
  obtain ⟨⟨i, rfl, hi⟩, rfl⟩ := hr
  exact ⟨i, toOption_eq_some.1 hresolve, hi⟩

end Swap

/-- The arguments in a mixed order reach their parameters, and one that is given twice is complained about. -/
theorem written_arguments_swap :
    (∃ i, Swap.caller.resolve (Table.history Swap.actions) Swap.difference = .ok (some i, []) ∧
      i.Gives ("W", .param "V") ∧ i.Gives ("V", .param "W") ∧
      i.Gives ("D", .add (.param "W") (.const 1))) ∧
    ∃ found, Swap.caller.resolve (Table.history Swap.actions) Swap.doubled = .ok (none, found) ∧
      ∃ d ∈ found, d.kind = .duplicateName ∧ d.message = "Parameter 'W' of 'x' is bound twice" := by
  obtain ⟨hmixed, hdoubled, -⟩ := Swap.parsed
  constructor
  · obtain ⟨i, hi, -⟩ := Swap.exists_instance Swap.difference
      [("W", .param "V"), ("V", .param "W"), ("D", .add (.param "W") (.const 1))] (by decide +kernel)
    obtain ⟨arguments, hone, hbound, -⟩ :=
      written_arguments hmixed Swap.actions Swap.registered Swap.caller
    obtain rfl := (hone _).1 Swap.written.1
    obtain ⟨-, hpositional, -, hnamed⟩ := hbound i hi
    exact ⟨i, hi, hpositional _ (by decide), hpositional _ (by decide), hnamed [] _ [] rfl (by simp)⟩
  · obtain ⟨arguments, hone, -, htwice⟩ :=
      written_arguments hdoubled Swap.actions Swap.registered Swap.caller
    obtain rfl := (hone _).1 Swap.written.2.1
    exact htwice "W" (by decide) (by decide)

/-- Of two arguments of one name the first is lost, and nothing is said. -/
theorem overwritten_argument :
    ∃ inst i, Statement.parse "x := new Span[V, D=1, W, D=2]" none = .ok (.instantiate inst) ∧
      Instantiation.Writes (scan "x := new Span[V, D=1, W, D=2]".toList) inst.name inst.component
        [(none, .param "V"), (some "D", .const 1), (none, .param "W"), (some "D", .const 2)] ∧
      Swap.caller.resolve (Table.history Swap.actions) inst = .ok (some i, []) ∧
      ¬ i.Gives ("D", .const 1) := by
  obtain ⟨i, hi, hbindings⟩ := Swap.exists_instance Swap.overwritten
    [("W", .param "V"), ("V", .param "W"), ("D", .const 2)] (by decide +kernel)
  refine ⟨Swap.overwritten, i, Swap.parsed.2.2, Swap.written.2.2, hi, ?_⟩
  rintro ⟨b, hb, heval⟩
  rw [hbindings] at hb
  obtain rfl : Expr.const 2 = b := Option.some.inj hb
  have := heval fun _ => 0
  simp [Expr.eval] at this

end Chronogram
