import Chronogram.Proofs.Registration

/-! What becomes of a table. Signatures are registered one by one or several at once, and names are
withdrawn, in any order; some of these calls fail, and leave the table as far as they have changed it.
After any of them the dictionaries of a table belong together, a name that was withdrawn stays so, and
a failure undoes nothing and adds nothing but what came before it. -/

namespace Chronogram

namespace Table

inductive Action where
  | register (s : Signature)
  | registerAll (signatures : List Signature)
  | reject (name : String) (diagnostics : List Diagnostic)

def Action.call : Action → Call Unit
  | register s => Call.register s
  | registerAll signatures => Call.registerAll signatures
  | reject name diagnostics => Call.reject name diagnostics

/-- The table that a call leaves, and its failure if it fails. -/
def act (t : Table) (a : Action) : Table × Option Failure :=
  match a.call t with
  | .ok _ u => (u, none)
  | .error failure u => (u, some failure)

def after (t : Table) (actions : List Action) : Table := actions.foldl (fun t a => (t.act a).1) t

/-- A fresh table after some calls. -/
def history (actions : List Action) : Table := empty.after actions

theorem history_append (actions more : List Action) :
    history (actions ++ more) = (history actions).after more := List.foldl_append

variable {t u : Table} {s : Signature} {name : String}

theorem act_register_of_ok (h : t.register s = .ok u) : t.act (.register s) = (u, none) := by
  rw [act, Action.call, Call.register_of_ok h]

theorem act_register_of_error {e : SignatureError} (h : t.register s = .error e) :
    t.act (.register s) = (t, some (.refused e)) := by
  rw [act, Action.call, Call.register_of_error h]

theorem act_registerAll (t : Table) (signatures : List Signature) : t.act (.registerAll signatures) =
    ((t.registerAll signatures).1, (t.registerAll signatures).2.map .refused) := by
  rw [act, Action.call]
  cases h : t.registerAll signatures with
  | mk u failure =>
    cases failure with
    | none => rw [Call.registerAll_of_none h]; rfl
    | some e => rw [Call.registerAll_of_some h]; rfl

theorem act_reject (t : Table) (name : String) (diagnostics : List Diagnostic) :
    t.act (.reject name diagnostics) = (t.reject name diagnostics, none) := by
  rw [act, Action.call, Call.reject_eq]

/-- A call changes the table step by step: each time it registers a signature or withdraws a name. -/
theorem act_invariant {P : Table → Prop}
    (hregister : ∀ {t u : Table} {s : Signature}, P t → t.register s = .ok u → P u)
    (hreject : ∀ {t : Table} (name : String) (diagnostics : List Diagnostic), P t →
      P (t.reject name diagnostics)) (a : Action) (ht : P t) : P (t.act a).1 := by
  cases a with
  | register s =>
    cases h : t.register s with
    | ok u =>
      rw [act_register_of_ok h]
      exact hregister ht h
    | error e =>
      rw [act_register_of_error h]
      exact ht
  | registerAll signatures =>
    rw [act_registerAll]
    induction signatures generalizing t with
    | nil => exact ht
    | cons s rest ih =>
      rw [Table.registerAll]
      split
      next u hu => exact ih (hregister ht hu)
      · exact ht
  | reject name diagnostics =>
    rw [act_reject]
    exact hreject name diagnostics ht

theorem Consistent.after (h : t.Consistent) (actions : List Action) : (t.after actions).Consistent := by
  induction actions generalizing t with
  | nil => exact h
  | cons a actions ih =>
    exact ih (act_invariant (fun h hu => h.register hu) (fun name diagnostics h => h.reject name diagnostics)
      a h)

theorem consistent_of_history (actions : List Action) : (history actions).Consistent :=
  consistent_empty.after actions

/-- The name is rejected for at least the given reasons, which come first. -/
def RejectedFor (t : Table) (name : String) (found : List Diagnostic) : Prop :=
  ∃ added, t.rejection? name = some (found ++ added)

theorem RejectedFor.reject {found : List Diagnostic} (h : t.RejectedFor name found) (other : String)
    (diagnostics : List Diagnostic) : (t.reject other diagnostics).RejectedFor name found := by
  obtain ⟨added, hadded⟩ := h
  rw [RejectedFor, rejection?_reject]
  split
  next hname =>
    refine ⟨added ++ diagnostics, ?_⟩
    rw [← hname, hadded, Option.getD_some, List.append_assoc]
  next => exact ⟨added, hadded⟩

theorem RejectedFor.after {found : List Diagnostic} (h : t.RejectedFor name found)
    (actions : List Action) : (t.after actions).RejectedFor name found := by
  induction actions generalizing t with
  | nil => exact h
  | cons a actions ih =>
    refine ih (act_invariant (P := fun t => t.RejectedFor name found) (fun h hu => ?_)
      (fun other diagnostics h => h.reject other diagnostics) a h)
    obtain ⟨-, -, -, facts, -, rfl⟩ := register_eq_ok hu
    exact h

theorem Consistent.entries_register (h : t.Consistent) (hu : t.register s = .ok u) :
    ∃ facts, s.States facts ∧ u.signatures.entries = t.signatures.entries ++ [(s.name, s)] ∧
      u.facts.entries = t.facts.entries ++ [(s.name, facts)] ∧ u.rejected = t.rejected := by
  obtain ⟨hget, -, -, facts, hfacts, rfl⟩ := register_eq_ok hu
  have hnew : s.name ∉ t.signatures.names := Dict.get?_eq_none.1 hget
  exact ⟨facts, Signature.facts_eq_ok.1 hfacts, Dict.entries_set_of_not_mem hnew,
    Dict.entries_set_of_not_mem (h.paired.symm ▸ hnew), rfl⟩

/-- Signatures that are registered all at once: those up to the first that cannot be are added. -/
theorem Consistent.registerAll_cases (h : t.Consistent) (signatures : List Signature) :
    ∃ before facts, List.Forall₂ Signature.States before facts ∧
      (t.registerAll signatures).1.signatures.entries =
        t.signatures.entries ++ before.map (fun s => (s.name, s)) ∧
      (t.registerAll signatures).1.facts.entries = t.facts.entries ++ (before.map (·.name)).zip facts ∧
      (t.registerAll signatures).1.rejected = t.rejected ∧
      (((t.registerAll signatures).2 = none ∧ signatures = before) ∨
        ∃ s rest e, (t.registerAll signatures).2 = some e ∧ signatures = before ++ s :: rest ∧
          (t.registerAll signatures).1.register s = .error e) := by
  induction signatures generalizing t with
  | nil => exact ⟨[], [], .nil, by simp [registerAll], by simp [registerAll], rfl, .inl ⟨rfl, rfl⟩⟩
  | cons s rest ih =>
    rw [registerAll]
    split
    next u hu =>
      obtain ⟨facts, hstates, hsignatures, hfacts, hrejected⟩ := h.entries_register hu
      obtain ⟨before, later, hlater, hsignatures', hfacts', hrejected', hend⟩ := ih (h.register hu)
      refine ⟨s :: before, facts :: later, .cons hstates hlater, ?_, ?_, hrejected'.trans hrejected, ?_⟩
      · rw [hsignatures', hsignatures, List.append_assoc]
        rfl
      · rw [hfacts', hfacts, List.append_assoc]
        rfl
      · rcases hend with ⟨hnone, rfl⟩ | ⟨s', rest', e, hsome, rfl, herror⟩
        · exact .inl ⟨hnone, rfl⟩
        · exact .inr ⟨s', rest', e, hsome, rfl, herror⟩
    next e he =>
      exact ⟨[], [], .nil, by simp, by simp, rfl, .inr ⟨s, rest, e, rfl, rfl, he⟩⟩

/-- After any calls on a fresh table its dictionaries are consistent. A name that is rejected is never
registered again, and its reasons grow at the end only. A registration that fails is refused and
changes nothing, and of several signatures those before the one that fails are added. -/
theorem consistent_history (actions : List Action) :
    (history actions).Consistent ∧
    (∀ name found, (history actions).rejection? name = some found → ∀ more,
      (history (actions ++ more)).get? name = none ∧
      ∃ added, (history (actions ++ more)).rejection? name = some (found ++ added)) ∧
    (∀ s u failure, (history actions).act (.register s) = (u, some failure) →
      (∃ e, failure = .refused e) ∧ u = history actions) ∧
    ∀ signatures u failure, (history actions).act (.registerAll signatures) = (u, some failure) →
      ∃ before s rest facts, signatures = before ++ s :: rest ∧
        u.act (.register s) = (u, some failure) ∧ List.Forall₂ Signature.States before facts ∧
        u.signatures.entries = (history actions).signatures.entries ++ before.map (fun s => (s.name, s)) ∧
        u.facts.entries = (history actions).facts.entries ++ (before.map (·.name)).zip facts ∧
        u.rejected = (history actions).rejected := by
  have hconsistent := consistent_of_history actions
  refine ⟨hconsistent, ?_, ?_, ?_⟩
  · intro name found hfound more
    have hstart : (history actions).RejectedFor name found := ⟨[], by rw [List.append_nil, hfound]⟩
    obtain ⟨added, hadded⟩ := hstart.after more
    rw [← history_append] at hadded
    refine ⟨?_, added, hadded⟩
    cases hget : (history (actions ++ more)).get? name with
    | none => rfl
    | some s =>
      rw [(consistent_of_history _).apart name s hget] at hadded
      cases hadded
  · intro s u failure h
    cases hregister : (history actions).register s with
    | ok v =>
      rw [act_register_of_ok hregister] at h
      cases h
    | error e =>
      rw [act_register_of_error hregister] at h
      cases h
      exact ⟨⟨e, rfl⟩, rfl⟩
  · intro signatures u failure h
    rw [act_registerAll] at h
    obtain ⟨rfl, hfailure⟩ := Prod.mk.inj h
    obtain ⟨before, facts, hfacts, hsignatures, hkept, hrejected, hend⟩ :=
      hconsistent.registerAll_cases signatures
    rcases hend with ⟨hnone, -⟩ | ⟨s, rest, e, hsome, hsplit, he⟩
    · rw [hnone] at hfailure
      cases hfailure
    · rw [hsome] at hfailure
      cases hfailure
      exact ⟨before, s, rest, facts, hsplit, act_register_of_error he, hfacts, hsignatures, hkept, hrejected⟩

/-- A delay element is registered twice, and a constant is withdrawn before it is registered. -/
def sampleCalls : List Action :=
  [.register Primitives.delay, .register Primitives.delay,
    .reject "Const" [{ kind := .duplicateName, message := "withdrawn", location := none,
                       component := "Const" }],
    .register Primitives.constant]

theorem exists_failure_act {a : Action} (h : (t.act a).2.isSome = true) :
    ∃ u failure, t.act a = (u, some failure) := by
  obtain ⟨failure, hfailure⟩ := Option.isSome_iff_exists.1 h
  exact ⟨_, failure, Prod.ext rfl hfailure⟩

/-- In the sample the delay element is registered and the constant is not. Registering the delay element
once more, alone or behind a multiplexer, fails. -/
theorem consistent_history_sample :
    (history sampleCalls).Consistent ∧ (history sampleCalls).names = ["Delay"] ∧
    (∃ found, found.map (·.message) = ["withdrawn"] ∧
      (history sampleCalls).rejection? "Const" = some found ∧
      (history (sampleCalls ++ sampleCalls)).get? "Const" = none ∧
      ∃ added, (history (sampleCalls ++ sampleCalls)).rejection? "Const" = some (found ++ added)) ∧
    (∃ e, (history sampleCalls).act (.register Primitives.delay) =
      (history sampleCalls, some (.refused e))) ∧
    ∃ u failure, (history sampleCalls).act (.registerAll [Primitives.mux, Primitives.delay]) =
        (u, some failure) ∧ u.names = ["Delay", "Mux"] ∧ u.facts.names = ["Delay", "Mux"] ∧
      u.rejected = (history sampleCalls).rejected := by
  have hstart : (history sampleCalls).names = ["Delay"] ∧
      ((history sampleCalls).rejection? "Const").map (·.map (·.message)) = some ["withdrawn"] ∧
      ((history sampleCalls).act (.register Primitives.delay)).2.isSome = true ∧
      ((history sampleCalls).act (.registerAll [Primitives.mux, Primitives.delay])).2.isSome = true ∧
      ((history sampleCalls).act (.registerAll [Primitives.mux, Primitives.delay])).1.names =
        ["Delay", "Mux"] ∧
      ((history sampleCalls).act (.registerAll [Primitives.mux, Primitives.delay])).1.facts.names =
        ["Delay", "Mux"] := by
    decide +kernel
  obtain ⟨hnames, hrejected, hone, hseveral, hadded, hfacts⟩ := hstart
  obtain ⟨hconsistent, hwithdrawn, hregister, hregisterAll⟩ := consistent_history sampleCalls
  obtain ⟨found, hfound, hmessages⟩ := Option.map_eq_some_iff.1 hrejected
  obtain ⟨hnever, hgrown⟩ := hwithdrawn "Const" found hfound sampleCalls
  obtain ⟨u, failure, hu⟩ := exists_failure_act hone
  obtain ⟨⟨e, rfl⟩, rfl⟩ := hregister _ u failure hu
  obtain ⟨u', failure', hu'⟩ := exists_failure_act hseveral
  obtain ⟨-, -, -, -, -, -, -, -, -, hkept⟩ := hregisterAll _ u' failure' hu'
  rw [hu'] at hadded hfacts
  exact ⟨hconsistent, hnames, ⟨found, hmessages, hfound, hnever, hgrown⟩, ⟨e, hu⟩,
    u', failure', hu', hadded, hfacts, hkept⟩

end Table

end Chronogram
