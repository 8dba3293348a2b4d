import Chronogram.Check.Table
import Chronogram.Proofs.Dict
import Chronogram.Proofs.Validation

/-! Tables as they come about: starting from the empty one, signatures are registered and names
withdrawn. The calls that change a table in place do what their counterparts without change in place
say: facts can always be put together, and a refusal comes before the first change. Everything that
a table holds passed validation, and its facts say what it admits. -/

namespace Chronogram

open Fallible

/-- The facts are what the clauses say, one after the other, and then that each port is at least one bit
wide. -/
def Signature.States (s : Signature) (facts : Facts) : Prop :=
  ∃ clauses widths, facts = clauses ++ widths ∧
    List.Forall₂ (fun c f => ∃ l r, c.lhs.linearize = .ok l ∧ c.rhs.linearize = .ok r ∧
      f = ⟨l - r, c.relation⟩) s.clauses clauses ∧
    List.Forall₂ (fun p f => ∃ width, p.width.linearize = .ok width ∧ f = ⟨width.shift (-1), .ge⟩)
      s.ports widths

theorem Signature.facts_eq_ok {s : Signature} {facts : Facts} :
    s.facts = .ok facts ↔ s.States facts := by
  simp only [Signature.facts, States, Clause.fact, Clause.form, bind_eq_ok, pure_eq_ok, mapM_eq_ok,
    Expr.toForm_eq_ok]
  constructor
  · rintro ⟨clauses, hclauses, widths, hwidths, rfl⟩
    refine ⟨clauses, widths, rfl, hclauses.imp ?_, hwidths.imp ?_⟩
    · rintro c _ ⟨_, ⟨l, hl, r, hr, rfl⟩, rfl⟩
      exact ⟨l, r, hl, hr, rfl⟩
    · rintro p _ ⟨width, hwidth, rfl⟩
      exact ⟨width, hwidth, rfl⟩
  · rintro ⟨clauses, widths, rfl, hclauses, hwidths⟩
    refine ⟨clauses, hclauses.imp ?_, widths, hwidths.imp ?_, rfl⟩
    · rintro c _ ⟨l, r, hl, hr, rfl⟩
      exact ⟨_, ⟨l, hl, r, hr, rfl⟩, rfl⟩
    · rintro p _ ⟨width, hwidth, rfl⟩
      exact ⟨width, hwidth, rfl⟩

namespace Table

variable {t u : Table} {s : Signature} {facts : Facts} {e : SignatureError} {name other : String}
  {diagnostics : List Diagnostic}

theorem taken_eq_false : t.taken name = false ↔ t.get? name = none ∧ t.rejection? name = none := by
  rw [taken, Bool.or_eq_false_iff, contains, Dict.not_contains_iff, Dict.not_contains_iff,
    ← Dict.get?_eq_none, ← Dict.get?_eq_none]
  rfl

@[simp]
theorem get?_add : (t.add s facts).get? name = if name = s.name then some s else t.get? name :=
  Dict.get?_set

@[simp]
theorem facts?_add :
    (t.add s facts).facts? name = if name = s.name then some facts else t.facts? name :=
  Dict.get?_set

@[simp]
theorem rejection?_add : (t.add s facts).rejection? name = t.rejection? name := rfl

@[simp]
theorem get?_reject :
    (t.reject other diagnostics).get? name = if name = other then none else t.get? name :=
  Dict.get?_erase

@[simp]
theorem facts?_reject :
    (t.reject other diagnostics).facts? name = if name = other then none else t.facts? name :=
  Dict.get?_erase

/-- Withdrawing a name adds to its own reasons, behind those that are there. -/
@[simp]
theorem rejection?_reject : (t.reject other diagnostics).rejection? name =
    if name = other then some ((t.rejection? other).getD [] ++ diagnostics) else t.rejection? name :=
  Dict.get?_set

theorem register_eq_ok (h : t.register s = .ok u) :
    t.get? s.name = none ∧ t.rejection? s.name = none ∧ s.validate = [] ∧
      ∃ facts, s.facts = .ok facts ∧ u = t.add s facts := by
  rw [register] at h
  split at h
  · cases h
  next hfree =>
    obtain ⟨hget, hspared⟩ := taken_eq_false.1 (Bool.eq_false_iff.2 hfree)
    split at h
    next facts hv hfacts =>
      cases h
      exact ⟨hget, hspared, hv, facts, hfacts, rfl⟩
    next => cases h

theorem register_of_free (hget : t.get? s.name = none) (hspared : t.rejection? s.name = none)
    (hv : s.validate = []) (hfacts : s.facts = .ok facts) : t.register s = .ok (t.add s facts) := by
  rw [register, taken_eq_false.2 ⟨hget, hspared⟩, hv, hfacts]
  rfl

/-- A refusal is for the name or for what validation finds. -/
theorem register_eq_error (h : t.register s = .error e) :
    t.taken s.name = true ∧ e = alreadyDefined s ∨
      t.taken s.name = false ∧ s.validate ≠ [] ∧ e = ⟨s.name, s.validate⟩ := by
  rw [register] at h
  split at h
  next htaken =>
    cases h
    exact .inl ⟨htaken, rfl⟩
  next hfree =>
    refine .inr ⟨Bool.eq_false_iff.2 hfree, ?_⟩
    split at h
    · cases h
    next hnone =>
      cases h
      refine ⟨fun hv => ?_, rfl⟩
      -- facts can be put together for whatever passes validation
      obtain ⟨facts, hfacts⟩ := (Signature.valid_of_validate hv).exists_facts
      exact hnone facts hv hfacts

theorem diagnostics_of_register (h : t.register s = .error e) : e.diagnostics ≠ [] := by
  rcases register_eq_error h with ⟨-, rfl⟩ | ⟨-, hv, rfl⟩
  · exact List.cons_ne_nil _ _
  · exact hv

namespace Call

variable {α β : Type} {x : Call α} {f : α → Call β}

theorem bind_of_ok {a : α} (h : x t = .ok a u) : (x >>= f) t = f a u := by
  simp only [bind, EStateM.bind, h]

theorem bind_of_error {failure : Failure} (h : x t = .error failure u) :
    (x >>= f) t = .error failure u := by
  simp only [bind, EStateM.bind, h]

theorem tryCatch_of_ok {a : α} {handler : Failure → Call α} (h : x t = .ok a u) :
    tryCatch x handler t = .ok a u := by
  simp only [tryCatch, tryCatchThe, MonadExceptOf.tryCatch, EStateM.tryCatch, h]

/-- What was changed before the failure stays changed. -/
theorem tryCatch_of_error {failure : Failure} {handler : Failure → Call α} (h : x t = .error failure u) :
    tryCatch x handler t = handler failure u := by
  simp only [tryCatch, tryCatchThe, MonadExceptOf.tryCatch, EStateM.tryCatch, h]
  rfl

theorem get_eq : (get : Call Table) t = .ok t t := rfl

theorem register_of_ok (h : t.register s = .ok u) : Call.register s t = .ok () u := by
  obtain ⟨hget, hspared, hv, facts, hfacts, rfl⟩ := register_eq_ok h
  have hfree := taken_eq_false.2 ⟨hget, hspared⟩
  rw [Call.register, bind_of_ok get_eq, hfree, hv, hfacts]
  rfl

theorem register_of_error (h : t.register s = .error e) : Call.register s t = .error (.refused e) t := by
  rcases register_eq_error h with ⟨htaken, rfl⟩ | ⟨hfree, hv, rfl⟩
  · rw [Call.register, bind_of_ok get_eq, htaken]
    rfl
  · have hfound : s.validate.isEmpty = false := by simpa using hv
    rw [Call.register, bind_of_ok get_eq, hfree, hfound]
    rfl

theorem reject_eq : Call.reject name diagnostics t = .ok () (t.reject name diagnostics) := rfl

theorem registerAll_of_none {signatures : List Signature} (h : t.registerAll signatures = (u, none)) :
    Call.registerAll signatures t = .ok () u := by
  induction signatures generalizing t with
  | nil =>
    cases h
    rfl
  | cons s rest ih =>
    rw [Table.registerAll] at h
    split at h
    next v hv => exact (bind_of_ok (register_of_ok hv)).trans (ih h)
    · cases h

theorem registerAll_of_some {signatures : List Signature} (h : t.registerAll signatures = (u, some e)) :
    Call.registerAll signatures t = .error (.refused e) u := by
  induction signatures generalizing t with
  | nil => cases h
  | cons s rest ih =>
    rw [Table.registerAll] at h
    split at h
    next v hv => exact (bind_of_ok (register_of_ok hv)).trans (ih h)
    next e' he =>
      cases h
      exact bind_of_error (register_of_error he)

theorem enter_of_ok (h : t.register s = .ok u) : enter s t = .ok none u :=
  tryCatch_of_ok ((bind_of_ok (register_of_ok h)).trans rfl)

theorem enter_of_error (h : t.register s = .error e) :
    enter s t = .ok (some e.diagnostics) (t.reject s.name e.diagnostics) :=
  (tryCatch_of_error (bind_of_error (register_of_error h))).trans (bind_of_ok reject_eq)

end Call

/-- Signatures, facts and rejections fit together. -/
structure Consistent (t : Table) : Prop where
  paired : t.facts.names = t.signatures.names
  apart : ∀ name s, t.get? name = some s → t.rejection? name = none
  stored : ∀ name s, t.get? name = some s → s.name = name ∧ s.validate = [] ∧
    ∃ facts, t.facts? name = some facts ∧ s.States facts

theorem consistent_empty : empty.Consistent := by
  refine ⟨rfl, ?_, ?_⟩
  · intro name s hs
    cases hs
  · intro name s hs
    cases hs

theorem Consistent.register (h : t.Consistent) (hu : t.register s = .ok u) : u.Consistent := by
  obtain ⟨hget, hspared, hv, facts, hfacts, rfl⟩ := register_eq_ok hu
  have hnew : s.name ∉ t.signatures.names := Dict.get?_eq_none.1 hget
  refine ⟨?_, fun name r hr => ?_, fun name r hr => ?_⟩
  · rw [add, Dict.names_set_of_not_mem hnew, Dict.names_set_of_not_mem (h.paired.symm ▸ hnew), h.paired]
  · rw [get?_add] at hr
    rw [rejection?_add]
    split at hr
    next hname => exact hname ▸ hspared
    next => exact h.apart name r hr
  · rw [get?_add] at hr
    rw [facts?_add]
    split at hr
    next hname =>
      cases hr
      exact ⟨hname.symm, hv, facts, if_pos hname, Signature.facts_eq_ok.1 hfacts⟩
    next hname =>
      obtain ⟨hown, hvalid, old, hold, hstates⟩ := h.stored name r hr
      exact ⟨hown, hvalid, old, (if_neg hname).trans hold, hstates⟩

theorem Consistent.reject (h : t.Consistent) (other : String) (diagnostics : List Diagnostic) :
    (t.reject other diagnostics).Consistent := by
  refine ⟨?_, fun name s hs => ?_, fun name s hs => ?_⟩
  · rw [Table.reject, Dict.names_erase, Dict.names_erase, h.paired]
  · rw [get?_reject] at hs
    split at hs
    · cases hs
    next hname =>
      rw [rejection?_reject, if_neg hname]
      exact h.apart name s hs
  · rw [get?_reject] at hs
    split at hs
    · cases hs
    next hname =>
      rw [facts?_reject, if_neg hname]
      exact h.stored name s hs

/-- The tables that registering and withdrawing lead to, where the signatures are plain ones. -/
inductive Built : Table → Prop
  | empty : Built .empty
  | register {t u : Table} {s : Signature} (ht : Built t) (hs : s.Plain) (h : t.register s = .ok u) :
      Built u
  | reject {t : Table} (ht : Built t) (name : String) (diagnostics : List Diagnostic) :
      Built (t.reject name diagnostics)

theorem Built.consistent (ht : t.Built) : t.Consistent := by
  induction ht with
  | empty => exact consistent_empty
  | register _ _ h ih => exact ih.register h
  | reject _ name diagnostics ih => exact ih.reject name diagnostics

theorem Built.plain (ht : t.Built) (h : t.get? name = some s) : s.Plain := by
  induction ht with
  | empty => cases h
  | register _ hs hu ih =>
    obtain ⟨-, -, -, facts, -, rfl⟩ := register_eq_ok hu
    rw [get?_add] at h
    split at h
    · cases h
      exact hs
    · exact ih h
  | reject _ other diagnostics ih =>
    rw [get?_reject] at h
    split at h
    · cases h
    · exact ih h

theorem Built.registered (ht : t.Built) (h : t.get? name = some s) : s.name = name ∧ s.Plain ∧ s.Valid := by
  obtain ⟨hname, hv, -⟩ := ht.consistent.stored name s h
  exact ⟨hname, ht.plain h, Signature.valid_of_validate hv⟩

theorem Built.exists_facts (ht : t.Built) (h : t.get? name = some s) :
    ∃ facts, t.facts? name = some facts ∧ ∀ ρ, facts.Hold ρ ↔ s.Admits ρ := by
  obtain ⟨-, -, facts, hfacts, hstates⟩ := ht.consistent.stored name s h
  exact ⟨facts, hfacts, fun ρ => Signature.hold_facts_iff (Signature.facts_eq_ok.2 hstates)⟩

end Table

end Chronogram
