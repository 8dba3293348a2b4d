import Chronogram.Check.Report
import Chronogram.Proofs.Table

/-! Which check speaks of recursion. A body that is looked at on its own and a signature that is validated
give rise to diagnostics of many kinds, but recursive instantiation is not among them: it is
complained about only where the cycles of the whole hierarchy are known. -/

namespace Chronogram

open Fallible

def Unrelated (found : List Diagnostic) : Prop := ∀ d ∈ found, d.kind ≠ .recursiveInstantiation

namespace Unrelated

variable {found more : List Diagnostic} {d : Diagnostic}

@[simp] theorem nil : Unrelated [] := by simp [Unrelated]

@[simp] theorem cons_iff :
    Unrelated (d :: found) ↔ d.kind ≠ .recursiveInstantiation ∧ Unrelated found := by
  simp [Unrelated]

@[simp] theorem append_iff : Unrelated (found ++ more) ↔ Unrelated found ∧ Unrelated more := by
  simp [Unrelated, or_imp, forall_and]

@[simp] theorem flatMap_iff {α : Type} {as : List α} {f : α → List Diagnostic} :
    Unrelated (as.flatMap f) ↔ ∀ a ∈ as, Unrelated (f a) := by
  simp only [Unrelated, List.mem_flatMap]
  constructor
  · intro h a ha d hd
    exact h d ⟨a, ha, hd⟩
  · rintro h d ⟨a, ha, hd⟩
    exact h a ha d hd

@[simp] theorem map_iff {α : Type} {as : List α} {f : α → Diagnostic} :
    Unrelated (as.map f) ↔ ∀ a ∈ as, (f a).kind ≠ .recursiveInstantiation := by
  simp [Unrelated]

theorem ite {p : Prop} [Decidable p] (hp : p → Unrelated found) (hn : ¬ p → Unrelated more) :
    Unrelated (if p then found else more) := by
  split
  next h => exact hp h
  next h => exact hn h

theorem filterMap_id {found : List (Option Diagnostic)}
    (h : ∀ d, some d ∈ found → d.kind ≠ .recursiveInstantiation) : Unrelated (found.filterMap id) := by
  intro d hd
  obtain ⟨_, ho, rfl⟩ := List.mem_filterMap.1 hd
  exact h d ho

end Unrelated

namespace Signature

variable {s : Signature}

@[simp] theorem kind_complaint {kind : DiagnosticKind} {message : String} {loc : Option Loc}
    {fields : List (String × Datum)} : (s.complaint kind message loc fields).kind = kind := rfl

theorem unrelated_checkExpr {e : Expr} {what : String} {loc : Option Loc} {eventsAllowed : Bool}
    {params : List String} : Unrelated (s.checkExpr e what loc eventsAllowed params) := by
  unfold checkExpr
  refine .ite (fun _ => ?_) fun _ => ?_
  · split <;> simp
  · simp only [Unrelated.append_iff, Unrelated.map_iff]
    refine ⟨⟨by simp, ?_⟩, by simp⟩
    split <;> simp

theorem unrelated_checkDefaults : Unrelated s.checkDefaults := by
  have go : ∀ params earlier, Unrelated (checkDefaults.go s earlier params) := by
    intro params
    induction params with
    | nil => simp [checkDefaults.go]
    | cons p params ih =>
      intro earlier
      rw [checkDefaults.go, Unrelated.append_iff]
      refine ⟨?_, ih _⟩
      split
      · exact unrelated_checkExpr
      · exact Unrelated.nil
  exact go _ _

theorem unrelated_checkReferences : Unrelated s.checkReferences := by
  simp only [checkReferences, checkPort, checkClause, Unrelated.append_iff, Unrelated.flatMap_iff,
    Unrelated.map_iff]
  exact ⟨⟨⟨unrelated_checkDefaults, fun _ _ => unrelated_checkExpr⟩,
    fun _ _ => ⟨unrelated_checkExpr, by simp⟩⟩, fun _ _ _ _ => unrelated_checkExpr⟩

theorem unrelated_checkDelay {facts : Facts} {e : Event} : Unrelated (s.checkDelay facts e) := by
  unfold checkDelay
  split
  · simp
  · split
    · split <;> simp
    · split <;> simp

theorem unrelated_checkInterval {facts : Facts} {p : Port} : Unrelated (s.checkInterval facts p) := by
  unfold checkInterval
  dsimp only
  split <;> simp

theorem unrelated_validate : Unrelated s.validate := by
  unfold validate
  dsimp only
  split
  · split
    · simp [unrelated_checkDelay, unrelated_checkInterval]
    · simp
  · simp [checkNames, unrelated_checkReferences]

end Signature

theorem Table.unrelated_of_register {t : Table} {s : Signature} {e : SignatureError}
    (h : t.register s = .error e) : Unrelated e.diagnostics := by
  rcases register_eq_error h with ⟨-, rfl⟩ | ⟨-, -, rfl⟩
  · simp [alreadyDefined]
  · exact Signature.unrelated_validate

namespace Caller

variable {c : Caller}

@[simp] theorem kind_diagnostic {kind : DiagnosticKind} {message : String} {loc : Option Loc}
    {fields : List (String × Datum)} : (c.diagnostic kind message loc fields).kind = kind := rfl

theorem unrelated_checkArgument {inst : Instantiation} {name : String} {arg : Expr} :
    Unrelated (c.checkArgument inst name arg) := by
  unfold checkArgument
  refine .ite (fun _ => ?_) fun _ => ?_
  · split <;> simp
  · rw [Unrelated.append_iff]
    refine ⟨?_, by simp⟩
    split <;> simp

theorem unrelated_givenArguments {s : Signature} {inst : Instantiation} :
    Unrelated (c.givenArguments s inst).2 := by
  unfold givenArguments
  refine List.foldlRecOn (motive := fun (r : List (String × Expr) × List Diagnostic) => Unrelated r.2)
    _ _ (by simp) ?_
  intro r hr arg _
  split
  dsimp only
  split
  · simpa using hr
  · split
    · simpa using hr
    · exact hr

theorem kind_of_defaultValue {s : Signature} {inst : Instantiation} {given : List (String × Expr)}
    {p : Parameter} {d : Diagnostic} (h : c.defaultValue s inst given p = .error d) :
    d.kind ≠ .recursiveInstantiation := by
  unfold defaultValue at h
  split at h
  · cases h
    simp
  · split at h
    · cases h
    · cases h
      simp

theorem unrelated_bindParameters {s : Signature} {inst : Instantiation}
    {r : List (String × Expr) × List Diagnostic} (h : c.bindParameters s inst = .ok r) :
    Unrelated r.2 := by
  revert h
  unfold bindParameters
  extract_lets arity
  have hgiven : Unrelated (c.givenArguments s inst).2 := unrelated_givenArguments
  generalize c.givenArguments s inst = arguments at hgiven
  obtain ⟨given, misnamed⟩ := arguments
  dsimp -zeta only
  extract_lets misused omitted defaults unbound found
  split
  · simp only [bind_eq_ok, pure_eq_ok]
    rintro ⟨_, -, rfl⟩
    exact Unrelated.nil
  · intro h
    cases h
    have harity : Unrelated arity := .ite (fun _ => .nil) fun _ => by simp
    have hmisused : Unrelated misused := Unrelated.flatMap_iff.2 fun _ _ => unrelated_checkArgument
    have hunbound : Unrelated unbound := by
      intro d hd
      obtain ⟨value, hmem, hd⟩ := List.mem_filterMap.1 hd
      obtain ⟨p, -, rfl⟩ := List.mem_map.1 hmem
      split at hd
      next herr =>
        cases hd
        exact kind_of_defaultValue (Prod.mk.inj herr).2
      · cases hd
    simp only [found, Unrelated.append_iff]
    exact ⟨⟨⟨harity, hgiven⟩, hmisused⟩, hunbound⟩

theorem kind_of_checkClause {clause : Clause} {inst : Instance} {times : List (String × Time)}
    {loc : Option Loc} {d : Diagnostic} (h : c.checkClause clause inst times loc = .ok (some d)) :
    d.kind ≠ .recursiveInstantiation := by
  simp only [checkClause, bind_eq_ok] at h
  obtain ⟨form, -, h⟩ := h
  split at h
  · cases h
  · split at h
    · cases h
      simp
    · cases h
      simp

theorem kind_of_checkWidth {inst : Instance} {p : Port} {d : Diagnostic}
    (h : c.checkWidth inst p = .ok (some d)) : d.kind ≠ .recursiveInstantiation := by
  simp only [checkWidth, bind_eq_ok] at h
  obtain ⟨width, -, h⟩ := h
  split at h
  · cases h
  · cases h
    simp

theorem unrelated_resolve {table : Table} {inst : Instantiation}
    {r : Option Instance × List Diagnostic} (h : c.resolve table inst = .ok r) : Unrelated r.2 := by
  unfold resolve at h
  split at h
  · cases h
  · cases h
    simp
  · cases h
    simp
  · simp only [bind_eq_ok] at h
    obtain ⟨bound, hbound, h⟩ := h
    split at h
    · cases h
      exact unrelated_bindParameters hbound
    · simp only [bind_eq_ok, mapM_eq_ok] at h
      obtain ⟨clauses, hclauses, widths, hwidths, h⟩ := h
      have hfound : Unrelated ((clauses ++ widths).filterMap id) := by
        refine Unrelated.filterMap_id fun d hd => ?_
        rcases List.mem_append.1 hd with hd | hd
        · obtain ⟨_, -, hd⟩ := exists_left_of_forall₂ hclauses hd
          exact kind_of_checkClause hd
        · obtain ⟨_, -, hd⟩ := exists_left_of_forall₂ hwidths hd
          exact kind_of_checkWidth hd
      split at h
      · cases h
        exact Unrelated.nil
      · cases h
        exact hfound

theorem unrelated_checkTimes {inv : Invocation} {callee : Signature} :
    Unrelated (c.checkTimes inv callee) := by
  unfold checkTimes
  split <;> simp

theorem unrelated_schedule {instances : List Instance} {inv : Invocation}
    {r : Option Firing × List Diagnostic} (h : c.schedule instances inv = .ok r) : Unrelated r.2 := by
  unfold schedule at h
  split at h
  · cases h
    simp
  · dsimp only at h
    split at h
    · cases h
      exact unrelated_checkTimes
    · simp only [bind_eq_ok, mapM_eq_ok] at h
      obtain ⟨clauses, hclauses, h⟩ := h
      have hfound : Unrelated (clauses.filterMap id) := by
        refine Unrelated.filterMap_id fun d hd => ?_
        obtain ⟨_, -, hd⟩ := exists_left_of_forall₂ hclauses hd
        exact kind_of_checkClause hd
      split at h
      · simp only [bind_eq_ok, pure_eq_ok] at h
        obtain ⟨_, -, rfl⟩ := h
        exact Unrelated.nil
      · cases h
        exact hfound

theorem kind_of_checkComparable {inst : Instance} {event : Event} {log : List (Time × Firing)}
    {d : Diagnostic} (h : c.checkComparable inst event log = some d) :
    d.kind ≠ .recursiveInstantiation := by
  unfold checkComparable at h
  split at h
  · cases h
  · obtain ⟨_, -, rfl⟩ := Option.map_eq_some_iff.1 h
    simp

theorem kind_of_checkSpacing {inst : Instance} {event : Event} {first second : Time × Firing}
    {d : Diagnostic} (h : c.checkSpacing inst event first second = .ok (some d)) :
    d.kind ≠ .recursiveInstantiation := by
  simp only [checkSpacing, bind_eq_ok] at h
  obtain ⟨delay, -, gap, -, h⟩ := h
  split at h
  · cases h
  · cases h
    simp

theorem kind_of_checkThroughput {inst : Instance} {event callerEvent : Event} {start : Time}
    {budget : LinearForm} {use : Time × Firing} {d : Diagnostic}
    (h : c.checkThroughput inst event start callerEvent budget use = .ok (some d)) :
    d.kind ≠ .recursiveInstantiation := by
  simp only [checkThroughput, bind_eq_ok] at h
  obtain ⟨delay, -, gap, -, h⟩ := h
  split at h
  · cases h
  · cases h
    rw [kind_diagnostic]
    split <;> simp

theorem kind_of_firstComplaint {α : Type} {check : α → Except Fault (Option Diagnostic)} {as : List α}
    (hcheck : ∀ a d, check a = .ok (some d) → d.kind ≠ .recursiveInstantiation) {d : Diagnostic}
    (h : firstComplaint check as = .ok (some d)) : d.kind ≠ .recursiveInstantiation := by
  induction as with
  | nil => cases h
  | cons a as ih =>
    simp only [firstComplaint, bind_eq_ok] at h
    obtain ⟨o, ho, h⟩ := h
    cases o with
    | none => exact ih h
    | some d' =>
      cases h
      exact hcheck a _ ho

theorem kind_of_checkEvent {inst : Instance} {log : List Firing} {event : Event} {d : Diagnostic}
    (h : c.checkEvent inst log event = .ok (some d)) : d.kind ≠ .recursiveInstantiation := by
  simp only [checkEvent, bind_eq_ok] at h
  obtain ⟨ordered, -, h⟩ := h
  split at h
  next hd =>
    cases h
    exact kind_of_checkComparable hd
  · simp only [bind_eq_ok] at h
    obtain ⟨o, ho, h⟩ := h
    cases o with
    | some d' =>
      cases h
      exact kind_of_firstComplaint (fun _ _ hd => kind_of_checkSpacing hd) ho
    | none =>
      dsimp only at h
      split at h
      · cases h
      · split at h
        · cases h
        · obtain ⟨budget, -, h⟩ := bind_eq_ok.1 h
          exact kind_of_firstComplaint (fun _ _ hd => kind_of_checkThroughput hd) h

theorem unrelated_checkDelays {schedule : Schedule} {found : List Diagnostic}
    (h : c.checkDelays schedule = .ok found) : Unrelated found := by
  simp only [checkDelays, bind_eq_ok, mapM_eq_ok, pure_eq_ok] at h
  obtain ⟨os, hos, rfl⟩ := h
  refine Unrelated.filterMap_id fun d hd => ?_
  obtain ⟨name, -, hlog⟩ := exists_left_of_forall₂ hos hd
  unfold checkLog at hlog
  split at hlog
  · cases hlog
  · exact kind_of_firstComplaint (fun _ _ hd => kind_of_checkEvent hd) hlog

end Caller

namespace Bench

variable {b : Bench}

@[simp] theorem kind_diagnostic {kind : DiagnosticKind} {message : String} {loc : Option Loc}
    {fields : List (String × Datum)} : (b.diagnostic kind message loc fields).kind = kind := rfl

theorem unrelated_endpoint {ref : PortRef} {role : Role} {loc : Option Loc}
    {r : Option Endpoint × List Diagnostic} (h : b.endpoint ref role loc = .ok r) : Unrelated r.2 := by
  unfold endpoint at h
  split at h
  · unfold callerEnd at h
    split at h
    · cases h
      simp
    · split at h
      · obtain ⟨_, -, h⟩ := bind_eq_ok.1 h
        cases h
        exact Unrelated.nil
      · cases h
        simp
  · cases h
    unfold firingEnd
    split
    · simp
    · split
      · simp
      · split
        · simp
        · split <;> simp

theorem unrelated_checkWidths {dest src : Endpoint} {loc : Option Loc} :
    Unrelated (b.checkWidths dest src loc) := by
  unfold checkWidths
  split <;> simp

theorem unrelated_checkIntervals {dest src : Endpoint} {loc : Option Loc} :
    Unrelated (b.checkIntervals dest src loc) := by
  unfold checkIntervals
  dsimp only
  split <;> simp

theorem unrelated_connect {ws : Wires} {wire : Wire} {r : Wires × List Diagnostic}
    (h : b.connect ws wire = .ok r) : Unrelated r.2 := by
  simp only [connect, bind_eq_ok] at h
  obtain ⟨⟨dest, destFound⟩, hdest, ⟨src, srcFound⟩, hsrc, h⟩ := h
  have hfound : Unrelated (destFound ++ srcFound) :=
    Unrelated.append_iff.2 ⟨unrelated_endpoint hdest, unrelated_endpoint hsrc⟩
  cases dest with
  | none =>
    cases h
    exact hfound
  | some dest =>
    dsimp only at h
    split at h
    · cases h
      simpa using hfound
    · cases src with
      | none =>
        cases h
        exact hfound
      | some src =>
        cases h
        simpa [unrelated_checkWidths, unrelated_checkIntervals] using hfound

theorem unrelated_step {body : Body} {s : Step} (hs : s ∈ b.steps body) {ws : Wires}
    {r : Wires × List Diagnostic} (h : b.step ws s = .ok r) : Unrelated r.2 := by
  cases s with
  | wire w => exact unrelated_connect h
  | misfit invocation complaint =>
    cases h
    rcases List.mem_append.1 hs with hs | hs
    · obtain ⟨inv, -, hs⟩ := List.mem_flatMap.1 hs
      unfold inputSteps at hs
      split at hs
      · dsimp only at hs
        split at hs
        · simp at hs
        · obtain ⟨-, rfl⟩ := Step.misfit.inj (List.mem_singleton.1 hs)
          simp
      · simp at hs
    · simp at hs

theorem unrelated_walk {steps : List Step}
    (hsteps : ∀ s ∈ steps, ∀ ws r, b.step ws s = .ok r → Unrelated r.2) {ws : Wires}
    {found : List Diagnostic} (h : (b.walk ws steps).2 = .ok found) : Unrelated found := by
  induction steps generalizing ws found with
  | nil =>
    cases h
    exact Unrelated.nil
  | cons s steps ih =>
    rw [List.forall_mem_cons] at hsteps
    rw [walk] at h
    split at h
    · cases h
    next ws' here hstep =>
      obtain ⟨later, hlater, rfl⟩ := map_eq_ok.1 h
      exact Unrelated.append_iff.2 ⟨hsteps.1 _ _ hstep, ih hsteps.2 hlater⟩

theorem unrelated_check {ws : Wires} {body : Body} {found : List Diagnostic}
    (h : (b.check ws body).2 = .ok found) : Unrelated found := by
  obtain ⟨walked, hwalked, rfl⟩ := map_eq_ok.1 h
  refine Unrelated.append_iff.2 ⟨unrelated_walk (fun s hs _ _ => unrelated_step hs) hwalked, ?_⟩
  simp only [undriven, Unrelated.append_iff, Unrelated.map_iff, Unrelated.flatMap_iff]
  refine ⟨by simp, fun inv _ => ?_⟩
  split
  · exact Unrelated.nil
  · split <;> simp

end Bench

theorem Body.unrelated_checkNames {b : Body} {component : String} :
    Unrelated (b.checkNames component) := by
  have go : ∀ labels seen, Unrelated (checkNames.go b component seen labels) := by
    intro labels
    induction labels with
    | nil => simp [checkNames.go]
    | cons l labels ih =>
      intro seen
      simp only [checkNames.go]
      split
      · simpa using ih _
      · exact ih _
  exact go _ _

theorem Component.unrelated_check {c : Component} {table : Table} {found : List Diagnostic}
    (h : c.check table = .ok (.rejected found)) : Unrelated found := by
  simp only [check, bind_eq_ok] at h
  obtain ⟨caller, -, resolved, hresolved, h⟩ := h
  split at h
  · cases h
    rw [Unrelated.append_iff, Unrelated.flatMap_iff]
    refine ⟨Body.unrelated_checkNames, fun r hr => ?_⟩
    obtain ⟨_, -, hr⟩ := exists_left_of_forall₂ (mapM_eq_ok.1 hresolved) hr
    exact Caller.unrelated_resolve hr
  · simp only [bind_eq_ok] at h
    obtain ⟨fired, hfired, wired, hwired, h⟩ := h
    split at h
    · cases h
      rw [Unrelated.append_iff, Unrelated.flatMap_iff]
      refine ⟨fun r hr => ?_, Bench.unrelated_check hwired⟩
      obtain ⟨inv, -, hinv⟩ := exists_left_of_forall₂ (mapM_eq_ok.1 hfired) hr
      simp only [bind_eq_ok, pure_eq_ok] at hinv
      obtain ⟨_, hinv, rfl⟩ := hinv
      exact Caller.unrelated_schedule hinv
    · obtain ⟨delays, hdelays, h⟩ := bind_eq_ok.1 h
      split at h
      · cases h
      · cases h
        exact Caller.unrelated_checkDelays hdelays

end Chronogram
