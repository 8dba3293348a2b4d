import Chronogram.Proofs.DesignFile
import Chronogram.Proofs.Table
import Chronogram.Proofs.WellFormedness

/-! Libraries of primitives with which designs can be checked. Where something is written does not
count when it is validated, so the bundled library can be registered wherever its file is. What is
loaded from a file can be registered as soon as each of its signatures passes validation. -/

namespace Chronogram

open Fallible

namespace Signature

variable {s : Signature} {ρ : Symbol → Int}

def unplaced (s : Signature) : Signature :=
  { s with
    params := s.params.map fun p => { p with loc := none }
    primary := { s.primary with loc := none }
    secondary := s.secondary.map fun e => { e with loc := none }
    ports := s.ports.map fun p => { p with loc := none }
    clauses := s.clauses.map fun c => { c with loc := none }
    loc := none }

theorem events_unplaced : s.unplaced.events = s.events.map fun e => { e with loc := none } := rfl

theorem paramNames_unplaced : s.unplaced.paramNames = s.paramNames := by
  simp [unplaced, paramNames, Function.comp_def]

theorem eventNames_unplaced : s.unplaced.eventNames = s.eventNames := by
  simp [eventNames, events_unplaced, Function.comp_def]

theorem portNames_unplaced : s.unplaced.portNames = s.portNames := by
  simp [unplaced, portNames, Function.comp_def]

theorem admits_unplaced : s.unplaced.Admits ρ ↔ s.Admits ρ := by
  simp [Admits, unplaced, Clause.Holds]

theorem Plain.of_unplaced (h : s.unplaced.Plain) : s.Plain := by
  refine ⟨?_, ?_, ?_, ?_⟩
  · simpa [unplaced] using h.default
  · simpa [events_unplaced] using h.delay
  · simpa [unplaced] using h.width
  · simpa [unplaced] using h.clause

theorem Declared.of_unplaced (h : s.unplaced.Declared) : s.Declared := by
  obtain ⟨hparams, hevents, hports, hdefault, hdelay, hwidth, hwindow, hclause⟩ := h
  rw [paramNames_unplaced] at hparams hdefault hdelay hwidth hclause
  rw [eventNames_unplaced] at hevents hdelay hwindow hclause
  rw [portNames_unplaced] at hports
  refine ⟨hparams, hevents, hports, ?_, ?_, ?_, ?_, ?_⟩
  · simpa [unplaced] using hdefault
  · simpa [events_unplaced] using hdelay
  · simpa [unplaced] using hwidth
  · simpa [unplaced] using hwindow
  · simpa [unplaced] using hclause

theorem WellFormed.of_unplaced (h : s.unplaced.WellFormed) : s.WellFormed := by
  refine ⟨⟨Declared.of_unplaced h.toDeclared, ?_, fun ρ hρ => ?_, fun ρ hρ => ?_⟩, ?_⟩
  · obtain ⟨ρ, hρ⟩ := h.admitted
    exact ⟨ρ, admits_unplaced.1 hρ⟩
  · simpa [events_unplaced] using h.delay_pos ρ (admits_unplaced.2 hρ)
  · simpa [unplaced] using h.nonempty ρ (admits_unplaced.2 hρ)
  · intro before p after hparams e he
    have hsplit : s.unplaced.params = before.map (fun p => { p with loc := none }) ++
        { p with loc := none } :: after.map fun p => { p with loc := none } := by
      simp [unplaced, hparams]
    simpa [Function.comp_def] using h.defaults _ _ _ hsplit e he

end Signature

namespace Table

/-- Signatures that pass validation and have different names, none of them taken, are all registered. -/
theorem registerAll_of_valid {t : Table} {signatures : List Signature}
    (hv : ∀ s ∈ signatures, s.validate = []) (hn : (signatures.map (·.name)).Nodup)
    (hfree : ∀ s ∈ signatures, t.get? s.name = none ∧ t.rejection? s.name = none) :
    (t.registerAll signatures).2 = none := by
  induction signatures generalizing t with
  | nil => rfl
  | cons s rest ih =>
    rw [List.forall_mem_cons] at hv hfree
    rw [List.map_cons, List.nodup_cons] at hn
    obtain ⟨facts, hfacts⟩ := (Signature.valid_of_validate hv.1).exists_facts
    rw [registerAll, register_of_free hfree.1.1 hfree.1.2 hv.1 hfacts]
    refine ih hv.2 hn.2 fun r hr => ?_
    have hother : r.name ≠ s.name := fun hname => hn.1 (hname ▸ List.mem_map_of_mem hr)
    rw [get?_add, if_neg hother, rejection?_add]
    exact hfree.2 r hr

end Table

namespace Primitives

structure Usable (library : List Signature) : Prop where
  plain : ∀ s ∈ library, s.Plain
  registers : (Table.empty.registerAll library).2 = none

variable {library : List Signature}

theorem usable_of_valid (hp : ∀ s ∈ library, s.Plain) (hv : ∀ s ∈ library, s.validate = [])
    (hn : (library.map (·.name)).Nodup) : Usable library :=
  ⟨hp, Table.registerAll_of_valid hv hn fun _ _ => ⟨rfl, rfl⟩⟩

theorem unplaced_core (file : String) :
    (core file).map (·.unplaced) = entries.map (·.2) := rfl

theorem usable_core (file : String) : Usable (core file) := by
  have hentries : (∀ e ∈ entries, e.2.Plain ∧ e.2.validate.isEmpty = true) ∧
      (entries.map (·.2.name)).Nodup := by decide +kernel
  have hmem : ∀ s ∈ core file, ∃ e ∈ entries, e.2 = s.unplaced := by
    intro s hs
    have hs : s.unplaced ∈ entries.map (·.2) := unplaced_core file ▸ List.mem_map_of_mem hs
    exact List.mem_map.1 hs
  have hnames : (core file).map (·.name) = entries.map (·.2.name) := by
    simp [core, placed]
  refine usable_of_valid (fun s hs => ?_) (fun s hs => ?_) (hnames ▸ hentries.2)
  · obtain ⟨e, he, heq⟩ := hmem s hs
    exact .of_unplaced (heq ▸ (hentries.1 e he).1)
  · obtain ⟨e, he, heq⟩ := hmem s hs
    have hv : s.unplaced.validate = [] := heq ▸ List.isEmpty_iff.1 (hentries.1 e he).2
    exact Signature.validate_of_wellFormed (.of_unplaced (Signature.wellFormed_of_validate hv))

/-- The library of a file holds signatures of its components, each under its own name. -/
theorem entries_of_collect {path : String} {cs : List Component} {found : Dict Signature}
    (h : cs.foldlM (collect path) .empty = .ok found) :
    ∀ e ∈ found.entries, e.2.name = e.1 ∧ ∃ c ∈ cs, c.signature = e.2 := by
  refine foldlM_invariant (P := fun (library : Dict Signature) =>
    ∀ e ∈ library.entries, e.2.name = e.1 ∧ ∃ c ∈ cs, c.signature = e.2) ?_ (by simp [Dict.empty]) h
  intro c hc library next hlibrary hnext
  unfold collect at hnext
  split at hnext
  · cases hnext
  · cases hnext
    intro e he
    rcases Dict.mem_entries_set he with rfl | he
    · exact ⟨rfl, c, hc, rfl⟩
    · exact hlibrary e he

/-- A library that is loaded from a file can be used as soon as its signatures pass validation. -/
theorem usable_of_load {files : Files} {loader : Loader} {path : Path}
    (h : load files path loader = .ok library) (hv : ∀ s ∈ library, s.validate = []) : Usable library := by
  unfold load at h
  split at h
  · cases h
  · simp only [ofDesign, bind_eq_ok, pure_eq_ok] at h
    obtain ⟨d, hd, found, hfound, rfl⟩ := h
    have hentries := entries_of_collect hfound
    have hnames : found.values.map (·.name) = found.names := by
      rw [Dict.values, Dict.names, List.map_map]
      exact List.map_congr_left fun e he => (hentries e he).1
    refine usable_of_valid (fun s hs => ?_) hv (hnames ▸ found.distinct)
    obtain ⟨e, he, rfl⟩ := List.mem_map.1 hs
    obtain ⟨-, c, hc, hsame⟩ := hentries e he
    exact hsame ▸ ((Files.readable_of_load hd).plain.components c hc).signature

end Primitives

end Chronogram
