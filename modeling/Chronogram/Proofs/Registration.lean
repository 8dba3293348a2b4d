import Chronogram.Check.Report
import Chronogram.Proofs.Cycles
import Chronogram.Proofs.Library

/-! The table of a design. It is filled from the primitives, the imports and the components, in this
order. A component that was not refused is what its name stands for in the table, and a design whose
report is in order has no refusals, no two components of one name and no cycles of instantiation. -/

section

open Relation (TransGen)

namespace Chronogram

open Fallible

namespace Table

variable {t u : Table} {s : Signature} {name : String}

/-- A signature from another file, without change in place. -/
def importSignature (t : Table) (s : Signature) : Table :=
  if t.get? s.name = some s then t
  else
    match t.register s with
    | .ok t => t
    | .error e => t.reject s.name e.diagnostics

theorem Call.importSignature_eq : Call.importSignature s t = .ok () (t.importSignature s) := by
  have hstart : Call.importSignature s t = (if t.get? s.name = some s then pure ()
      else enter s >>= fun _ => pure () : Call Unit) t := rfl
  rw [hstart, Table.importSignature]
  split
  · rfl
  · split
    next u hu => exact bind_of_ok (enter_of_ok hu)
    next e he => exact bind_of_ok (enter_of_error he)

theorem Call.importAll_eq {signatures : List Signature} :
    Call.importAll signatures t = .ok () (signatures.foldl Table.importSignature t) := by
  induction signatures generalizing t with
  | nil => rfl
  | cons s rest ih => exact (bind_of_ok importSignature_eq).trans ih

/-- The table came about by registering plain signatures, and every rejected name has a reason. -/
structure Sound (t : Table) : Prop where
  built : t.Built
  explained : ∀ name, t.rejection? name ≠ some []

theorem sound_empty : Table.empty.Sound := ⟨.empty, fun name h => by cases h⟩

theorem Sound.register (ht : t.Sound) (hs : s.Plain) (h : t.register s = .ok u) : u.Sound := by
  obtain ⟨-, -, -, facts, -, rfl⟩ := register_eq_ok h
  exact ⟨ht.built.register hs h, ht.explained⟩

theorem Sound.refuse (ht : t.Sound) {e : SignatureError} (h : t.register s = .error e) (other : String) :
    (t.reject other e.diagnostics).Sound := by
  refine ⟨ht.built.reject other _, fun name hname => ?_⟩
  rw [rejection?_reject] at hname
  split at hname
  · have hnone := Option.some.inj hname
    exact diagnostics_of_register h (List.append_eq_nil_iff.1 hnone).2
  · exact ht.explained name hname

theorem Sound.registerAll (ht : t.Sound) {signatures : List Signature}
    (hs : ∀ s ∈ signatures, s.Plain) : (t.registerAll signatures).1.Sound := by
  induction signatures generalizing t with
  | nil => exact ht
  | cons s rest ih =>
    rw [List.forall_mem_cons] at hs
    rw [Table.registerAll]
    split
    next u hu => exact ih (ht.register hs.1 hu) hs.2
    · exact ht

theorem Sound.importSignature (ht : t.Sound) (hs : s.Plain) : (t.importSignature s).Sound := by
  unfold Table.importSignature
  split
  · exact ht
  · split
    next u hu => exact ht.register hs hu
    next e he => exact ht.refuse he s.name

theorem get?_register (h : t.register s = .ok u) : u.get? s.name = some s := by
  obtain ⟨-, -, -, facts, -, rfl⟩ := register_eq_ok h
  rw [get?_add, if_pos rfl]

theorem get?_of_register {r : Signature} (h : t.register s = .ok u) (hr : t.get? name = some r) :
    u.get? name = some r := by
  obtain ⟨hfree, -, -, facts, -, rfl⟩ := register_eq_ok h
  have hother : name ≠ s.name := by
    rintro rfl
    rw [hfree] at hr
    cases hr
  rw [get?_add, if_neg hother, hr]

def Withdrawn (t : Table) (name : String) : Prop := t.rejection? name ≠ none ∧ t.get? name = none

theorem withdrawn_reject (diagnostics : List Diagnostic) : (t.reject name diagnostics).Withdrawn name := by
  simp [Withdrawn]

theorem Withdrawn.reject (h : t.Withdrawn name) (other : String) (diagnostics : List Diagnostic) :
    (t.reject other diagnostics).Withdrawn name := by
  by_cases hname : name = other
  · exact hname ▸ withdrawn_reject diagnostics
  · rw [Withdrawn, rejection?_reject, get?_reject, if_neg hname, if_neg hname]
    exact h

theorem Withdrawn.register (h : t.Withdrawn name) (hu : t.register s = .ok u) : u.Withdrawn name := by
  obtain ⟨-, hfree, -, facts, -, rfl⟩ := register_eq_ok hu
  have hname : name ≠ s.name := fun hname => h.1 (hname ▸ hfree)
  rw [Withdrawn, rejection?_add, get?_add, if_neg hname]
  exact h

end Table

namespace Design

variable {d : Design} {t u : Table} {refused : List (String × List Diagnostic)} {cs : List Component}
  {name : String}

def registerComponents (t : Table) : List Component → Table × List (String × List Diagnostic)
  | [] => (t, [])
  | c :: rest =>
    match t.register c.signature with
    | .ok t => registerComponents t rest
    | .error e =>
      let (t, refused) := registerComponents (t.reject c.name e.diagnostics) rest
      (t, refused ++ [(c.name, e.diagnostics)])

theorem enterComponents_eq :
    enterComponents cs t = .ok (registerComponents t cs).2 (registerComponents t cs).1 := by
  induction cs generalizing t with
  | nil => rfl
  | cons c rest ih =>
    rw [registerComponents]
    split
    next u hu =>
      refine (Table.Call.bind_of_ok (Table.Call.enter_of_ok hu)).trans ?_
      refine (Table.Call.bind_of_ok ih).trans ?_
      simp only [Option.map_none, Option.toList_none, List.append_nil]
      rfl
    next e he =>
      refine (Table.Call.bind_of_ok (Table.Call.enter_of_error he)).trans ?_
      exact Table.Call.bind_of_ok ih

/-- The table of all signatures that the design may use, and what was refused in making it. -/
def table (d : Design) (primitives : List Signature) :
    Except SignatureError (Table × List (String × List Diagnostic)) :=
  let (t, failure) := if d.usePrimitives then Table.empty.registerAll primitives else (.empty, none)
  match failure with
  | some e => .error e
  | none => .ok (registerComponents (d.imported.foldl Table.importSignature t) d.components)

/-- Filling a table in place comes to the same. It fails only if a primitive is refused. -/
theorem filled_eq (d : Design) (primitives : List Signature) :
    d.filled primitives = (d.table primitives).mapError .badPrimitive := by
  have hrest (t : Table) : (Table.Call.importAll d.imported >>= fun _ => enterComponents d.components) t =
      .ok (registerComponents (d.imported.foldl Table.importSignature t) d.components).2
        (registerComponents (d.imported.foldl Table.importSignature t) d.components).1 :=
    (Table.Call.bind_of_ok Table.Call.importAll_eq).trans enterComponents_eq
  have hfill : d.fill primitives = (if d.usePrimitives then Table.Call.registerAll primitives else pure ()) >>=
      fun _ => Table.Call.importAll d.imported >>= fun _ => enterComponents d.components := by
    unfold fill
    split
    · rfl
    · rfl
  rw [filled, hfill, table]
  by_cases hp : d.usePrimitives = true
  · rw [if_pos hp, if_pos hp]
    cases hall : Table.empty.registerAll primitives with
    | mk t failure =>
      cases failure with
      | some e => rw [Table.Call.bind_of_error (Table.Call.registerAll_of_some hall)]; rfl
      | none => rw [Table.Call.bind_of_ok (Table.Call.registerAll_of_none hall), hrest]; rfl
  · rw [if_neg hp, if_neg hp]
    have hstart : (pure () : Table.Call Unit) .empty = .ok () .empty := rfl
    rw [Table.Call.bind_of_ok hstart, hrest]
    rfl

theorem sound_registerComponents (ht : t.Sound) (hcs : ∀ c ∈ cs, c.Plain) :
    (registerComponents t cs).1.Sound := by
  induction cs generalizing t with
  | nil => exact ht
  | cons c rest ih =>
    rw [List.forall_mem_cons] at hcs
    rw [registerComponents]
    split
    next u hu => exact ih (ht.register hcs.1.signature hu) hcs.2
    next e he => exact ih (ht.refuse he c.name) hcs.2

theorem table_eq_ok {primitives : List Signature} (h : d.table primitives = .ok (u, refused)) :
    ∃ t, ((∀ s ∈ primitives, s.Plain) → d.Plain → t.Sound) ∧
      registerComponents t d.components = (u, refused) := by
  unfold table at h
  split at h
  next t failure hstart =>
  split at h
  · cases h
  · refine ⟨_, fun hp hd => ?_, Except.ok.inj h⟩
    have ht : t.Sound := by
      split at hstart
      · have hall := Table.sound_empty.registerAll hp
        rwa [hstart] at hall
      · cases hstart
        exact Table.sound_empty
    refine List.foldlRecOn (motive := fun (t : Table) => t.Sound) _ _ ht ?_
    intro t ht s hs
    exact ht.importSignature (hd.imported s hs)

theorem sound_table {primitives : List Signature} (hd : d.Plain) (hp : ∀ s ∈ primitives, s.Plain)
    (h : d.table primitives = .ok (t, refused)) : t.Sound := by
  obtain ⟨start, hstart, hu⟩ := table_eq_ok h
  have hsound := sound_registerComponents (hstart hp hd) hd.components
  rwa [hu] at hsound

/-- A library that can be used never stands in the way of a table. -/
theorem exists_table {primitives : List Signature} (h : Primitives.Usable primitives) (d : Design) :
    ∃ t refused, d.table primitives = .ok (t, refused) := by
  unfold table
  by_cases hp : d.usePrimitives = true
  · rw [if_pos hp]
    simp only [h.registers]
    exact ⟨_, _, rfl⟩
  · rw [if_neg hp]
    exact ⟨_, _, rfl⟩

theorem lookup_append_singleton {found : List Diagnostic} {other : String}
    (h : (refused ++ [(other, found)]).lookup name = none) : refused.lookup name = none ∧ name ≠ other := by
  rw [List.lookup_append, Option.or_eq_none_iff] at h
  refine ⟨h.1, ?_⟩
  rintro rfl
  simp at h

theorem get?_registerComponents {s : Signature} (ht : t.get? name = some s)
    (hn : (registerComponents t cs).2.lookup name = none) :
    (registerComponents t cs).1.get? name = some s := by
  induction cs generalizing t with
  | nil => exact ht
  | cons c rest ih =>
    rw [registerComponents] at hn ⊢
    split at hn
    next u hu => exact ih (Table.get?_of_register hu ht) hn
    next e he =>
      obtain ⟨hn, hne⟩ := lookup_append_singleton hn
      exact ih (by rwa [Table.get?_reject, if_neg hne]) hn

theorem registered_of_registerComponents {c : Component} (hc : c ∈ cs)
    (hn : (registerComponents t cs).2.lookup c.name = none) :
    (registerComponents t cs).1.get? c.name = some c.signature := by
  induction cs generalizing t with
  | nil => simp at hc
  | cons first rest ih =>
    rw [registerComponents] at hn ⊢
    split at hn
    next u hu =>
      rcases List.mem_cons.1 hc with rfl | hc
      · exact get?_registerComponents (Table.get?_register hu) hn
      · exact ih hc hn
    next e he =>
      obtain ⟨hn, hne⟩ := lookup_append_singleton hn
      rcases List.mem_cons.1 hc with rfl | hc
      · exact absurd rfl hne
      · exact ih hc hn

theorem registered_of_table {primitives : List Signature} {c : Component}
    (h : d.table primitives = .ok (t, refused)) (hc : c ∈ d.components)
    (hn : refused.lookup c.name = none) : t.get? c.name = some c.signature := by
  obtain ⟨start, -, hu⟩ := table_eq_ok h
  have hreg := registered_of_registerComponents (t := start) hc
  rw [hu] at hreg
  exact hreg hn

theorem refused_of_taken {c : Component} {s : Signature} (ht : t.get? c.name = some s) (hc : c ∈ cs) :
    (registerComponents t cs).2.lookup c.name ≠ none := by
  intro hn
  induction cs generalizing t with
  | nil => simp at hc
  | cons first rest ih =>
    rw [registerComponents] at hn
    split at hn
    next u hu =>
      rcases List.mem_cons.1 hc with rfl | hc
      · obtain ⟨hfree, -⟩ := Table.register_eq_ok hu
        have htaken : t.get? c.signature.name = some s := ht
        rw [hfree] at htaken
        cases htaken
      · exact ih (Table.get?_of_register hu ht) hc hn
    next e he =>
      obtain ⟨hn, hne⟩ := lookup_append_singleton hn
      rcases List.mem_cons.1 hc with rfl | hc
      · exact absurd rfl hne
      · exact ih (by rwa [Table.get?_reject, if_neg hne]) hc hn

theorem nodup_of_registerComponents {p : Component → Bool}
    (h : ∀ c ∈ cs, p c = true → (registerComponents t cs).2.lookup c.name = none) :
    ((cs.filter p).map (·.name)).Nodup := by
  induction cs generalizing t with
  | nil => simp
  | cons first rest ih =>
    rw [List.forall_mem_cons] at h
    rw [registerComponents] at h
    split at h
    next u hu =>
      by_cases hp : p first = true
      · rw [List.filter_cons_of_pos hp, List.map_cons, List.nodup_cons]
        refine ⟨fun hmem => ?_, ih h.2⟩
        obtain ⟨c, hc, hname⟩ := List.mem_map.1 hmem
        obtain ⟨hc, hpc⟩ := List.mem_filter.1 hc
        have htaken : u.get? c.name = some first.signature := hname ▸ Table.get?_register hu
        exact refused_of_taken htaken hc (h.2 c hc hpc)
      · rw [List.filter_cons_of_neg hp]
        exact ih h.2
    next e he =>
      have hp : ¬ p first = true := fun hp => (lookup_append_singleton (h.1 hp)).2 rfl
      rw [List.filter_cons_of_neg hp]
      exact ih fun c hc hpc => (lookup_append_singleton (h.2 c hc hpc)).1

theorem nodup_accepted {primitives : List Signature} (h : d.table primitives = .ok (t, refused)) :
    ((d.components.filter fun c => (refused.lookup c.name).isNone).map (·.name)).Nodup := by
  obtain ⟨start, -, hstart⟩ := table_eq_ok h
  refine nodup_of_registerComponents (t := start) fun c _ hfree => ?_
  rw [hstart]
  exact Option.isNone_iff_eq_none.1 hfree

/-- Of two components of one name neither is accepted. -/
theorem eq_of_name {c c' : Component} (hc : c ∈ cs) (hc' : c' ∈ cs) (hname : c'.name = c.name)
    (h : (registerComponents t cs).2.lookup c.name = none) : c' = c := by
  induction cs generalizing t with
  | nil => simp at hc
  | cons first rest ih =>
    rw [registerComponents] at h
    split at h
    next u hu =>
      have htaken : u.get? first.name = some first.signature := Table.get?_register hu
      rcases List.mem_cons.1 hc with rfl | hc
      · rcases List.mem_cons.1 hc' with rfl | hc'
        · rfl
        · exact absurd (hname ▸ h) (refused_of_taken (hname ▸ htaken) hc')
      · rcases List.mem_cons.1 hc' with hfirst | hc'
        · rw [hfirst] at hname
          exact absurd h (refused_of_taken (hname ▸ htaken) hc)
        · exact ih hc hc' h
    next e he =>
      obtain ⟨hrest, hne⟩ := lookup_append_singleton h
      rcases List.mem_cons.1 hc with rfl | hc
      · exact absurd rfl hne
      · rcases List.mem_cons.1 hc' with rfl | hc'
        · exact absurd hname.symm hne
        · exact ih hc hc' hrest

theorem eq_of_accepted {primitives : List Signature} {c c' : Component}
    (h : d.table primitives = .ok (t, refused)) (hc : c ∈ d.components) (hc' : c' ∈ d.components)
    (hname : c'.name = c.name) (hfree : refused.lookup c.name = none) : c' = c := by
  obtain ⟨start, -, hstart⟩ := table_eq_ok h
  refine eq_of_name (t := start) hc hc' hname ?_
  rwa [hstart]

theorem withdrawn_registerComponents (h : t.Withdrawn name) :
    (registerComponents t cs).1.Withdrawn name := by
  induction cs generalizing t with
  | nil => exact h
  | cons first rest ih =>
    rw [registerComponents]
    split
    next u hu => exact ih (h.register hu)
    next e he => exact ih (h.reject _ _)

theorem withdrawn_of_refused (h : (registerComponents t cs).2.lookup name ≠ none) :
    (registerComponents t cs).1.Withdrawn name := by
  induction cs generalizing t with
  | nil => exact absurd rfl h
  | cons first rest ih =>
    rw [registerComponents] at h ⊢
    split at h
    · exact ih h
    next e he =>
      by_cases hname : name = first.name
      · exact hname ▸ withdrawn_registerComponents (Table.withdrawn_reject _)
      · apply ih
        intro hnone
        apply h
        rw [List.lookup_append, hnone, Option.none_or, Association.lookup_eq_none]
        simpa using hname

theorem refused_eq_none_iff {primitives : List Signature} {c : Component}
    (h : d.table primitives = .ok (t, refused)) (hc : c ∈ d.components) :
    refused.lookup c.name = none ↔ t.get? c.name = some c.signature := by
  refine ⟨registered_of_table h hc, fun hreg => ?_⟩
  obtain ⟨start, -, hstart⟩ := table_eq_ok h
  by_contra hrefused
  have hwithdrawn : (registerComponents start d.components).1.Withdrawn c.name :=
    withdrawn_of_refused (by rwa [hstart])
  rw [hstart] at hwithdrawn
  simp [hwithdrawn.2] at hreg

theorem refused_cases {r : String × List Diagnostic} (hr : r ∈ (registerComponents t cs).2) :
    ∃ c ∈ cs, ∃ u e, Table.register u c.signature = .error e ∧ r = (c.name, e.diagnostics) := by
  induction cs generalizing t with
  | nil => simp [registerComponents] at hr
  | cons first rest ih =>
    rw [registerComponents] at hr
    split at hr
    · obtain ⟨c, hc, hrefused⟩ := ih hr
      exact ⟨c, by simp [hc], hrefused⟩
    next e he =>
      rcases List.mem_append.1 hr with hr | hr
      · obtain ⟨c, hc, hrefused⟩ := ih hr
        exact ⟨c, by simp [hc], hrefused⟩
      · exact ⟨first, by simp, t, e, he, List.mem_singleton.1 hr⟩

theorem refused_of_table {primitives : List Signature} {r : String × List Diagnostic}
    (h : d.table primitives = .ok (t, refused)) (hr : r ∈ refused) :
    ∃ c ∈ d.components, ∃ u e, Table.register u c.signature = .error e ∧
      r = (c.name, e.diagnostics) := by
  obtain ⟨start, -, hstart⟩ := table_eq_ok h
  refine refused_cases (t := start) ?_
  rwa [hstart]

theorem mem_of_mem_distinctComponents {c : Component} (hc : c ∈ d.distinctComponents) :
    c ∈ d.components := by
  refine List.foldlRecOn (motive := fun (seen : List Component) => ∀ c ∈ seen, c ∈ d.components) _ _
    (by simp) ?_ c hc
  intro seen ih first hfirst c hc
  unfold addDistinct at hc
  split at hc
  · exact ih c hc
  · rcases List.mem_append.1 hc with hc | hc
    · exact ih c hc
    · exact List.mem_singleton.1 hc ▸ hfirst

theorem names_foldl_addDistinct {seen : List Component} :
    (cs.foldl addDistinct seen).map (·.name) =
      seen.map (·.name) ++ ((cs.map (·.name)).filter (· ∉ seen.map (·.name))).eraseDups := by
  induction cs generalizing seen with
  | nil => simp
  | cons first rest ih =>
    rw [List.foldl_cons, ih, List.map_cons]
    unfold addDistinct
    split
    next hany =>
      have hseen : first.name ∈ seen.map (·.name) := by simpa using hany
      rw [List.filter_cons_of_neg (by simpa using hseen)]
    next hany =>
      have hseen : first.name ∉ seen.map (·.name) := by simpa using hany
      have hsplit : ∀ n : String, decide (n ∉ (seen ++ [first]).map (·.name)) =
          (!(n == first.name) && decide (n ∉ seen.map (·.name))) := by
        intro n
        by_cases hn : n = first.name <;> simp [hn]
      simp only [hsplit]
      rw [List.filter_cons_of_pos (by simpa using hseen), List.eraseDups_cons, List.filter_filter,
        List.map_append, List.append_assoc]
      rfl

theorem names_distinctComponents :
    d.distinctComponents.map (·.name) = (d.components.map (·.name)).eraseDups := by
  rw [distinctComponents, names_foldl_addDistinct]
  simp

theorem exists_distinct {c : Component} (hc : c ∈ d.components) :
    ∃ c' ∈ d.distinctComponents, c'.name = c.name := by
  rw [← List.mem_map, names_distinctComponents, List.mem_eraseDups]
  exact List.mem_map_of_mem hc

theorem foldl_addDistinct {seen : List Component} (h : ((seen ++ cs).map (·.name)).Nodup) :
    cs.foldl addDistinct seen = seen ++ cs := by
  induction cs generalizing seen with
  | nil => simp
  | cons first rest ih =>
    have hnew : seen.any (·.name == first.name) = false := by
      rw [List.map_append, List.map_cons] at h
      have hdisjoint := (List.nodup_append.1 h).2.2
      simp only [List.any_eq_false, beq_iff_eq]
      intro c hc
      exact hdisjoint _ (List.mem_map_of_mem hc) _ (by simp)
    have hrest : ((seen ++ [first] ++ rest).map (·.name)).Nodup := by simpa using h
    rw [List.foldl_cons, addDistinct, hnew]
    simpa using ih hrest

theorem mem_nodes_hierarchy (hn : name ∈ (hierarchy cs).nodes) :
    ∃ c ∈ cs, c.name = name ∧ ∃ b, c.body = some b := by
  simp only [hierarchy, Hierarchy.nodes, List.mem_eraseDups, List.mem_flatMap, List.mem_map,
    List.mem_filterMap, Option.map_eq_some_iff] at hn
  obtain ⟨_, ⟨⟨n, b⟩, ⟨c, hc, _, hb, hnb⟩, rfl⟩, hname⟩ := hn
  cases hnb
  rcases List.mem_cons.1 hname with rfl | hpart
  · exact ⟨c, hc, rfl, _, hb⟩
  · -- a part is listed only if it has a body itself
    have hbodied := (List.mem_filter.1 hpart).2
    simp only [List.any_eq_true, List.mem_filterMap, Option.map_eq_some_iff] at hbodied
    obtain ⟨_, ⟨c, hc, b, hb, rfl⟩, hname⟩ := hbodied
    exact ⟨c, hc, by simpa using hname, b, hb⟩

theorem uses_hierarchy {c part : Component} {b b' : Body} (hc : c ∈ cs) (hb : c.body = some b)
    (hpart : part ∈ cs) (hb' : part.body = some b') (hdep : part.name ∈ b.dependencies) :
    (hierarchy cs).Uses c.name part.name := by
  have hmem : ∀ {c : Component} {b : Body}, c ∈ cs → c.body = some b →
      (c.name, b) ∈ cs.filterMap fun c => c.body.map fun b => (c.name, b) := by
    intro c b hc hb
    exact List.mem_filterMap.2 ⟨c, hc, by rw [hb]; rfl⟩
  refine ⟨_, List.mem_map.2 ⟨(c.name, b), hmem hc hb, rfl⟩, List.mem_filter.2 ⟨hdep, ?_⟩⟩
  exact List.any_eq_true.2 ⟨_, hmem hpart hb', by simp⟩

theorem outcome_eq_verified {cycles : List (List String)} {c : Component} {v : Verified}
    (h : outcome (·.check t) refused cycles c = .ok (.verified v)) :
    refused.lookup c.name = none ∧ ∀ b, c.body = some b →
      (∀ cycle ∈ cycles, c.name ∉ cycle) ∧ c.check t = .ok (.verified v) := by
  unfold outcome at h
  split at h
  · cases h
  next hnone =>
    refine ⟨hnone, fun b hb => ?_⟩
    rw [hb] at h
    cases hcycles : cycles.find? (·.contains c.name) with
    | some cycle =>
      rw [hcycles] at h
      cases h
    | none =>
      rw [hcycles] at h
      exact ⟨by simpa using hcycles, h⟩

theorem mem_of_mem_agenda {cycles : List (List String)} {c : Component} (hc : c ∈ agenda cs cycles) :
    c ∈ cs := by
  obtain ⟨n, -, hfind⟩ := List.mem_filterMap.1 hc
  exact List.mem_of_find?_eq_some hfind

theorem outcome_imp {f g : Component → Except Fault Outcome} {cycles : List (List String)} {c : Component}
    {o : Outcome} (hfg : refused.lookup c.name = none → f c = .ok o → g c = .ok o)
    (h : outcome f refused cycles c = .ok o) : outcome g refused cycles c = .ok o := by
  unfold outcome at h ⊢
  split at h
  · exact h
  next hfree =>
    split at h
    · exact h
    · exact h
    · exact hfg hfree h

/-- What is recorded under the name of an accepted component is the outcome of its check. -/
theorem check_of_recorded {primitives : List Signature} {cycles : List (List String)} {c : Component}
    {o : Outcome} {outcomes : List (String × Outcome)} (htable : d.table primitives = .ok (t, refused))
    (hc : c ∈ d.components) (hfree : refused.lookup c.name = none)
    (houtcomes : List.Forall₂ (fun c r => ∃ o, c.check t = .ok o ∧ (c.name, o) = r)
      (agenda (d.components.filter fun c => (refused.lookup c.name).isNone) cycles) outcomes)
    (h : recorded outcomes c = .ok o) : c.check t = .ok o := by
  unfold recorded at h
  split at h
  next o' hlookup =>
    obtain rfl := Except.ok.inj h
    obtain ⟨c', hmem, o, ho, heq⟩ :=
      exists_left_of_forall₂ houtcomes (Association.mem_of_lookup hlookup)
    obtain ⟨hname, rfl⟩ := Prod.mk.inj heq
    obtain rfl := eq_of_accepted htable hc (List.mem_filter.1 (mem_of_mem_agenda hmem)).1 hname hfree
    exact ho
  · cases h

/-- The stages of a check: the table, the checks of the bodies on the agenda, and the results. -/
theorem stages_of_check {primitives : List Signature} {search : Hierarchy.Search} {report : Report}
    (h : d.check primitives search = .ok report) :
    ∃ t refused cycles outcomes, d.table primitives = .ok (t, refused) ∧
      cycles = (hierarchy (d.components.filter fun c => (refused.lookup c.name).isNone)).cycles search ∧
      List.Forall₂ (fun c r => ∃ o, c.check t = .ok o ∧ (c.name, o) = r)
        (agenda (d.components.filter fun c => (refused.lookup c.name).isNone) cycles) outcomes ∧
      List.Forall₂ (fun c r => r.component = c.name ∧
        outcome (recorded outcomes) refused cycles c = .ok r.outcome) d.distinctComponents
        report.results := by
  simp only [check, filled_eq, bind_eq_ok, mapError_eq_ok, pure_eq_ok, mapM_eq_ok] at h
  obtain ⟨⟨t, refused⟩, htable, outcomes, houtcomes, results, hresults, rfl⟩ := h
  refine ⟨t, refused, _, outcomes, htable, rfl, houtcomes, hresults.imp ?_⟩
  rintro c _ ⟨out, hout, rfl⟩
  exact ⟨rfl, hout⟩

theorem check_eq_ok {primitives : List Signature} {search : Hierarchy.Search} {report : Report}
    (h : d.check primitives search = .ok report) :
    ∃ t refused cycles, d.table primitives = .ok (t, refused) ∧
      cycles = (hierarchy (d.components.filter fun c => (refused.lookup c.name).isNone)).cycles search ∧
      List.Forall₂ (fun c r => r.component = c.name ∧
        outcome (·.check t) refused cycles c = .ok r.outcome) d.distinctComponents report.results := by
  obtain ⟨t, refused, cycles, outcomes, htable, hcycles, houtcomes, hresults⟩ := stages_of_check h
  refine ⟨t, refused, cycles, htable, hcycles, (forall₂_mem hresults).imp ?_⟩
  rintro c r ⟨hc, -, hname, hout⟩
  exact ⟨hname, outcome_imp (fun hfree => check_of_recorded htable (mem_of_mem_distinctComponents hc)
    hfree houtcomes) hout⟩

/-- A component whose result is in order is registered, and its body was checked without a complaint. -/
theorem verified_of_result {primitives : List Signature} {search : Hierarchy.Search} {report : Report}
    {c : Component} {b : Body} (h : d.check primitives search = .ok report)
    (htable : d.table primitives = .ok (t, refused)) (hc : c ∈ d.components) (hb : c.body = some b) {r : CheckResult} (hr : r ∈ report.results)
    (hname : r.component = c.name) (hok : r.isOk = true) :
    t.get? c.name = some c.signature ∧ ∃ v, c.check t = .ok (.verified v) := by
  obtain ⟨t', refused', cycles, htable', -, hresults⟩ := check_eq_ok h
  obtain ⟨rfl, rfl⟩ : t' = t ∧ refused' = refused := by simpa [htable] using htable'.symm
  obtain ⟨c', hc', hcomponent, hout⟩ := exists_left_of_forall₂ hresults hr
  unfold CheckResult.isOk at hok
  split at hok
  next v hv =>
    rw [hv] at hout
    obtain ⟨hfree, hverified⟩ := outcome_eq_verified hout
    have hsame : c'.name = c.name := hcomponent.symm.trans hname
    obtain rfl := eq_of_accepted htable (mem_of_mem_distinctComponents hc') hc hsame.symm hfree
    exact ⟨registered_of_table htable hc hfree, v, (hverified b hb).2⟩
  · cases hok

/-- Nothing is wrong with the design, as seen against its table. -/
structure Accepted (d : Design) (t : Table) : Prop where
  plain : d.Plain
  sound : t.Sound
  registered : ∀ c ∈ d.components, t.get? c.name = some c.signature
  verified : ∀ c ∈ d.components, ∀ b, c.body = some b → ∃ v, c.check t = .ok (.verified v)
  acyclic : ∀ n, ¬ TransGen (hierarchy d.components).Uses n n

theorem refused_eq_nil {primitives : List Signature} (htable : d.table primitives = .ok (t, refused))
    (h : ∀ c ∈ d.components, refused.lookup c.name = none) : refused = [] := by
  refine List.eq_nil_iff_forall_not_mem.2 fun r hr => ?_
  obtain ⟨c, hc, -, e, -, rfl⟩ := refused_of_table htable hr
  exact Association.lookup_eq_none.1 (h c hc) (List.mem_map_of_mem hr)

/-- A design whose report is in order is accepted, and nothing was refused in making its table. -/
theorem accepted_of_check {primitives : List Signature} {search : Hierarchy.Search} {report : Report}
    (hd : d.Plain) (hp : ∀ s ∈ primitives, s.Plain) (hs : search.Finds)
    (h : d.check primitives search = .ok report) (hok : report.isOk = true) :
    ∃ t, d.table primitives = .ok (t, []) ∧ d.Accepted t := by
  obtain ⟨t, refused, cycles, htable, hcycles, hresults⟩ := check_eq_ok h
  have hverified : ∀ c ∈ d.distinctComponents,
      ∃ v, outcome (·.check t) refused cycles c = .ok (.verified v) := by
    intro c hc
    obtain ⟨r, hr, -, hout⟩ := exists_right_of_forall₂ hresults hc
    have hrok : r.isOk = true := List.all_eq_true.1 hok r hr
    unfold CheckResult.isOk at hrok
    split at hrok
    next v hv => exact ⟨v, hv ▸ hout⟩
    · cases hrok
  have hfree : ∀ c ∈ d.components, refused.lookup c.name = none := by
    intro c hc
    obtain ⟨c', hc', hname⟩ := exists_distinct hc
    obtain ⟨v, hv⟩ := hverified c' hc'
    exact hname ▸ (outcome_eq_verified hv).1
  obtain rfl := refused_eq_nil htable hfree
  have hdistinct : d.distinctComponents = d.components :=
    foldl_addDistinct (by simpa using nodup_accepted htable)
  rw [hdistinct] at hverified
  refine ⟨t, htable, hd, sound_table hd hp htable, ?_, ?_, ?_⟩
  · exact fun c hc => registered_of_table htable hc (hfree c hc)
  · intro c hc b hb
    obtain ⟨v, hv⟩ := hverified c hc
    exact ⟨v, ((outcome_eq_verified hv).2 b hb).2⟩
  · refine Hierarchy.acyclic_of_cycles hs ?_
    intro m hm cycle hcycle
    obtain ⟨c, hc, rfl, b, hb⟩ := mem_nodes_hierarchy hm
    obtain ⟨v, hv⟩ := hverified c hc
    refine ((outcome_eq_verified hv).2 b hb).1 cycle ?_
    rw [hcycles]
    simpa using hcycle

end Design

end Chronogram

end
