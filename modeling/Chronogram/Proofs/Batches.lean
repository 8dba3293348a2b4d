import Chronogram.Proofs.Registration
import Mathlib.Data.Fintype.Card
import Mathlib.Data.Fintype.EquivFin
import Mathlib.Data.List.Nodup
import Mathlib.Order.WellFounded

/-! The batches in which a hierarchy is gone through. The search for cycles ends for want of a cycle, so
nothing that is left contains itself, and there is always a component without parts to go on with:
the batches hold each component that is left, and hold it once. -/

section

open Relation (TransGen)

namespace Chronogram

namespace Hierarchy

variable {h : Hierarchy} {search : Search} {names more : List String} {n m : String}

theorem map_fst_without : (h.without names).map (·.1) = (h.map (·.1)).filter (!names.contains ·) := by
  simp only [without, List.map_map, List.filter_map]
  rfl

/-- Each component is listed once, and its parts are listed too. -/
structure Closed (h : Hierarchy) : Prop where
  nodup : (h.map (·.1)).Nodup
  listed : ∀ n m, h.Uses n m → m ∈ h.map (·.1)

/-- Moreover, none contains itself. -/
structure Layered (h : Hierarchy) : Prop extends h.Closed where
  acyclic : ∀ n, ¬ TransGen h.Uses n n

theorem Closed.without (hh : h.Closed) (names : List String) : (h.without names).Closed := by
  refine ⟨?_, fun n m hnm => ?_⟩
  · rw [map_fst_without]
    exact hh.nodup.filter _
  · obtain ⟨huses, -, hm⟩ := uses_without.1 hnm
    rw [map_fst_without, List.mem_filter]
    exact ⟨hh.listed n m huses, by simpa using hm⟩

theorem Layered.without (hh : h.Layered) (names : List String) : (h.without names).Layered := by
  refine ⟨hh.toClosed.without names, fun n hcycle => ?_⟩
  exact hh.acyclic n (TransGen.mono (fun _ _ hab => (uses_without.1 hab).1) _ _ hcycle)

theorem spared_of_not_mem {cycles : List (List String)} (hn : n ∉ cycles.flatten) : Spared cycles n :=
  fun _ hcycle hmem => hn (List.mem_flatten.2 ⟨_, hcycle, hmem⟩)

theorem Closed.layered (hh : h.Closed) (hs : search.Finds) :
    (h.without (h.cycles search).flatten).Layered := by
  refine ⟨hh.without _, fun n hcycle => ?_⟩
  apply acyclic_go (h := h) (n := n) hs le_rfl
  refine TransGen.mono (fun a b hab => ?_) _ _ hcycle
  obtain ⟨huses, ha, hb⟩ := uses_without.1 hab
  exact ⟨huses, spared_of_not_mem ha, spared_of_not_mem hb⟩

theorem Layered.ready_ne_nil (hh : h.Layered) (hne : h ≠ []) : h.ready ≠ [] := by
  -- containment is well founded, and a minimal component has no parts
  let R (a b : {n // n ∈ h.map (·.1)}) : Prop := TransGen h.Uses b.1 a.1
  have : IsTrans _ R := ⟨fun a b c hab hbc => TransGen.trans hbc hab⟩
  have : Std.Irrefl R := ⟨fun a ha => hh.acyclic a.1 ha⟩
  obtain ⟨⟨first, parts⟩, hfirst⟩ := List.exists_mem_of_ne_nil h hne
  obtain ⟨⟨n, hn⟩, -, hmin⟩ := (Finite.wellFounded_of_trans_of_irrefl R).has_min Set.univ
    ⟨⟨first, List.mem_map_of_mem hfirst⟩, trivial⟩
  obtain ⟨e, he, rfl⟩ := List.mem_map.1 hn
  refine List.ne_nil_of_mem (List.mem_map_of_mem (List.mem_filter.2 ⟨he, ?_⟩))
  rw [List.isEmpty_iff, List.eq_nil_iff_forall_not_mem]
  intro m hm
  have huses : h.Uses e.1 m := ⟨e.2, he, hm⟩
  exact hmin ⟨m, hh.listed e.1 m huses⟩ trivial (.single huses)

theorem mem_of_mem_ready (hn : n ∈ h.ready) : n ∈ h.map (·.1) := by
  obtain ⟨e, he, rfl⟩ := List.mem_map.1 hn
  exact List.mem_map_of_mem (List.mem_filter.1 he).1

theorem Layered.perm_ready (hh : h.Layered) :
    (h.ready ++ (h.without h.ready).map (·.1)).Perm (h.map (·.1)) := by
  have hready : h.ready.Perm ((h.map (·.1)).filter (h.ready.contains ·)) := by
    have hsub : List.Sublist h.ready (h.map (·.1)) := List.filter_sublist.map _
    rw [List.perm_ext_iff_of_nodup (hh.nodup.sublist hsub) (hh.nodup.filter _)]
    intro n
    rw [List.mem_filter, List.contains_iff_mem]
    exact ⟨fun hn => ⟨mem_of_mem_ready hn, hn⟩, And.right⟩
  rw [map_fst_without]
  exact (hready.append_right _).trans (List.filter_append_perm _ _)

theorem Layered.perm_go {fuel : Nat} (hh : h.Layered) (hfuel : h.length ≤ fuel) :
    (batches.go fuel h).flatten.Perm (h.map (·.1)) := by
  induction fuel generalizing h with
  | zero =>
    obtain rfl := List.length_eq_zero_iff.1 (Nat.le_zero.1 hfuel)
    rfl
  | succ fuel ih =>
    by_cases hne : h = []
    · subst hne
      rfl
    · obtain ⟨n, hn⟩ := List.exists_mem_of_ne_nil _ (hh.ready_ne_nil hne)
      have hlt := length_without_lt hn (mem_of_mem_ready hn)
      have hrest := ih (hh.without h.ready) (Nat.le_of_lt_succ (hlt.trans_le hfuel))
      have hgo : batches.go (fuel + 1) h = h.ready :: batches.go fuel (h.without h.ready) := by
        rw [batches.go]
        split
        next hnil => exact absurd hnil (hh.ready_ne_nil hne)
        · rfl
      rw [hgo, List.flatten_cons]
      exact (hrest.append_left _).trans hh.perm_ready

theorem Layered.perm_batches (hh : h.Layered) : h.batches.flatten.Perm (h.map (·.1)) :=
  hh.perm_go le_rfl

end Hierarchy

namespace Design

variable {cs : List Component} {c : Component} {search : Hierarchy.Search}

theorem map_fst_hierarchy :
    (hierarchy cs).map (·.1) = (cs.filter (·.body.isSome)).map (·.name) := by
  rw [hierarchy, List.map_map]
  change (cs.filterMap fun c => c.body.map fun b => (c.name, b)).map (·.1) = _
  induction cs with
  | nil => rfl
  | cons first rest ih =>
    cases hb : first.body with
    | none => simpa [hb] using ih
    | some b => simpa [hb] using ih

theorem closed_hierarchy (hcs : (cs.map (·.name)).Nodup) : (hierarchy cs).Closed := by
  refine ⟨?_, fun n m hnm => ?_⟩
  · rw [map_fst_hierarchy]
    exact hcs.sublist (List.filter_sublist.map _)
  · obtain ⟨c, hc, rfl, b, hb⟩ := mem_nodes_hierarchy (Hierarchy.mem_nodes_of_uses hnm).2
    rw [map_fst_hierarchy]
    exact List.mem_map_of_mem (List.mem_filter.2 ⟨hc, by rw [hb]; rfl⟩)

theorem names_found {names : List String} (h : ∀ n ∈ names, n ∈ cs.map (·.name)) :
    (names.filterMap fun n => cs.find? (·.name == n)).map (·.name) = names := by
  induction names with
  | nil => rfl
  | cons n rest ih =>
    rw [List.forall_mem_cons] at h
    obtain ⟨c, hc, hname⟩ := List.mem_map.1 h.1
    have hsome : (cs.find? (·.name == n)).isSome = true := List.find?_isSome.2 ⟨c, hc, by simp [hname]⟩
    obtain ⟨found, hfound⟩ := Option.isSome_iff_exists.1 hsome
    have hn : found.name = n := by simpa using List.find?_some hfound
    simp only [List.filterMap_cons, hfound, List.map_cons, ih h.2, hn]

/-- The names on the agenda are those of the components that have a body and are on no cycle. -/
theorem perm_agenda (hs : search.Finds) (hcs : (cs.map (·.name)).Nodup) :
    ((agenda cs ((hierarchy cs).cycles search)).map (·.name)).Perm
      (((cs.filter (·.body.isSome)).map (·.name)).filter
        (!((hierarchy cs).cycles search).flatten.contains ·)) := by
  have hperm := ((closed_hierarchy hcs).layered hs).perm_batches
  rw [Hierarchy.map_fst_without, map_fst_hierarchy] at hperm
  rw [agenda, names_found]
  · exact hperm
  · intro n hn
    exact (List.filter_sublist.map _).subset (List.mem_filter.1 (hperm.mem_iff.1 hn)).1

theorem mem_agenda (hs : search.Finds) (hcs : (cs.map (·.name)).Nodup) :
    c ∈ agenda cs ((hierarchy cs).cycles search) ↔
      c ∈ cs ∧ c.body.isSome ∧ Hierarchy.Spared ((hierarchy cs).cycles search) c.name := by
  have hnames : ∀ n, n ∈ (agenda cs ((hierarchy cs).cycles search)).map (·.name) ↔
      (∃ c ∈ cs, c.body.isSome ∧ c.name = n) ∧ Hierarchy.Spared ((hierarchy cs).cycles search) n := by
    intro n
    rw [(perm_agenda hs hcs).mem_iff]
    simp [Hierarchy.Spared, and_assoc]
  constructor
  · intro hc
    have hmem := mem_of_mem_agenda hc
    obtain ⟨⟨c', hc', hb, hname⟩, hspared⟩ := (hnames _).1 (List.mem_map_of_mem hc)
    obtain rfl := List.inj_on_of_nodup_map hcs hc' hmem hname
    exact ⟨hmem, hb, hspared⟩
  · rintro ⟨hmem, hb, hspared⟩
    obtain ⟨c', hc', hname⟩ := List.mem_map.1 ((hnames _).2 ⟨⟨c, hmem, hb, rfl⟩, hspared⟩)
    obtain rfl := List.inj_on_of_nodup_map hcs (mem_of_mem_agenda hc') hmem hname
    exact hc'

end Design

end Chronogram

end
