import Chronogram.Dict
import Chronogram.Proofs.Association

/-! What is found in a dictionary after each of its operations, and lists of distinct names as
dictionaries. -/

namespace Chronogram.Dict

open Association

variable {α : Type} {d : Dict α} {n name : String} {value v : α}

@[ext]
theorem ext {a b : Dict α} (h : a.entries = b.entries) : a = b := by
  cases a
  cases b
  cases h
  rfl

theorem contains_iff : d.contains n = true ↔ n ∈ d.names := List.contains_iff_mem

theorem not_contains_iff : d.contains n = false ↔ n ∉ d.names := by
  rw [← contains_iff, Bool.not_eq_true]

theorem get?_eq_none : d.get? n = none ↔ n ∉ d.names := lookup_eq_none

theorem entries_set_of_not_mem (h : name ∉ d.names) :
    (d.set name value).entries = d.entries ++ [(name, value)] := by
  have hc : ¬ d.contains name = true := by rwa [contains_iff]
  rw [set, dif_neg hc]

theorem entries_set_of_mem (h : name ∈ d.names) :
    (d.set name value).entries = d.entries.map fun e => if e.1 == name then (name, value) else e := by
  have hc : d.contains name = true := contains_iff.2 h
  rw [set, dif_pos hc]
  simp only [beq_iff_eq]

theorem mem_entries_set {e : String × α} (h : e ∈ (d.set name value).entries) :
    e = (name, value) ∨ e ∈ d.entries := by
  by_cases hname : name ∈ d.names
  · rw [entries_set_of_mem hname] at h
    obtain ⟨old, hold, rfl⟩ := List.mem_map.1 h
    split
    · exact .inl rfl
    · exact .inr hold
  · rw [entries_set_of_not_mem hname, List.mem_append, List.mem_singleton] at h
    exact h.symm

theorem names_set_of_not_mem (h : name ∉ d.names) : (d.set name value).names = d.names ++ [name] := by
  rw [names, entries_set_of_not_mem h, List.map_append]
  rfl

@[simp]
theorem get?_set : (d.set name value).get? n = if n = name then some value else d.get? n := by
  by_cases h : name ∈ d.names
  · rw [get?, entries_set_of_mem h, lookup_change (fun _ => value) name]
    by_cases hn : n = name
    · subst hn
      obtain ⟨old, hold⟩ := exists_lookup h
      simp [hold]
    · simp [hn, get?]
  · rw [get?, entries_set_of_not_mem h, List.lookup_append]
    by_cases hn : n = name
    · subst hn
      rw [lookup_eq_none.2 h]
      simp
    · have hother : [(name, value)].lookup n = none := lookup_eq_none.2 (by simpa using hn)
      rw [hother, Option.or_none, if_neg hn, get?]

theorem names_erase : (d.erase name).names = d.names.filter (· != name) := by
  rw [names, erase, names, List.filter_map]
  rfl

@[simp]
theorem mem_names_erase : n ∈ (d.erase name).names ↔ n ∈ d.names ∧ n ≠ name := by
  rw [names_erase, List.mem_filter, bne_iff_ne]

@[simp]
theorem get?_erase : (d.erase name).get? n = if n = name then none else d.get? n := by
  have hlookup (l : List (String × α)) :
      (l.filter (·.1 != name)).lookup n = if n = name then none else l.lookup n := by
    induction l with
    | nil => simp
    | cons e l ih => grind
  exact hlookup d.entries

theorem entries_foldl_set {entries : List (String × α)}
    (h : ((d.entries ++ entries).map (·.1)).Nodup) :
    (entries.foldl (fun d e => d.set e.1 e.2) d).entries = d.entries ++ entries := by
  induction entries generalizing d with
  | nil => simp
  | cons e entries ih =>
    have hnew : e.1 ∉ d.names := by
      rw [List.map_append, List.nodup_append] at h
      intro he
      exact h.2.2 e.1 he e.1 (by simp) rfl
    have hset : (d.set e.1 e.2).entries = d.entries ++ [e] := entries_set_of_not_mem hnew
    rw [List.foldl_cons, ih, hset, List.append_assoc]
    · rfl
    · rw [hset, List.append_assoc]
      exact h

/-- Where each name stands once, the dictionary of a list is the list. -/
theorem entries_ofList {entries : List (String × α)} (h : (entries.map (·.1)).Nodup) :
    (ofList entries).entries = entries :=
  entries_foldl_set h

theorem values_index {values : List α} {key : α → String} (h : (values.map key).Nodup) :
    (index key values).values = values := by
  rw [index, Dict.values, entries_ofList, List.map_map]
  · exact List.map_id _
  · rwa [List.map_map]

theorem get?_index {values : List α} {key : α → String} (h : (values.map key).Nodup) (n : String) :
    (index key values).get? n = values.find? (key · == n) := by
  rw [index, get?, entries_ofList (by rwa [List.map_map])]
  clear h
  induction values with
  | nil => rfl
  | cons a values ih =>
    rw [List.map_cons, List.lookup_cons, List.find?_cons, ih, BEq.comm]

end Chronogram.Dict
