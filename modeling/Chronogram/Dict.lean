/-! Dictionaries: values under names, each name once, in the order in which the names came. -/

namespace Chronogram

structure Dict (α : Type) where
  entries : List (String × α)
  distinct : (entries.map (·.1)).Nodup

namespace Dict

variable {α : Type}

def empty : Dict α := ⟨[], .nil⟩

def names (d : Dict α) : List String := d.entries.map (·.1)

def values (d : Dict α) : List α := d.entries.map (·.2)

def size (d : Dict α) : Nat := d.entries.length

def get? (d : Dict α) (name : String) : Option α := d.entries.lookup name

def contains (d : Dict α) (name : String) : Bool := d.names.contains name

theorem names_update (entries : List (String × α)) (name : String) (value : α) :
    (entries.map fun e => if e.1 = name then (name, value) else e).map (·.1) = entries.map (·.1) := by
  rw [List.map_map]
  apply List.map_congr_left
  intro e _
  simp only [Function.comp]
  split
  next h => exact h.symm
  next => rfl

theorem distinct_append {d : Dict α} {name : String} (value : α) (h : ¬ d.contains name) :
    ((d.entries ++ [(name, value)]).map (·.1)).Nodup := by
  rw [List.map_append, List.nodup_append]
  refine ⟨d.distinct, by simp, ?_⟩
  intro a ha b hb hab
  rw [List.map_singleton, List.mem_singleton] at hb
  rw [hab, hb] at ha
  exact h (List.contains_iff_mem.2 ha)

/-- Puts a value under a name. A name that is there keeps its place. -/
def set (d : Dict α) (name : String) (value : α) : Dict α :=
  if h : d.contains name then
    ⟨d.entries.map fun e => if e.1 = name then (name, value) else e,
      (names_update d.entries name value).symm ▸ d.distinct⟩
  else ⟨d.entries ++ [(name, value)], distinct_append value h⟩

def erase (d : Dict α) (name : String) : Dict α :=
  ⟨d.entries.filter (·.1 != name), d.distinct.sublist (List.filter_sublist.map _)⟩

/-- Puts in one entry after the other, so that the last one of a name counts. -/
def ofList (entries : List (String × α)) : Dict α := entries.foldl (fun d e => d.set e.1 e.2) empty

def index (key : α → String) (values : List α) : Dict α := ofList (values.map fun a => (key a, a))

end Dict

end Chronogram
