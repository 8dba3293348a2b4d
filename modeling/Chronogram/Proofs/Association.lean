import Mathlib.Data.List.Nodup

/-! Lists of names with values, as bindings and linear forms are kept: a look-up finds the first
entry of a name. -/

namespace Chronogram.Association

variable {α β γ : Type} {entries : List (α × β)} {k : α} {b : β}

theorem names_zip (names : List α) (values : List β) :
    (names.zip values).map (·.1) = names.take values.length := by
  induction names generalizing values with
  | nil => simp
  | cons n names ih =>
    cases values with
    | nil => rfl
    | cons b values => simp [ih]

/-- Names that are left over by the first values belong to the ones behind. -/
theorem zip_append_right {names : List α} {front : List β} (back : List β) (h : front.length ≤ names.length) :
    names.zip (front ++ back) = names.zip front ++ (names.drop front.length).zip back := by
  induction front generalizing names with
  | nil => simp
  | cons b front ih =>
    cases names with
    | nil => simp at h
    | cons n names => simp [ih (by simpa using h)]

variable [BEq α]

theorem lookup_map (f : β → γ) :
    (entries.map fun e => (e.1, f e.2)).lookup k = (entries.lookup k).map f := by
  induction entries with
  | nil => rfl
  | cons e es ih =>
    rw [List.map_cons, List.lookup_cons, List.lookup_cons]
    cases k == e.1 with
    | true => rfl
    | false => exact ih

variable [LawfulBEq α]

theorem lookup_eq_none : entries.lookup k = none ↔ k ∉ entries.map (·.1) := by
  rw [List.lookup_eq_none_iff]
  constructor
  · intro h hk
    obtain ⟨e, he, rfl⟩ := List.mem_map.1 hk
    simpa using h e he
  · intro h e he
    have : e.1 ≠ k := fun hek => h (hek ▸ List.mem_map_of_mem he)
    simpa using this.symm

theorem not_any_iff : (!entries.any (·.1 == k)) = true ↔ k ∉ entries.map (·.1) := by
  simp only [Bool.not_eq_true', List.any_eq_false, beq_iff_eq, List.mem_map, not_exists, not_and]

theorem exists_lookup (h : k ∈ entries.map (·.1)) : ∃ b, entries.lookup k = some b := by
  rw [← Option.isSome_iff_exists, ← Option.ne_none_iff_isSome]
  exact fun hn => lookup_eq_none.1 hn h

theorem mem_of_lookup (h : entries.lookup k = some b) : (k, b) ∈ entries := by
  obtain ⟨l, r, rfl, -⟩ := List.lookup_eq_some_iff.1 h
  simp

theorem lookup_change (f : β → β) (changed : α) :
    (entries.map fun e => if e.1 == changed then (changed, f e.2) else e).lookup k =
      if k == changed then (entries.lookup k).map f else entries.lookup k := by
  induction entries with
  | nil => simp
  | cons e es ih =>
    rw [List.map_cons, List.lookup_cons, List.lookup_cons, ih]
    by_cases he : e.1 = changed
    · cases hk : k == changed with
      | true => simp [he, hk]
      | false => simp [he, hk]
    · have hkey : (if e.1 == changed then (changed, f e.2) else e) = e := if_neg (by simpa using he)
      rw [hkey]
      cases hk : k == e.1 with
      | true => simp [eq_of_beq hk, he]
      | false => rfl

theorem lookup_of_mem (hn : (entries.map (·.1)).Nodup) (h : (k, b) ∈ entries) :
    entries.lookup k = some b := by
  induction entries with
  | nil => simp at h
  | cons e es ih =>
    rw [List.map_cons, List.nodup_cons] at hn
    rcases List.mem_cons.1 h with rfl | h
    · simp
    · have hne : k ≠ e.1 := by
        rintro rfl
        exact hn.1 (List.mem_map.2 ⟨_, h, rfl⟩)
      rw [List.lookup_cons, beq_false_of_ne hne]
      exact ih hn.2 h

theorem lookup_perm {others : List (α × β)} (hn : (entries.map (·.1)).Nodup) (h : others.Perm entries) (k : α) :
    others.lookup k = entries.lookup k := by
  cases hk : entries.lookup k with
  | none =>
    rw [lookup_eq_none] at hk ⊢
    rwa [(h.map _).mem_iff]
  | some b => exact lookup_of_mem ((h.map _).nodup_iff.2 hn) (h.mem_iff.2 (mem_of_lookup hk))

end Chronogram.Association
