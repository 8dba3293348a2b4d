import Mathlib.Data.List.Forall2

/-! Computations that may fail: a sequence gives a result exactly when every step of it does. The
lemmas open such a computation from its result, so that no proof has to unfold the monad. -/

namespace Chronogram.Fallible

variable {ε δ α β : Type} {m : Except ε α} {r : α}

@[simp] theorem bind_eq_ok {k : α → Except ε β} {s : β} :
    m >>= k = .ok s ↔ ∃ a, m = .ok a ∧ k a = .ok s := by
  cases m with
  | error _ => simp [bind, Except.bind]
  | ok _ => simp [bind, Except.bind]

theorem bind_eq_error {k : α → Except ε β} {e : ε} :
    m >>= k = .error e ↔ m = .error e ∨ ∃ a, m = .ok a ∧ k a = .error e := by
  cases m with
  | error _ => simp [bind, Except.bind]
  | ok _ => simp [bind, Except.bind]

@[simp] theorem pure_eq_ok {a : α} : (pure a : Except ε α) = .ok r ↔ a = r := Except.ok.injEq a r ▸ .rfl

@[simp] theorem throw_ne_ok {e : ε} : (throw e : Except ε α) ≠ .ok r := nofun

@[simp] theorem mapError_eq_ok {g : ε → δ} : m.mapError g = .ok r ↔ m = .ok r := by
  cases m with
  | error _ => simp [Except.mapError]
  | ok _ => simp [Except.mapError]

theorem map_eq_ok {g : α → β} {s : β} : m.map g = .ok s ↔ ∃ a, m = .ok a ∧ g a = s := by
  cases m with
  | error _ => simp [Except.map]
  | ok _ => simp [Except.map]

theorem toOption_eq_some : m.toOption = some r ↔ m = .ok r := by
  cases m with
  | error _ => simp [Except.toOption]
  | ok _ => simp [Except.toOption]

theorem mapM_eq_ok {f : α → Except ε β} {as : List α} {bs : List β} :
    as.mapM f = .ok bs ↔ List.Forall₂ (fun a b => f a = .ok b) as bs := by
  induction as generalizing bs with
  | nil => cases bs <;> simp
  | cons a as ih =>
    rw [List.mapM_cons]
    simp only [bind_eq_ok, pure_eq_ok, ih]
    constructor
    · rintro ⟨b, hb, bs, hbs, rfl⟩
      exact .cons hb hbs
    · rintro (_ | ⟨hb, hbs⟩)
      exact ⟨_, hb, _, hbs, rfl⟩

theorem mapM_eq_none {check : α → Except ε (Option β)} {as : List α}
    (h : ∀ a ∈ as, check a = .ok none) : as.mapM check = .ok (as.map fun _ => none) :=
  mapM_eq_ok.2 (List.forall₂_map_right_iff.2 (List.forall₂_same.2 h))

theorem bind_congr_ok {k l : α → Except ε β} (h : ∀ a, m = .ok a → k a = l a) : m >>= k = m >>= l := by
  cases m with
  | error e => rfl
  | ok a => exact h a rfl

theorem mapM_congr {f g : α → Except ε β} {as : List α} (h : ∀ a ∈ as, f a = g a) :
    as.mapM f = as.mapM g := by
  induction as with
  | nil => rfl
  | cons a as ih =>
    rw [List.forall_mem_cons] at h
    rw [List.mapM_cons, List.mapM_cons, h.1, ih h.2]

theorem foldlM_invariant {step : β → α → Except ε β} {P : β → Prop} {as : List α} {b b' : β}
    (hstep : ∀ a ∈ as, ∀ b b', P b → step b a = .ok b' → P b') (hb : P b)
    (h : as.foldlM step b = .ok b') : P b' := by
  induction as generalizing b with
  | nil =>
    obtain rfl := pure_eq_ok.1 h
    exact hb
  | cons a as ih =>
    rw [List.forall_mem_cons] at hstep
    rw [List.foldlM_cons] at h
    obtain ⟨next, hnext, h⟩ := bind_eq_ok.1 h
    exact ih hstep.2 (hstep.1 b next hb hnext) h

def Succeeds (m : Except ε α) : Prop := ∃ a, m = .ok a

theorem succeeds_pure (a : α) : Succeeds (pure a : Except ε α) := ⟨a, rfl⟩

theorem Succeeds.bind {k : α → Except ε β} (hm : Succeeds m) (hk : ∀ a, m = .ok a → Succeeds (k a)) :
    Succeeds (m >>= k) := by
  obtain ⟨a, rfl⟩ := hm
  exact hk a rfl

theorem Succeeds.ite {p : Prop} [Decidable p] {n : Except ε α} (hm : p → Succeeds m)
    (hn : ¬ p → Succeeds n) : Succeeds (if p then m else n) := by
  split
  next hp => exact hm hp
  next hp => exact hn hp

theorem Succeeds.mapError {g : ε → δ} (hm : Succeeds m) : Succeeds (m.mapError g) := by
  obtain ⟨a, rfl⟩ := hm
  exact ⟨a, rfl⟩

theorem Succeeds.mapM {f : α → Except ε β} {as : List α} (h : ∀ a ∈ as, Succeeds (f a)) :
    Succeeds (as.mapM f) := by
  induction as with
  | nil => exact succeeds_pure []
  | cons a as ih =>
    rw [List.mapM_cons]
    refine (h a (by simp)).bind fun b _ => ?_
    exact (ih fun a ha => h a (by simp [ha])).bind fun bs _ => succeeds_pure _

/-- If the computation fails, then in one of certain ways. -/
def Fails (P : ε → Prop) (m : Except ε α) : Prop := ∀ e, m = .error e → P e

section Fails

variable {P : ε → Prop}

theorem fails_pure (a : α) : Fails P (pure a) := by
  intro e h
  cases h

theorem fails_error {e : ε} (h : P e) : Fails P (.error e : Except ε α) := by
  intro e' he
  cases he
  exact h

theorem Fails.bind {k : α → Except ε β} (hm : Fails P m) (hk : ∀ a, Fails P (k a)) :
    Fails P (m >>= k) := by
  cases m with
  | ok a => exact hk a
  | error e => exact fails_error (hm e rfl)

theorem Fails.mapError {Q : δ → Prop} {g : ε → δ} (hm : Fails P m) (hg : ∀ e, P e → Q (g e)) :
    Fails Q (m.mapError g) := by
  cases m with
  | ok a => exact fails_pure a
  | error e => exact fails_error (hg e (hm e rfl))

theorem Fails.mapM {f : α → Except ε β} (hf : ∀ a, Fails P (f a)) (as : List α) :
    Fails P (as.mapM f) := by
  induction as with
  | nil => exact fails_pure []
  | cons a as ih =>
    rw [List.mapM_cons]
    exact (hf a).bind fun b => ih.bind fun bs => fails_pure _

end Fails

theorem exists_right_of_forall₂ {R : α → β → Prop} {as : List α} {bs : List β}
    (h : List.Forall₂ R as bs) {a : α} (ha : a ∈ as) : ∃ b ∈ bs, R a b := by
  induction h with
  | nil => simp at ha
  | cons hab _ ih =>
    rcases List.mem_cons.1 ha with rfl | ha
    · exact ⟨_, by simp, hab⟩
    · obtain ⟨b, hb, hr⟩ := ih ha
      exact ⟨b, by simp [hb], hr⟩

theorem exists_left_of_forall₂ {R : α → β → Prop} {as : List α} {bs : List β}
    (h : List.Forall₂ R as bs) {b : β} (hb : b ∈ bs) : ∃ a ∈ as, R a b :=
  exists_right_of_forall₂ h.flip hb

theorem forall₂_mem {R : α → β → Prop} {as : List α} {bs : List β} (h : List.Forall₂ R as bs) :
    List.Forall₂ (fun a b => a ∈ as ∧ b ∈ bs ∧ R a b) as bs := by
  induction h with
  | nil => exact .nil
  | cons hab _ ih =>
    refine .cons ⟨by simp, by simp, hab⟩ (ih.imp ?_)
    rintro a b ⟨ha, hb, hr⟩
    exact ⟨by simp [ha], by simp [hb], hr⟩

theorem mapM_imp {f g : α → Except ε β} {as : List α} {bs : List β} (h : as.mapM f = .ok bs)
    (hfg : ∀ a ∈ as, ∀ b ∈ bs, f a = .ok b → g a = .ok b) : as.mapM g = .ok bs := by
  refine mapM_eq_ok.2 ((forall₂_mem (mapM_eq_ok.1 h)).imp ?_)
  rintro a b ⟨ha, hb, hab⟩
  exact hfg a ha b hb hab

theorem forall₂_filterMap {γ : Type} {R : α → β → Prop} {S : α → γ → Prop} {g : β → Option γ}
    {as : List α} {bs : List β} (h : List.Forall₂ R as bs)
    (hg : ∀ a b, R a b → ∃ c, g b = some c ∧ S a c) : List.Forall₂ S as (bs.filterMap g) := by
  induction h with
  | nil => exact .nil
  | cons hab _ ih =>
    obtain ⟨c, hc, hS⟩ := hg _ _ hab
    rw [List.filterMap_cons_some hc]
    exact .cons hS ih

theorem sublist_of_forall₂ {γ κ : Type} {R : α → β → Prop} {g : β → Option γ} {key : γ → κ} {tag : α → κ}
    {as : List α} {bs : List β} (h : List.Forall₂ R as bs)
    (hkey : ∀ a b c, R a b → g b = some c → key c = tag a) :
    ((bs.filterMap g).map key).Sublist (as.map tag) := by
  induction h with
  | nil => exact .slnil
  | @cons a b as bs hab _ ih =>
    cases hb : g b with
    | none =>
      rw [List.filterMap_cons_none hb]
      exact ih.cons (tag a)
    | some c =>
      rw [List.filterMap_cons_some hb, List.map_cons, List.map_cons, hkey a b c hab hb]
      exact ih.cons_cons (tag a)

theorem forall_mem_iff_of_forall₂ {R : α → β → Prop} {P : α → Prop} {Q : β → Prop} {as : List α}
    {bs : List β} (h : List.Forall₂ R as bs) (hPQ : ∀ a b, R a b → (P a ↔ Q b)) :
    (∀ a ∈ as, P a) ↔ ∀ b ∈ bs, Q b := by
  induction h with
  | nil => simp
  | cons hab _ ih => simp only [List.forall_mem_cons, hPQ _ _ hab, ih]

end Chronogram.Fallible
