import Chronogram.Check.Recursion
import Chronogram.Proofs.Fallible
import Mathlib.Data.List.Perm.Subperm
import Mathlib.Logic.Relation

/-! The search for cycles of instantiation misses none. A component that was seen and left again is
done: its users are done as well, and it does not contain itself. The walk keeps this up, its path is
never longer than there are components, and in the end all components are done. -/

section

open Relation (TransGen ReflTransGen)

namespace Chronogram

open Fallible

namespace Hierarchy

variable {h : Hierarchy} {path seen : List String} {n m : String}

def Uses (h : Hierarchy) (n m : String) : Prop := ∃ parts, (n, parts) ∈ h ∧ m ∈ parts

theorem mem_users : n ∈ h.users m ↔ h.Uses n m := by
  simp [users, Uses]

theorem mem_nodes_of_uses (hu : h.Uses n m) : n ∈ h.nodes ∧ m ∈ h.nodes := by
  obtain ⟨parts, hn, hm⟩ := hu
  simp only [nodes, List.mem_eraseDups, List.mem_flatMap]
  exact ⟨⟨_, hn, by simp⟩, ⟨_, hn, by simp [hm]⟩⟩

/-- Seen, and not on the way that is being walked. -/
def Done (path seen : List String) (n : String) : Prop := n ∈ seen ∧ n ∉ path

structure Walk (h : Hierarchy) (path seen : List String) : Prop where
  nodup : path.Nodup
  nodes : ∀ n ∈ path, n ∈ h.nodes
  marked : ∀ n ∈ path, n ∈ seen
  users : ∀ m, Done path seen m → ∀ n, h.Uses n m → Done path seen n
  acyclic : ∀ n, Done path seen n → ¬ TransGen h.Uses n n

theorem Walk.length_le (hw : h.Walk path seen) : path.length ≤ h.nodes.length :=
  (List.subperm_of_subset hw.nodup hw.nodes).length_le

/-- Whatever contains something that is done is done. -/
theorem Walk.done_of_reaches (hw : h.Walk path seen) (hr : ReflTransGen h.Uses n m)
    (hm : Done path seen m) : Done path seen n := by
  induction hr using ReflTransGen.head_induction_on with
  | refl => exact hm
  | head hab _ ih => exact hw.users _ ih _ hab

theorem Walk.enter (hw : h.Walk path seen) (hn : n ∈ h.nodes) (hnew : n ∉ seen) :
    h.Walk (n :: path) (n :: seen) := by
  have hpath : n ∉ path := fun hp => hnew (hw.marked n hp)
  have hdone : ∀ m, Done (n :: path) (n :: seen) m ↔ Done path seen m := by
    intro m
    simp only [Done, List.mem_cons, not_or]
    constructor
    · rintro ⟨rfl | hs, hne, hp⟩
      · exact absurd rfl hne
      · exact ⟨hs, hp⟩
    · rintro ⟨hs, hp⟩
      exact ⟨.inr hs, fun hmn => hnew (hmn ▸ hs), hp⟩
  refine ⟨List.nodup_cons.2 ⟨hpath, hw.nodup⟩, ?_, ?_, ?_, ?_⟩
  · rintro m hm
    rcases List.mem_cons.1 hm with rfl | hm
    · exact hn
    · exact hw.nodes m hm
  · rintro m hm
    rcases List.mem_cons.1 hm with rfl | hm
    · simp
    · exact List.mem_cons_of_mem _ (hw.marked m hm)
  · simp only [hdone]
    exact hw.users
  · simp only [hdone]
    exact hw.acyclic

theorem Walk.leave (hw : h.Walk (n :: path) seen)
    (hu : ∀ m ∈ h.users n, Done (n :: path) seen m) :
    h.Walk path seen ∧ Done path seen n := by
  have hn : Done path seen n := ⟨hw.marked n (by simp), (List.nodup_cons.1 hw.nodup).1⟩
  have hdone : ∀ m, Done path seen m ↔ m = n ∨ Done (n :: path) seen m := by
    intro m
    constructor
    · rintro ⟨hs, hp⟩
      by_cases hmn : m = n
      · exact .inl hmn
      · exact .inr ⟨hs, by simp [hmn, hp]⟩
    · rintro (rfl | ⟨hs, hp⟩)
      · exact hn
      · exact ⟨hs, fun hm => hp (by simp [hm])⟩
  refine ⟨⟨(List.nodup_cons.1 hw.nodup).2, fun m hm => hw.nodes m (by simp [hm]),
    fun m hm => hw.marked m (by simp [hm]), ?_, ?_⟩, hn⟩
  · intro m hm u hum
    rw [hdone] at hm ⊢
    rcases hm with rfl | hm
    · exact .inr (hu u (mem_users.2 hum))
    · exact .inr (hw.users m hm u hum)
  · intro m hm hcycle
    rcases (hdone m).1 hm with rfl | hm
    · -- the last step of the cycle starts at a user, from where all is done, the start included
      obtain ⟨u, hmu, hum⟩ := TransGen.tail'_iff.1 hcycle
      have hback := hw.done_of_reaches hmu (hu u (mem_users.2 hum))
      exact hback.2 (by simp)
    · exact hw.acyclic m hm hcycle

theorem walk_foldlM {step : List String → String → Except (List String) (List String)}
    (hstep : ∀ {seen seen' n}, h.Walk path seen → n ∈ h.nodes → step seen n = .ok seen' →
      h.Walk path seen' ∧ seen ⊆ seen' ∧ Done path seen' n)
    {names seen' : List String} (hnames : ∀ n ∈ names, n ∈ h.nodes) (hw : h.Walk path seen)
    (hok : names.foldlM step seen = .ok seen') :
    h.Walk path seen' ∧ seen ⊆ seen' ∧ ∀ n ∈ names, Done path seen' n := by
  induction names generalizing seen with
  | nil =>
    obtain rfl := pure_eq_ok.1 hok
    exact ⟨hw, fun _ hn => hn, by simp⟩
  | cons n names ih =>
    rw [List.foldlM_cons] at hok
    obtain ⟨mid, hmid, hok⟩ := bind_eq_ok.1 hok
    obtain ⟨hw₁, hsub₁, hdone⟩ := hstep hw (hnames n (by simp)) hmid
    obtain ⟨hw₂, hsub₂, hrest⟩ := ih (fun n hn => hnames n (by simp [hn])) hw₁ hok
    refine ⟨hw₂, fun m hm => hsub₂ (hsub₁ hm), fun m hm => ?_⟩
    rcases List.mem_cons.1 hm with rfl | hm
    · exact ⟨hsub₂ hdone.1, hdone.2⟩
    · exact hrest m hm

theorem walk_visit {depth : Nat} {seen' : List String} (hdepth : h.nodes.length < depth + path.length)
    (hw : h.Walk path seen) (hn : n ∈ h.nodes) (hok : h.visit depth path seen n = .ok seen') :
    h.Walk path seen' ∧ seen ⊆ seen' ∧ Done path seen' n := by
  induction depth generalizing path seen n seen' with
  | zero =>
    have := hw.length_le
    omega
  | succ depth ih =>
    rw [visit] at hok
    split at hok
    next hseen =>
      split at hok
      · cases hok
      next hpath =>
        cases hok
        exact ⟨hw, fun _ hm => hm, by simpa using hseen, by simpa using hpath⟩
    next hnew =>
      have hnew : n ∉ seen := by simpa using hnew
      have henter := hw.enter hn hnew
      obtain ⟨hw', hsub, hdone⟩ := walk_foldlM
        (fun hw hn hok => ih (by simp only [List.length_cons]; omega) hw hn hok)
        (fun m hm => (mem_nodes_of_uses (mem_users.1 hm)).1) henter hok
      obtain ⟨hleave, hn'⟩ := hw'.leave hdone
      exact ⟨hleave, fun m hm => hsub (List.mem_cons_of_mem _ hm), hn'⟩

/-- Where no cycle is found, no component contains itself. -/
theorem acyclic_of_cycle? (hc : h.cycle? = none) (n : String) : ¬ TransGen h.Uses n n := by
  intro hcycle
  obtain ⟨m, hnm, -⟩ := TransGen.head'_iff.1 hcycle
  rw [cycle?] at hc
  split at hc
  · cases hc
  next seen hok =>
    have hstart : h.Walk [] [] := ⟨by simp, by simp, by simp, by simp [Done], by simp [Done]⟩
    obtain ⟨hw, -, hdone⟩ := walk_foldlM
      (fun hw hn hok => walk_visit (by simp) hw hn hok) (fun _ hn => hn) hstart hok
    exact hw.acyclic n (hdone n (mem_nodes_of_uses hnm).1) hcycle

theorem exists_of_foldlM_error {step : List String → String → Except (List String) (List String)}
    {names cycle : List String} (herr : names.foldlM step seen = .error cycle) :
    ∃ seen', ∃ n ∈ names, step seen' n = .error cycle := by
  induction names generalizing seen with
  | nil => cases herr
  | cons n names ih =>
    rw [List.foldlM_cons] at herr
    cases hstep : step seen n with
    | error c =>
      rw [hstep] at herr
      cases herr
      exact ⟨seen, n, by simp, hstep⟩
    | ok mid =>
      rw [hstep] at herr
      obtain ⟨seen', m, hm, herr⟩ := ih herr
      exact ⟨seen', m, by simp [hm], herr⟩

end Hierarchy

end Chronogram

end
