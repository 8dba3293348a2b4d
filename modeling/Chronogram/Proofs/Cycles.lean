import Chronogram.Proofs.Recursion
import Mathlib.Data.List.Chain

/-! What the search for cycles finds, and what it leaves. Every cycle that is found is one: its members
use each other in a ring. When the members of all found cycles are taken out, nothing that is left
contains itself. A component that contains itself may be left nevertheless, if each of its cycles
leads through a member of a cycle that was found before; this cannot happen where cycles do not
branch. -/

section

open Relation (TransGen ReflTransGen)

namespace Chronogram

namespace Hierarchy

variable {h : Hierarchy} {search : Search} {path seen cycle names : List String} {n m : String}

/-- What is found leads from a component, over components that each use the one before, back to the
first one; and nothing is found only if no component contains itself. -/
structure Search.Finds (search : Search) : Prop where
  ring : ∀ {h cycle}, search h = some cycle →
    ∃ n mid, cycle = n :: (mid ++ [n]) ∧ List.IsChain (fun part user => h.Uses user part) cycle
  exhaustive : ∀ {h}, search h = none → ∀ n, ¬ TransGen h.Uses n n

/-- The members of a cycle use each other, and each of them contains them all. -/
structure IsCycle (h : Hierarchy) (cycle : List String) : Prop where
  nonempty : cycle ≠ []
  uses : ∀ n ∈ cycle, ∃ m ∈ cycle, h.Uses n m
  reaches : ∀ n ∈ cycle, ∀ m ∈ cycle, TransGen h.Uses n m

theorem mem_ring {mid : List String} : m ∈ n :: (mid ++ [n]) ↔ m ∈ mid ++ [n] := by
  rw [List.mem_cons, or_iff_right_of_imp]
  rintro rfl
  simp

theorem reaches_of_ring {R : String → String → Prop} {mid : List String}
    (hw : List.IsChain R (n :: (mid ++ [n]))) : ∀ m ∈ mid ++ [n], TransGen R n m ∧ TransGen R m n := by
  have hpath : List.IsChain (TransGen R) (n :: (mid ++ [n])) := hw.imp fun _ _ hab => .single hab
  obtain ⟨hof, hpairs⟩ := List.pairwise_cons.1 hpath.pairwise
  intro m hm
  refine ⟨hof m hm, ?_⟩
  rcases List.mem_append.1 hm with hm | hm
  · exact (List.pairwise_append.1 hpairs).2.2 m hm n (by simp)
  · rw [List.mem_singleton.1 hm]
    exact hof n (by simp)

theorem exists_next {R : String → String → Prop} {walk : List String}
    (hw : List.IsChain R (walk ++ [n])) (hm : m ∈ walk) : ∃ next ∈ walk ++ [n], R m next := by
  induction walk with
  | nil => simp at hm
  | cons first rest ih =>
    rcases List.mem_cons.1 hm with rfl | hm
    · cases hrest : rest ++ [n] with
      | nil => simp at hrest
      | cons next after =>
        rw [List.cons_append, hrest] at hw
        exact ⟨next, by simp [hrest], (List.isChain_cons_cons.1 hw).1⟩
    · obtain ⟨next, hnext, hstep⟩ := ih hw.tail hm
      exact ⟨next, List.mem_cons_of_mem _ hnext, hstep⟩

theorem isCycle_of_ring {mid : List String} (hw : List.IsChain h.Uses (n :: (mid ++ [n])))
    (hmem : ∀ m, m ∈ cycle ↔ m ∈ mid ++ [n]) : h.IsCycle cycle := by
  have hreach := reaches_of_ring hw
  refine ⟨List.ne_nil_of_mem ((hmem n).2 (by simp)), fun m hm => ?_, fun a ha b hb => ?_⟩
  · have hm : m ∈ n :: mid := by simpa [or_comm] using (hmem m).1 hm
    obtain ⟨next, hnext, hstep⟩ := exists_next hw hm
    exact ⟨next, (hmem next).2 (mem_ring.1 hnext), hstep⟩
  · exact (hreach a ((hmem a).1 ha)).2.trans (hreach b ((hmem b).1 hb)).1

theorem exists_takeWhile_append (hn : n ∈ path) :
    ∃ rest, path = path.takeWhile (· != n) ++ n :: rest := by
  induction path with
  | nil => simp at hn
  | cons first path ih =>
    by_cases hfirst : first = n
    · exact ⟨path, by simp [hfirst]⟩
    · rcases List.mem_cons.1 hn with rfl | hn
      · exact absurd rfl hfirst
      · obtain ⟨rest, hrest⟩ := ih hn
        refine ⟨rest, ?_⟩
        rw [List.takeWhile_cons_of_pos (by simpa using hfirst), List.cons_append, ← hrest]

/-- A walk that is given up has come back to a component on its path. -/
theorem ring_of_visit_error {depth : Nat} (hpath : List.IsChain h.Uses (n :: path))
    (herr : h.visit depth path seen n = .error cycle) :
    ∃ n mid, cycle = n :: (mid ++ [n]) ∧ List.IsChain (fun part user => h.Uses user part) cycle := by
  induction depth generalizing path seen n with
  | zero => cases herr
  | succ depth ih =>
    rw [visit] at herr
    split at herr
    · split at herr
      next hmem =>
        cases herr
        obtain ⟨rest, hrest⟩ := exists_takeWhile_append (n := n) (by simpa using hmem)
        have hring : List.IsChain h.Uses (n :: (path.takeWhile (· != n) ++ [n])) := by
          rw [hrest] at hpath
          exact hpath.prefix ⟨rest, by simp⟩
        -- the path was walked from parts to users, and is listed in this order
        refine ⟨n, (path.takeWhile (· != n)).reverse, rfl, ?_⟩
        simpa using List.isChain_reverse.2 hring
      · cases herr
    · obtain ⟨seen', m, hm, herr⟩ := exists_of_foldlM_error herr
      exact ih (.cons_cons (mem_users.1 hm) hpath) herr

theorem finds_cycle? : Search.Finds cycle? := by
  refine ⟨fun {h cycle} hc => ?_, acyclic_of_cycle?⟩
  rw [cycle?] at hc
  split at hc
  next herr =>
    cases hc
    obtain ⟨seen', n, hn, herr⟩ := exists_of_foldlM_error herr
    exact ring_of_visit_error (.singleton n) herr
  · cases hc

theorem Search.Finds.isCycle (hs : search.Finds) (hc : search h = some cycle) : h.IsCycle cycle := by
  obtain ⟨n, mid, rfl, hchain⟩ := hs.ring hc
  have hring : List.IsChain h.Uses (n :: (mid.reverse ++ [n])) := by
    simpa using List.isChain_reverse.2 hchain
  exact isCycle_of_ring hring fun m => mem_ring.trans (by simp)

theorem uses_without : (h.without names).Uses n m ↔ h.Uses n m ∧ n ∉ names ∧ m ∉ names := by
  simp only [Uses, without, List.mem_map, List.mem_filter]
  constructor
  · rintro ⟨_, ⟨⟨a, parts⟩, ⟨hmem, hn⟩, heq⟩, hm⟩
    cases heq
    obtain ⟨hm, hout⟩ := List.mem_filter.1 hm
    exact ⟨⟨parts, hmem, hm⟩, by simpa using hn, by simpa using hout⟩
  · rintro ⟨⟨parts, hmem, hm⟩, hn, hout⟩
    exact ⟨_, ⟨_, ⟨hmem, by simpa using hn⟩, rfl⟩, List.mem_filter.2 ⟨hm, by simpa using hout⟩⟩

theorem IsCycle.of_without (hc : (h.without names).IsCycle cycle) : h.IsCycle cycle := by
  refine ⟨hc.nonempty, fun n hn => ?_, fun n hn m hm => ?_⟩
  · obtain ⟨m, hm, hnm⟩ := hc.uses n hn
    exact ⟨m, hm, (uses_without.1 hnm).1⟩
  · exact TransGen.mono (fun _ _ hab => (uses_without.1 hab).1) _ _ (hc.reaches n hn m hm)

theorem length_without_lt (hn : n ∈ names) (hmem : n ∈ h.map (·.1)) :
    (h.without names).length < h.length := by
  obtain ⟨e, he, rfl⟩ := List.mem_map.1 hmem
  rw [without, List.length_map, List.length_filter_lt_length_iff_exists]
  exact ⟨e, he, by simpa using hn⟩

theorem IsCycle.length_without_lt (hc : h.IsCycle cycle) : (h.without cycle).length < h.length := by
  obtain ⟨n, hn⟩ := List.exists_mem_of_ne_nil _ hc.nonempty
  obtain ⟨m, -, parts, hmem, -⟩ := hc.uses n hn
  exact Hierarchy.length_without_lt hn (List.mem_map_of_mem hmem)

theorem isCycle_of_mem_go {fuel : Nat} (hs : search.Finds) (hc : cycle ∈ cycles.go search fuel h) :
    h.IsCycle cycle := by
  induction fuel generalizing h with
  | zero => simp [cycles.go] at hc
  | succ fuel ih =>
    rw [cycles.go] at hc
    split at hc
    · simp at hc
    next first hfirst =>
      rcases List.mem_cons.1 hc with rfl | hc
      · exact hs.isCycle hfirst
      · exact (ih hc).of_without

theorem isCycle_of_mem_cycles (hs : search.Finds) (hc : cycle ∈ h.cycles search) : h.IsCycle cycle :=
  isCycle_of_mem_go hs hc

def Spared (cycles : List (List String)) (n : String) : Prop := ∀ cycle ∈ cycles, n ∉ cycle

/-- Each round takes out at least one component, so as many rounds as there are components end for want
of a cycle. -/
theorem acyclic_go {fuel : Nat} (hs : search.Finds) (hfuel : h.length ≤ fuel) :
    ¬ TransGen (fun a b => h.Uses a b ∧ Spared (cycles.go search fuel h) a ∧
      Spared (cycles.go search fuel h) b) n n := by
  induction fuel generalizing h with
  | zero =>
    obtain rfl := List.length_eq_zero_iff.1 (Nat.le_zero.1 hfuel)
    intro hcycle
    obtain ⟨m, ⟨⟨parts, hmem, -⟩, -⟩, -⟩ := TransGen.head'_iff.1 hcycle
    simp at hmem
  | succ fuel ih =>
    rw [cycles.go]
    split
    next hnone =>
      intro hcycle
      exact hs.exhaustive hnone n (TransGen.mono (fun _ _ hab => hab.1) _ _ hcycle)
    next cycle hsome =>
      have hlt := (hs.isCycle hsome).length_without_lt
      have hspared : ∀ {a : String}, Spared (cycle :: cycles.go search fuel (h.without cycle)) a →
          a ∉ cycle ∧ Spared (cycles.go search fuel (h.without cycle)) a :=
        fun ha => List.forall_mem_cons.1 ha
      intro hcycle
      apply ih (Nat.le_of_lt_succ (hlt.trans_le hfuel))
      refine TransGen.mono ?_ _ _ hcycle
      rintro a b ⟨hab, ha, hb⟩
      obtain ⟨ha, hra⟩ := hspared ha
      obtain ⟨hb, hrb⟩ := hspared hb
      exact ⟨uses_without.2 ⟨hab, ha, hb⟩, hra, hrb⟩

theorem acyclic_of_cycles (hs : search.Finds) (hc : ∀ m ∈ h.nodes, ∀ cycle ∈ h.cycles search, m ∉ cycle)
    (n : String) : ¬ TransGen h.Uses n n := by
  intro hcycle
  apply acyclic_go (h := h) (n := n) hs le_rfl
  refine TransGen.mono (fun a b hab => ?_) _ _ hcycle
  obtain ⟨ha, hb⟩ := mem_nodes_of_uses hab
  exact ⟨hab, hc a ha, hc b hb⟩

/-- A walk back to its start meets a member of a cycle that is found. -/
theorem exists_found_of_ring {mid : List String} (hs : search.Finds)
    (hw : List.IsChain h.Uses (n :: (mid ++ [n]))) :
    ∃ m ∈ mid ++ [n], ∃ cycle ∈ h.cycles search, m ∈ cycle := by
  by_contra hnone
  have hspared : ∀ m ∈ n :: (mid ++ [n]), Spared (h.cycles search) m := by
    intro m hm cycle hcycle hmc
    exact hnone ⟨m, mem_ring.1 hm, cycle, hcycle, hmc⟩
  have hleft : List.IsChain
      (fun a b => h.Uses a b ∧ Spared (h.cycles search) a ∧ Spared (h.cycles search) b)
      (n :: (mid ++ [n])) :=
    hw.imp_of_mem_imp fun a b ha hb hab => ⟨hab, hspared a ha, hspared b hb⟩
  exact acyclic_go hs le_rfl (reaches_of_ring hleft n (by simp)).1

/-- No component from which `n` is reached and that is reached from `n` has two parts through which it
reaches `n`: the cycles through `n` do not branch. -/
def Unbranched (R : String → String → Prop) (n : String) : Prop :=
  ∀ a b c, ReflTransGen R n a → R a b → R a c → ReflTransGen R b n → ReflTransGen R c n → b = c

/-- A cycle on which some component reaches `n` and is reached from it goes through `n`, if the cycles
through `n` do not branch. -/
theorem IsCycle.mem_of_unbranched (hc : h.IsCycle cycle) (hn : Unbranched h.Uses n) (hm : m ∈ cycle)
    (hnm : ReflTransGen h.Uses n m) (hmn : ReflTransGen h.Uses m n) : n ∈ cycle := by
  induction hmn using ReflTransGen.head_induction_on with
  | refl => exact hm
  | head hstep hrest ih =>
    -- the next component on the way to `n` is the next one on the cycle
    rename_i a b
    obtain ⟨c, hcmem, hac⟩ := hc.uses a hm
    have hcn : ReflTransGen h.Uses c n :=
      (hc.reaches c hcmem a hm).to_reflTransGen.trans (.head hstep hrest)
    obtain rfl := hn a b c hnm hstep hac hrest hcn
    exact ih hcmem (hnm.tail hstep)

theorem exists_found_of_unbranched (hs : search.Finds) (hn : Unbranched h.Uses n)
    (hcycle : TransGen h.Uses n n) : ∃ cycle ∈ h.cycles search, n ∈ cycle := by
  obtain ⟨last, hlast, hback⟩ := TransGen.tail'_iff.1 hcycle
  obtain ⟨walk, hwalk, hend⟩ := List.exists_isChain_cons_of_relationReflTransGen hlast
  have hring : List.IsChain h.Uses (n :: (walk ++ [n])) := by
    rw [← List.cons_append, List.isChain_append]
    refine ⟨hwalk, .singleton n, ?_⟩
    intro a ha b hb
    rw [List.getLast?_eq_getLast_of_ne_nil (List.cons_ne_nil _ _), hend] at ha
    simp only [Option.mem_def, Option.some.injEq, List.head?_cons] at ha hb
    exact ha ▸ hb ▸ hback
  obtain ⟨m, hm, cycle, hfound, hmc⟩ := exists_found_of_ring hs hring
  obtain ⟨hnm, hmn⟩ := reaches_of_ring hring m hm
  exact ⟨cycle, hfound, (isCycle_of_mem_cycles hs hfound).mem_of_unbranched hn hmc hnm.to_reflTransGen
    hmn.to_reflTransGen⟩

end Hierarchy

end Chronogram

end
