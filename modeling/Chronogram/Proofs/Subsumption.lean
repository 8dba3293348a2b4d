import Chronogram.Proofs.Substitution
import Mathlib.Order.Bounds.Basic

/-! Subsumption of intervals is exact. Bounds are compared on one event, whatever the cycles are at which the
events happen, and still no assignment of cycles to events is left out: of an interval on two events some
assignment makes a long one, and on one event no interval is empty. What is missing at either side is the least
by which the interval has to be extended there. -/

namespace Chronogram

open Fallible

/-- Two times on one event are moved to one event, and stay as far apart as they are. -/
theorem Time.distance_of_subst? {b : List (String × Time)} {t u t' u' : Time} (h : t.event = u.event)
    (ht : t.subst? b = some t') (hu : u.subst? b = some u') :
    t'.event = u'.event ∧ t'.offset - u'.offset = t.offset - u.offset := by
  unfold subst? at ht hu
  rw [h] at ht
  cases hlookup : b.lookup u.event with
  | none =>
    rw [hlookup] at ht hu
    cases ht
    cases hu
    exact ⟨h, rfl⟩
  | some target =>
    rw [hlookup] at ht hu
    simp only [shift?, on?] at ht hu
    split at ht
    · cases ht
    next hname =>
      rw [if_neg hname] at hu
      rw [← Option.some.inj ht, ← Option.some.inj hu]
      exact ⟨rfl, by dsimp only; omega⟩

namespace Interval

variable {required available i j k : Interval} {b : List (String × Time)}

/-- The starts are on one event, and so are the stops. -/
def Comparable (i j : Interval) : Prop := i.start.event = j.start.event ∧ i.stop.event = j.stop.event

theorem contains_eq_ok_iff {holds : Bool} :
    contains required available = .ok holds ↔ required.Comparable available ∧
      holds = decide (available.start.offset ≤ required.start.offset ∧
        required.stop.offset ≤ available.stop.offset) := by
  simp only [contains, bind_eq_ok, pure_eq_ok, Time.compare_eq_ok, Relation.Holds, Comparable]
  constructor
  · rintro ⟨_, ⟨hstart, rfl⟩, _, ⟨hstop, rfl⟩, rfl⟩
    exact ⟨⟨hstart.symm, hstop⟩, (Bool.decide_and _ _).symm⟩
  · rintro ⟨⟨hstart, hstop⟩, rfl⟩
    exact ⟨_, ⟨hstart.symm, rfl⟩, _, ⟨hstop, rfl⟩, (Bool.decide_and _ _).symm⟩

theorem contains_eq_true_iff :
    contains required available = .ok true ↔ required.Comparable available ∧
      available.start.offset ≤ required.start.offset ∧ required.stop.offset ≤ available.stop.offset := by
  rw [contains_eq_ok_iff, eq_comm, decide_eq_true_eq]

/-- Bounds on different events are complained about, and nothing else is. -/
theorem contains_eq_error_iff :
    (∃ times, contains required available = .error times) ↔ ¬ required.Comparable available := by
  cases hresult : contains required available with
  | error times =>
    refine iff_of_true ⟨times, rfl⟩ fun hcomparable => ?_
    rw [contains_eq_ok_iff.2 ⟨hcomparable, rfl⟩] at hresult
    cases hresult
  | ok holds => exact iff_of_false (by simp) (not_not.2 (contains_eq_ok_iff.1 hresult).1)

theorem exists_nonempty (i : Interval) : ∃ ρ, i.start.cycle ρ < i.stop.cycle ρ := by
  by_cases hsame : i.start.event = i.stop.event
  · refine ⟨fun _ => 0, ?_⟩
    have hlt := i.nonempty hsame
    simp only [Time.cycle]
    omega
  · -- the stop happens late enough
    have hne : Symbol.ofEvent i.start.event ≠ Symbol.ofEvent i.stop.event :=
      fun h => hsame (Symbol.ofEvent_injective h)
    refine ⟨fun s => if s = .ofEvent i.stop.event then i.start.offset - i.stop.offset + 1 else 0, ?_⟩
    simp only [Time.cycle, if_neg hne, if_true]
    omega

/-- On comparable bounds the comparison of offsets is the inclusion of all cycles under all assignments. -/
theorem contains_iff_covers (h : required.Comparable available) :
    contains required available = .ok true ↔
      ∀ ρ cycle, required.Covers ρ cycle → available.Covers ρ cycle := by
  rw [contains_eq_true_iff]
  simp only [Covers, Time.cycle, h.1, h.2]
  constructor
  · rintro ⟨-, hstart, hstop⟩ ρ cycle hcycle
    omega
  · intro hcovers
    obtain ⟨ρ, hlt⟩ := required.exists_nonempty
    simp only [Time.cycle, h.1, h.2] at hlt
    -- the first and the last cycle
    have hfirst := hcovers ρ _ ⟨le_refl _, hlt⟩
    have hlast := hcovers ρ (ρ (.ofEvent available.stop.event) + required.stop.offset - 1)
      ⟨by omega, by omega⟩
    exact ⟨h, by omega, by omega⟩

theorem contains_self (i : Interval) : contains i i = .ok true :=
  contains_eq_true_iff.2 ⟨⟨rfl, rfl⟩, le_refl _, le_refl _⟩

theorem contains_trans (hij : contains i j = .ok true) (hjk : contains j k = .ok true) :
    contains i k = .ok true := by
  obtain ⟨⟨hstart, hstop⟩, hle, hle'⟩ := contains_eq_true_iff.1 hij
  obtain ⟨⟨hstart', hstop'⟩, hge, hge'⟩ := contains_eq_true_iff.1 hjk
  exact contains_eq_true_iff.2
    ⟨⟨hstart.trans hstart', hstop.trans hstop'⟩, hge.trans hle, hle'.trans hge'⟩

/-- The same times are put into both intervals, so nothing changes where bounds can be compared. -/
theorem contains_subst (h : required.Comparable available) (hi : required.subst b = .ok i)
    (hj : available.subst b = .ok j) : contains i j = contains required available := by
  obtain ⟨histart, histop⟩ := bounds_of_subst hi
  obtain ⟨hjstart, hjstop⟩ := bounds_of_subst hj
  obtain ⟨hstart, hstarts⟩ := Time.distance_of_subst? h.1 histart hjstart
  obtain ⟨hstop, hstops⟩ := Time.distance_of_subst? h.2 histop hjstop
  rw [contains_eq_ok_iff.2 ⟨⟨hstart, hstop⟩, rfl⟩, contains_eq_ok_iff.2 ⟨h, rfl⟩]
  refine congrArg _ (decide_eq_decide.2 (and_congr ?_ ?_))
  · omega
  · omega

def extended (i : Interval) (before after : Nat) : Interval where
  start := { i.start with offset := i.start.offset - before }
  stop := { i.stop with offset := i.stop.offset + after }
  nonempty h := by
    have hlt := i.nonempty h
    dsimp only
    omega

theorem contains_extended_iff {before after : Nat} :
    contains required (available.extended before after) = .ok true ↔ required.Comparable available ∧
      available.start.offset - before ≤ required.start.offset ∧
      required.stop.offset ≤ available.stop.offset + after := contains_eq_true_iff

theorem gap_eq_ok_iff {late early : Int} :
    gap required available = .ok (late, early) ↔ required.Comparable available ∧
      late = max 0 (available.start.offset - required.start.offset) ∧
      early = max 0 (required.stop.offset - available.stop.offset) := by
  simp only [gap, bind_eq_ok, pure_eq_ok, Time.since_eq_ok, Prod.mk.injEq, Comparable]
  constructor
  · rintro ⟨_, ⟨hstart, rfl⟩, _, ⟨hstop, rfl⟩, rfl, rfl⟩
    exact ⟨⟨hstart.symm, hstop⟩, rfl, rfl⟩
  · rintro ⟨⟨hstart, hstop⟩, rfl, rfl⟩
    exact ⟨_, ⟨hstart.symm, rfl⟩, _, ⟨hstop, rfl⟩, rfl, rfl⟩

/-- What is missing at either side is the least that has to be added there. -/
theorem exists_isLeast_gap (h : required.Comparable available) :
    ∃ late early : Nat, gap required available = .ok (late, early) ∧
      IsLeast {p : Nat × Nat | contains required (available.extended p.1 p.2) = .ok true} (late, early) := by
  refine ⟨(available.start.offset - required.start.offset).toNat,
    (required.stop.offset - available.stop.offset).toNat, gap_eq_ok_iff.2 ⟨h, by omega, by omega⟩, ?_, ?_⟩
  · exact contains_extended_iff.2 ⟨h, by omega, by omega⟩
  · rintro ⟨before, after⟩ hcontains
    obtain ⟨-, hbefore, hafter⟩ := contains_extended_iff.1 hcontains
    exact ⟨by simp only; omega, by simp only; omega⟩

theorem gap_eq_zero_iff : gap required available = .ok (0, 0) ↔ contains required available = .ok true := by
  rw [gap_eq_ok_iff, contains_eq_true_iff]
  refine and_congr_right fun _ => and_congr ?_ ?_
  · omega
  · omega

end Interval

theorem Text.exists_joined_eq (separator : String) {part : String} {parts : List String} (h : part ∈ parts) :
    ∃ before after, joined separator parts = before ++ part ++ after := by
  induction parts with
  | nil => cases h
  | cons first parts ih =>
    cases parts with
    | nil =>
      obtain rfl := List.mem_singleton.1 h
      exact ⟨"", "", by simp [joined]⟩
    | cons next parts =>
      rw [joined, String.intercalate_cons_cons]
      rcases List.mem_cons.1 h with rfl | h
      · exact ⟨"", _, by rw [String.empty_append, String.append_assoc]⟩
      · obtain ⟨before, after, heq⟩ := ih h
        rw [joined] at heq
        exact ⟨first ++ separator ++ before, after, by simp only [heq, String.append_assoc]⟩

def Diagnostic.Says (d : Diagnostic) (phrase : String) : Prop :=
  ∃ before after, d.message = before ++ phrase ++ after

theorem Diagnostic.Says.joined {d : Diagnostic} {start separator phrase : String} {phrases : List String}
    (hmessage : d.message = start ++ Text.joined separator phrases) (h : phrase ∈ phrases) : d.Says phrase := by
  obtain ⟨before, after, heq⟩ := Text.exists_joined_eq separator h
  exact ⟨start ++ before, after, by simp only [hmessage, heq, String.append_assoc]⟩

namespace Bench

def lateText (late : Nat) : String := "it arrives " ++ toString (late : Int) ++ " cycle(s) too late"

def earlyText (early : Nat) : String := "it expires " ++ toString (early : Int) ++ " cycle(s) too early"

/-- A complaint about two intervals names the sides at which cycles are missing, and there is one. -/
theorem sides_of_checkIntervals {bench : Bench} {dest src : Endpoint} {loc : Option Loc} {d : Diagnostic}
    (hd : d ∈ bench.checkIntervals dest src loc) (hkind : d.kind = .intervalMismatch) :
    ∃ late early : Nat, Interval.gap dest.interval src.interval = .ok (late, early) ∧
      (late ≠ 0 ∨ early ≠ 0) ∧ (late ≠ 0 → d.Says (lateText late)) ∧
      (early ≠ 0 → d.Says (earlyText early)) := by
  unfold checkIntervals at hd
  dsimp only at hd
  split at hd
  · cases hd
  next late early hverdict =>
    obtain ⟨holds, hcontains, hgap⟩ := bind_eq_ok.1 hverdict
    cases holds with
    | true => cases hgap
    | false =>
      obtain ⟨_, hgap, hpair⟩ := bind_eq_ok.1 hgap
      cases hpair
      obtain ⟨hcomparable, -⟩ := Interval.gap_eq_ok_iff.1 hgap
      obtain ⟨late, early, hnat, -⟩ := Interval.exists_isLeast_gap hcomparable
      obtain ⟨rfl, rfl⟩ := Prod.mk.inj (Except.ok.inj (hgap.symm.trans hnat))
      have hshort : late ≠ 0 ∨ early ≠ 0 := by
        by_contra hnone
        push Not at hnone
        rw [hnone.1, hnone.2, Int.ofNat_zero, Interval.gap_eq_zero_iff, hcontains] at hnat
        cases hnat
      obtain rfl := List.mem_singleton.1 hd
      refine ⟨late, early, hgap, hshort, fun hlate => ?_, fun hearly => ?_⟩
      · refine .joined rfl (List.mem_append_left _ ?_)
        rw [if_neg (by exact_mod_cast hlate)]
        exact List.mem_singleton.2 rfl
      · refine .joined rfl (List.mem_append_right _ ?_)
        rw [if_neg (by exact_mod_cast hearly)]
        exact List.mem_singleton.2 rfl
  · obtain rfl := List.mem_singleton.1 hd
    cases hkind

end Bench

/-- Intervals can be compared unless their starts or their stops are on different events. Then one is found to
contain the other exactly if it has all its cycles, at whatever cycles the events happen, and this does not
change when times are put in place of the events. What is missing is the least by which the one has to begin
earlier and to end later in order to contain the other, and it is nothing exactly if it contains it already. So
a complaint about intervals that do not fit says of at least one side what is missing there. -/
theorem exact_subsumption :
    (∀ required available : Interval,
      ((∃ times, Interval.contains required available = .error times) ↔
        required.start.event ≠ available.start.event ∨ required.stop.event ≠ available.stop.event) ∧
      (¬ (required.start.event ≠ available.start.event ∨ required.stop.event ≠ available.stop.event) →
        (Interval.contains required available = .ok true ↔
          ∀ ρ cycle, required.Covers ρ cycle → available.Covers ρ cycle) ∧
        (∀ (b : List (String × Time)) (i j : Interval), required.subst b = .ok i → available.subst b = .ok j →
          Interval.contains i j = Interval.contains required available) ∧
        ∃ late early : Nat, Interval.gap required available = .ok (late, early) ∧
          IsLeast {p : Nat × Nat | Interval.contains required (available.extended p.1 p.2) = .ok true}
            (late, early) ∧
          ((late, early) = (0, 0) ↔ Interval.contains required available = .ok true))) ∧
    (∀ i : Interval, Interval.contains i i = .ok true) ∧
    (∀ i j k : Interval, Interval.contains i j = .ok true → Interval.contains j k = .ok true →
      Interval.contains i k = .ok true) ∧
    ∀ (bench : Bench) (dest src : Endpoint) (loc : Option Loc), ∀ d ∈ bench.checkIntervals dest src loc,
      d.kind = .intervalMismatch →
      ∃ late early : Nat, Interval.gap dest.interval src.interval = .ok (late, early) ∧
        (late ≠ 0 ∨ early ≠ 0) ∧ (late ≠ 0 → d.Says (Bench.lateText late)) ∧
        (early ≠ 0 → d.Says (Bench.earlyText early)) := by
  refine ⟨fun required available => ?_, Interval.contains_self, fun i j k => Interval.contains_trans,
    fun bench dest src loc d hd hkind => Bench.sides_of_checkIntervals hd hkind⟩
  rw [← not_and_or, not_not]
  refine ⟨Interval.contains_eq_error_iff, fun hcomparable =>
    ⟨Interval.contains_iff_covers hcomparable,
      fun b i j hi hj => Interval.contains_subst hcomparable hi hj, ?_⟩⟩
  obtain ⟨late, early, hgap, hleast⟩ := Interval.exists_isLeast_gap hcomparable
  refine ⟨late, early, hgap, hleast, ?_⟩
  rw [← Interval.gap_eq_zero_iff, hgap]
  simp

namespace Narrow

def needed : Interval := ⟨⟨"G", 1⟩, ⟨"L", 3⟩, by decide⟩

def given : Interval := ⟨⟨"G", 2⟩, ⟨"L", 1⟩, by decide⟩

def times : List (String × Time) := [("G", ⟨"K", 5⟩), ("L", ⟨"K", 9⟩)]

def dest : Endpoint := ⟨⟨none, "y"⟩, .const 8, needed⟩

def src : Endpoint := ⟨⟨none, "x"⟩, .const 8, given⟩

end Narrow

/-- In the sample something is missing on both sides, on one event as well as on two. -/
theorem exact_subsumption_narrow :
    (∃ ρ cycle, Narrow.needed.Covers ρ cycle ∧ ¬ Narrow.given.Covers ρ cycle) ∧
    Interval.contains ⟨⟨"K", 6⟩, ⟨"K", 12⟩, by decide⟩ ⟨⟨"K", 7⟩, ⟨"K", 10⟩, by decide⟩ = .ok false ∧
    IsLeast {p : Nat × Nat | Interval.contains Narrow.needed (Narrow.given.extended p.1 p.2) = .ok true}
      (1, 2) ∧
    ∃ d ∈ Widths.bench.checkIntervals Narrow.dest Narrow.src none, d.kind = .intervalMismatch ∧
      d.Says "it arrives 1 cycle(s) too late" ∧ d.Says "it expires 2 cycle(s) too early" := by
  obtain ⟨hpair, -, -, hnames⟩ := exact_subsumption
  obtain ⟨-, hcomparable⟩ := hpair Narrow.needed Narrow.given
  obtain ⟨hcovers, hsubst, late, early, hgap, hleast, -⟩ := hcomparable (by decide)
  have hfalse : Interval.contains Narrow.needed Narrow.given = .ok false := rfl
  have hmissing : ∀ late early : Nat, Interval.gap Narrow.needed Narrow.given = .ok (late, early) →
      late = 1 ∧ early = 2 := by
    intro late early h
    have hvalue : Interval.gap Narrow.needed Narrow.given = .ok (1, 2) := rfl
    obtain ⟨hlate, hearly⟩ := Prod.mk.inj (Except.ok.inj (hvalue.symm.trans h))
    exact ⟨by omega, by omega⟩
  obtain ⟨rfl, rfl⟩ := hmissing late early hgap
  refine ⟨?_, ?_, hleast, _, List.mem_singleton.2 rfl, rfl, ?_⟩
  · by_contra hnone
    push Not at hnone
    rw [hcovers.2 hnone] at hfalse
    cases hfalse
  · rw [← hfalse]
    exact hsubst Narrow.times _ _ (toOption_eq_some.1 (by decide +kernel)) (toOption_eq_some.1 (by decide +kernel))
  · obtain ⟨late, early, hgap, -, hlate, hearly⟩ :=
      hnames Widths.bench Narrow.dest Narrow.src none _ (List.mem_singleton.2 rfl) rfl
    obtain ⟨rfl, rfl⟩ := hmissing late early hgap
    exact ⟨hlate (by decide), hearly (by decide)⟩

end Chronogram
