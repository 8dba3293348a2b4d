import Chronogram.Proofs.Subsumption

/-! Waveforms show what subsumption decides. Where all bounds are on one event, the rows of two intervals begin at
the first of the bounds and end before the last one, so that no cycle of either interval is left out. Then one
interval contains the other exactly if the rows show no cycle that only the other one has. -/

namespace Chronogram

namespace Waveform

variable {available required i : Interval} {w : Waveform} {start : Time} {span : Nat}

def bounds (available required : Interval) : List Time :=
  [available.start, available.stop, required.start, required.stop]

def offsets (available required : Interval) : Set Int := {n | ∃ t ∈ bounds available required, t.offset = n}

theorem offsets_eq : offsets available required =
    {available.start.offset, available.stop.offset, required.start.offset, required.stop.offset} := by
  ext n
  simp [offsets, bounds, eq_comm]

theorem isLeast_offsets (available required : Interval) : IsLeast (offsets available required)
    (min (min (min available.start.offset available.stop.offset) required.start.offset) required.stop.offset) := by
  rw [offsets_eq, min_assoc, min_assoc]
  exact ((isLeast_singleton.insert _).insert _).insert _

theorem isGreatest_offsets (available required : Interval) : IsGreatest (offsets available required)
    (max (max (max available.start.offset available.stop.offset) required.start.offset) required.stop.offset) := by
  rw [offsets_eq, max_assoc, max_assoc]
  exact ((isGreatest_singleton.insert _).insert _).insert _

theorem of?_eq_none_iff :
    of? available required = none ↔ ¬ ∃ event, ∀ t ∈ bounds available required, t.event = event := by
  simp [of?, bounds]

/-- What a drawing is made from: one event, the first and the last of the offsets, and both intervals. -/
theorem extent_of_of? (h : of? available required = some w) :
    (∀ t ∈ bounds available required, t.event = w.event) ∧ IsLeast (offsets available required) w.first ∧
      IsGreatest (offsets available required) (w.first + w.span) ∧
      w.available = available ∧ w.required = required := by
  unfold of? at h
  dsimp only at h
  split at h
  next hevents =>
    cases h
    have hleast := isLeast_offsets available required
    have hgreatest := isGreatest_offsets available required
    have hle := hgreatest.2 hleast.1
    refine ⟨by simpa [bounds] using hevents, hleast, ?_, rfl, rfl⟩
    simp only [List.foldl_cons, List.foldl_nil]
    rwa [Int.toNat_of_nonneg (Int.sub_nonneg_of_le hle), add_sub_cancel]
  · cases h

/-- The row has a character for each of so many cycles from a time on: a hash for a cycle of the interval and a
dot for any other, at whatever cycle the event happens. -/
structure Draws (row : List Char) (i : Interval) (start : Time) (span : Nat) : Prop where
  length : row.length = span
  high : ∀ ρ, ∀ k < span, row[k]? = some '#' ↔ i.Covers ρ (start.cycle ρ + k)
  low : ∀ ρ, ∀ k < span, row[k]? = some '.' ↔ ¬ i.Covers ρ (start.cycle ρ + k)

theorem row_getElem? (w : Waveform) (i : Interval) {k : Nat} (hk : k < w.span) :
    (w.row i)[k]? = some (if i.start.offset ≤ w.first + k ∧ w.first + k < i.stop.offset then '#' else '.') := by
  simp [row, cycles, List.getElem?_range hk]

theorem draws_row (hstart : i.start.event = w.event) (hstop : i.stop.event = w.event) :
    Draws (w.row i) i ⟨w.event, w.first⟩ w.span := by
  have hcovers : ∀ ρ (k : Nat), i.Covers ρ ((⟨w.event, w.first⟩ : Time).cycle ρ + k) ↔
      i.start.offset ≤ w.first + k ∧ w.first + k < i.stop.offset := by
    intro ρ k
    simp only [Interval.Covers, Time.cycle, hstart, hstop]
    omega
  refine ⟨by simp [row, cycles], fun ρ k hk => ?_, fun ρ k hk => ?_⟩
  · rw [row_getElem? w i hk, hcovers]
    split <;> simp_all
  · rw [row_getElem? w i hk, hcovers]
    split <;> simp_all

/-- Where two rows reach over all bounds, all cycles of the one interval are cycles of the other exactly if no
position shows otherwise. -/
theorem covers_iff_rows {shown needed : List Char} (hshown : Draws shown available start span)
    (hneeded : Draws needed required start span)
    (hevents : ∀ t ∈ bounds available required, t.event = start.event)
    (hfirst : ∀ n ∈ offsets available required, start.offset ≤ n)
    (hlast : ∀ n ∈ offsets available required, n ≤ start.offset + span) :
    (∀ ρ cycle, required.Covers ρ cycle → available.Covers ρ cycle) ↔
      ∀ k : Nat, ¬ (needed[k]? = some '#' ∧ shown[k]? = some '.') := by
  constructor
  · rintro hcovers k ⟨hhigh, hlow⟩
    have hk : k < span := hneeded.length ▸ (List.getElem?_eq_some_iff.1 hhigh).1
    let ρ : Symbol → Int := fun _ => 0
    exact (hshown.low ρ k hk).1 hlow (hcovers ρ _ ((hneeded.high ρ k hk).1 hhigh))
  · intro hrows ρ cycle hrequired
    have hstart : start.cycle ρ ≤ required.start.cycle ρ := by
      have hle := hfirst _ ⟨required.start, by simp [bounds], rfl⟩
      have hevent := hevents required.start (by simp [bounds])
      simp only [Time.cycle, hevent]
      omega
    have hstop : required.stop.cycle ρ ≤ start.cycle ρ + span := by
      have hle := hlast _ ⟨required.stop, by simp [bounds], rfl⟩
      have hevent := hevents required.stop (by simp [bounds])
      simp only [Time.cycle, hevent]
      omega
    -- so the cycle has a position in the rows
    obtain ⟨hge, hlt⟩ := hrequired
    obtain ⟨k, hk⟩ := Int.eq_ofNat_of_zero_le (Int.sub_nonneg_of_le (hstart.trans hge))
    obtain rfl : cycle = start.cycle ρ + k := by omega
    have hspan : k < span := by omega
    by_contra havailable
    exact hrows k ⟨(hneeded.high ρ k hspan).2 ⟨hge, hlt⟩, (hshown.low ρ k hspan).2 havailable⟩

def header (ruler : List Char) (start : Time) : String :=
  "cycle      " ++ String.ofList ruler ++ "   ('" ++ start.event ++ signed start.offset ++ " onwards)"

theorem lines_eq (w : Waveform) : w.lines = [header w.ruler ⟨w.event, w.first⟩,
    "available  " ++ String.ofList (w.row w.available) ++ "   " ++ w.available.text,
    "required   " ++ String.ofList (w.row w.required) ++ "   " ++ w.required.text] := by
  have hcycle : "cycle      " = Text.padded 10 "cycle" ++ " " := by decide +kernel
  have havailable : "available  " = Text.padded 10 "available" ++ " " := by decide +kernel
  have hrequired : "required   " = Text.padded 10 "required" ++ " " := by decide +kernel
  unfold header lines
  rw [hcycle, havailable, hrequired]

end Waveform

/-- Two intervals are drawn exactly if all their bounds are on one event. Both rows then have a position for each
cycle from the first of the bounds up to the last one, and a position is marked exactly if the interval of the row
has the cycle. So the one interval is found to contain the other exactly if no position is marked in the row of the
other only. -/
theorem drawn_as_checked (available required : Interval) :
    (Waveform.of? available required = none ↔
      ¬ ∃ event, ∀ t ∈ Waveform.bounds available required, t.event = event) ∧
    ∀ w, Waveform.of? available required = some w →
      ∃ (start : Time) (span : Nat) (ruler shown needed : List Char),
        (∀ t ∈ Waveform.bounds available required, t.event = start.event) ∧
        IsLeast (Waveform.offsets available required) start.offset ∧
        IsGreatest (Waveform.offsets available required) (start.offset + span) ∧
        w.lines = [Waveform.header ruler start,
          "available  " ++ String.ofList shown ++ "   " ++ available.text,
          "required   " ++ String.ofList needed ++ "   " ++ required.text] ∧
        ruler.length = span ∧
        Waveform.Draws shown available start span ∧
        Waveform.Draws needed required start span ∧
        ∃ holds, Interval.contains required available = .ok holds ∧
          (holds = true ↔ ∀ k : Nat, ¬ (needed[k]? = some '#' ∧ shown[k]? = some '.')) := by
  refine ⟨Waveform.of?_eq_none_iff, fun w hw => ?_⟩
  obtain ⟨hevents, hleast, hgreatest, rfl, rfl⟩ := Waveform.extent_of_of? hw
  obtain ⟨hstart, hstop, hstart', hstop'⟩ : (w.available.start.event = w.event ∧
      w.available.stop.event = w.event ∧ w.required.start.event = w.event ∧ w.required.stop.event = w.event) := by
    simpa [Waveform.bounds] using hevents
  have hshown := Waveform.draws_row (w := w) hstart hstop
  have hneeded := Waveform.draws_row (w := w) hstart' hstop'
  have hcomparable : w.required.Comparable w.available :=
    ⟨hstart'.trans hstart.symm, hstop'.trans hstop.symm⟩
  refine ⟨⟨w.event, w.first⟩, w.span, w.ruler, w.row w.available, w.row w.required, hevents, hleast, hgreatest,
    w.lines_eq, by simp [Waveform.ruler, Waveform.cycles], hshown, hneeded, ?_⟩
  refine ⟨_, Interval.contains_eq_ok_iff.2 ⟨hcomparable, rfl⟩, ?_⟩
  rw [← Waveform.covers_iff_rows hshown hneeded hevents hleast.2 hgreatest.2,
    ← Interval.contains_iff_covers hcomparable, Interval.contains_eq_true_iff, decide_eq_true_eq]
  exact (and_iff_right hcomparable).symm

namespace Early

def given : Interval := ⟨⟨"G", -2⟩, ⟨"G", 0⟩, by decide⟩

def needed : Interval := ⟨⟨"G", -1⟩, ⟨"G", 1⟩, by decide⟩

end Early

/-- The rows of the sample show the cycle that is missing; an interval on two events is not drawn. -/
theorem drawn_as_checked_early :
    (∃ w, Waveform.of? Early.given Early.needed = some w ∧ w.lines =
      ["cycle      210   ('G-2 onwards)", "available  ##.   ['G-2, 'G)", "required   .##   ['G-1, 'G+1)"]) ∧
    Interval.contains Early.needed Early.given = .ok false ∧
    Waveform.of? Early.given Narrow.needed = none := by
  obtain ⟨-, hdrawn⟩ := drawn_as_checked Early.given Early.needed
  obtain ⟨hother, -⟩ := drawn_as_checked Early.given Narrow.needed
  obtain ⟨w, hw⟩ : ∃ w, Waveform.of? Early.given Early.needed = some w := ⟨_, rfl⟩
  refine ⟨⟨_, rfl, by decide +kernel⟩, ?_, hother.2 ?_⟩
  · obtain ⟨start, span, _, shown, needed, -, hleast, hgreatest, -, -, hshown, hneeded, holds, hcontains,
      hrows⟩ := hdrawn w hw
    have hfirst : start.offset = -2 :=
      hleast.unique (Waveform.isLeast_offsets Early.given Early.needed)
    have hlast : start.offset + span = 1 :=
      hgreatest.unique (Waveform.isGreatest_offsets Early.given Early.needed)
    have hspan : 2 < span := by omega
    have hhigh : needed[2]? = some '#' := (hneeded.high (fun _ => 0) 2 hspan).2
      (by simp [Interval.Covers, Time.cycle, Early.needed, hfirst])
    have hlow : shown[2]? = some '.' := (hshown.low (fun _ => 0) 2 hspan).2
      (by simp [Interval.Covers, Time.cycle, Early.given, hfirst])
    cases holds with
    | true => exact absurd ⟨hhigh, hlow⟩ (hrows.1 rfl 2)
    | false => exact hcontains
  · rintro ⟨event, hevents⟩
    exact absurd ((hevents ⟨"G", 1⟩ (by decide)).trans (hevents ⟨"L", 3⟩ (by decide)).symm) (by decide)

end Chronogram
