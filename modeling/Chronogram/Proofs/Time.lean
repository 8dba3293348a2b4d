import Chronogram.Declaration.Basic
import Chronogram.Proofs.Validation

/-! Putting times in place of events. An identifier is kept as it is when it names the event of a time,
so replacing events by times moves a time to the cycle that it has under the changed valuation. An
interval covers the same cycles before and after, and so does the port that it belongs to. -/

namespace Chronogram

open Fallible

theorem Token.isBlank_of_isNameChar {c : Char} (h : isNameChar c = true) : Text.isBlank c = false := by
  have hrange : (48 ≤ c.toNat ∧ c.toNat ≤ 57) ∨ (65 ≤ c.toNat ∧ c.toNat ≤ 122) := by
    have hle : ∀ a b : Char, a ≤ b ↔ a.toNat ≤ b.toNat := fun _ _ => UInt32.le_iff_toNat_le
    simp only [isNameChar, isLetter, isDigit, Bool.or_eq_true, Bool.and_eq_true, decide_eq_true_eq,
      beq_iff_eq, hle, Char.reduceToNat] at h
    rcases h with ((h | h) | rfl) | h
    · omega
    · omega
    · decide
    · omega
  simp only [Text.isBlank, Bool.or_eq_false_iff, Bool.and_eq_false_iff, decide_eq_false_iff_not,
    beq_eq_false_iff_ne]
  omega

theorem Text.trim_eq_self {s : String} (h : ∀ c ∈ s.toList, isBlank c = false) : trim s = s := by
  have hkeep : ∀ cs : List Char, (∀ c ∈ cs, isBlank c = false) → cs.dropWhile isBlank = cs := by
    intro cs hcs
    cases cs with
    | nil => rfl
    | cons c cs => simp [hcs c (by simp)]
  rw [trim, hkeep _ h, hkeep _ fun c hc => h c (List.mem_reverse.1 hc), List.reverse_reverse]
  exact String.ofList_toList

theorem Token.isNameChar_of_isName {s : String} (h : isName s = true) :
    ∀ c ∈ s.toList, isNameChar c = true := by
  unfold isName at h
  rcases hs : s.toList with _ | ⟨c, cs⟩
  · simp
  · rw [hs] at h
    simp only [Bool.and_eq_true, List.all_eq_true] at h
    intro d hd
    rcases List.mem_cons.1 hd with rfl | hd
    · simp [isNameChar, h.1]
    · exact h.2 d hd

theorem Text.dropLeading_of_isName {s : String} (h : Token.isName s = true) : dropLeading '\'' s = s := by
  have hhead := Symbol.isEvent_of_isName h
  unfold Symbol.isEvent at hhead
  unfold dropLeading
  rcases hs : s.toList with _ | ⟨c, cs⟩
  · rw [List.dropWhile_nil, ← hs]
    exact String.ofList_toList
  · rw [hs] at hhead
    have : (c == '\'') = false := by simpa using hhead
    rw [List.dropWhile_cons_of_neg (by simp [this]), ← hs]
    exact String.ofList_toList

theorem Time.eventName_of_isName {s : String} (h : Token.isName s = true) : eventName s = s := by
  have htrim : Text.trim s = s :=
    Text.trim_eq_self fun c hc => Token.isBlank_of_isNameChar (Token.isNameChar_of_isName h c hc)
  rw [eventName, htrim, Text.dropLeading_of_isName h, htrim]

namespace Time

variable {times : List (String × Time)}

/-- All times are on identifiers, as in every statement that is read. -/
def Named (times : List (String × Time)) : Prop := ∀ b ∈ times, Token.isName b.2.event = true

theorem since_eq_ok {s t : Time} {gap : Int} :
    t.since s = .ok gap ↔ t.event = s.event ∧ gap = t.offset - s.offset := by
  unfold since
  split
  next h => simp [h, eq_comm]
  next h => simp [h]

theorem shift?_of_isName {t : Time} (h : Token.isName t.event = true) (cycles : Int) :
    t.shift? cycles = some ⟨t.event, t.offset + cycles⟩ := by
  have hne : t.event.isEmpty = false := by
    rw [Bool.eq_false_iff, ne_eq, String.isEmpty_iff]
    intro he
    rw [he] at h
    exact absurd h (by decide)
  rw [shift?, on?, eventName_of_isName h, hne]
  rfl

theorem exists_subst? (hn : Named times) (t : Time) :
    ∃ u, t.subst? times = some u ∧
      ∀ (v : Valuation) params, u.cycle v.symbol = t.cycle (v.bound params times).symbol := by
  unfold subst?
  cases hl : times.lookup t.event with
  | none =>
    refine ⟨t, rfl, fun v params => ?_⟩
    simp [cycle_symbol, Valuation.bound, hl]
  | some target =>
    refine ⟨_, shift?_of_isName (hn _ (Association.mem_of_lookup hl)) t.offset, fun v params => ?_⟩
    simp only [cycle_symbol, Valuation.bound, hl, Option.elim_some]
    ring

end Time

namespace Interval

variable {times : List (String × Time)} {i j : Interval}

theorem between_eq_ok {start stop : Time} (h : between start stop = .ok i) :
    i.start = start ∧ i.stop = stop := by
  rw [between] at h
  split at h
  next hb =>
    cases h
    rw [between?] at hb
    split at hb
    · cases hb
      exact ⟨rfl, rfl⟩
    · cases hb
  · cases h

/-- The cycles of an interval do not change when times are put in place of events. -/
theorem covers_subst (hn : Time.Named times) (h : i.subst times = .ok j) (v : Valuation)
    (params : List (String × Expr)) (cycle : Int) :
    j.Covers v.symbol cycle ↔ i.Covers (v.bound params times).symbol cycle := by
  obtain ⟨start, hstart, hs⟩ := Time.exists_subst? hn i.start
  obtain ⟨stop, hstop, ht⟩ := Time.exists_subst? hn i.stop
  simp only [subst, substBounds?, hstart, hstop, Option.bind_eq_bind, Option.bind_some,
    Option.pure_def, mapError_eq_ok] at h
  obtain ⟨rfl, rfl⟩ := between_eq_ok h
  rw [Covers, Covers, hs v params, ht v params]

/-- Times may be put into an interval that holds a cycle under one changed valuation. -/
theorem succeeds_subst (hn : Time.Named times) (v : Valuation) (params : List (String × Expr))
    (h : i.start.cycle (v.bound params times).symbol < i.stop.cycle (v.bound params times).symbol) :
    Succeeds (i.subst times) := by
  obtain ⟨start, hstart, hs⟩ := Time.exists_subst? hn i.start
  obtain ⟨stop, hstop, ht⟩ := Time.exists_subst? hn i.stop
  simp only [subst, substBounds?, hstart, hstop, Option.bind_eq_bind, Option.bind_some,
    Option.pure_def]
  refine Succeeds.mapError ?_
  have hlt : start.event = stop.event → start.offset < stop.offset := by
    intro hsame
    rw [← hs, ← ht, Time.cycle_symbol, Time.cycle_symbol, hsame] at h
    omega
  exact ⟨⟨start, stop, hlt⟩, by rw [between, between?, dif_pos hlt]⟩

end Interval

namespace Port

variable {p : Port} {times : List (String × Time)} {params : List (String × Expr)}

/-- A port as an invocation uses it is what its declaration says under the induced valuation. -/
structure Means (p : Port) (times : List (String × Time)) (params : List (String × Expr))
    (b : BoundPort) : Prop where
  name : b.name = p.name
  direction : b.direction = p.direction
  width : ∀ v : Valuation, b.width.eval v.symbol = p.width.eval (v.bound params times).symbol
  covers : ∀ (v : Valuation) (cycle : Int), b.interval.Covers v.symbol cycle ↔
    p.interval.Covers (v.bound params times).symbol cycle

theorem means_of_bind (hn : Time.Named times) (hp : p.width.Plain) (hx : p.width.events = [])
    {b : BoundPort} (h : p.bind times params = .ok b) : p.Means times params b := by
  simp only [bind, bind_eq_ok, pure_eq_ok, Expr.toForm_eq_ok] at h
  obtain ⟨width, hw, interval, hi, rfl⟩ := h
  refine ⟨rfl, rfl, fun v => ?_, fun v cycle => Interval.covers_subst hn hi v params cycle⟩
  rw [Expr.eval_bound_of_events hp hx, ← Expr.eval_subst hp, Expr.eval_linearize hw]
  rfl

end Port

end Chronogram
