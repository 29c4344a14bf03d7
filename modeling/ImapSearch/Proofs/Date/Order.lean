import ImapSearch.Date
import Mathlib.Order.Defs.PartialOrder

/-!
# ImapSearch.Proofs.Date.Order

**Days in the order of the calendar.** A day comes before another if its year
does, or its month within one year, or its day within one month. The main fact
is `lt_next?_iff`: no day lies between a day and the day after it, across the
ends of months and years and in leap years too. A search for a single day, which
is written with one bound, rests on it.
-/

namespace ImapSearch.Date

theorem ext_parts {d e : Date} (hy : d.year = e.year) (hm : d.month = e.month)
    (hd : d.day = e.day) : d = e := by
  obtain ⟨year, month, day, _⟩ := d
  obtain ⟨year', month', day', _⟩ := e
  dsimp only at hy hm hd
  subst hy hm hd
  rfl

instance : PartialOrder Date where
  le d e := d.year < e.year ∨ d.year = e.year ∧
    (d.month < e.month ∨ d.month = e.month ∧ d.day ≤ e.day)
  lt d e := d.year < e.year ∨ d.year = e.year ∧
    (d.month < e.month ∨ d.month = e.month ∧ d.day < e.day)
  le_refl d := by omega
  le_trans d e f hde hef := by omega
  lt_iff_le_not_ge d e := by omega
  le_antisymm d e hde hed := by
    refine ext_parts ?_ ?_ ?_
    · omega
    · omega
    · omega

theorem lt_iff {d e : Date} :
    d < e ↔ d.year < e.year ∨ d.year = e.year ∧
      (d.month < e.month ∨ d.month = e.month ∧ d.day < e.day) := Iff.rfl

theorem le_iff {d e : Date} :
    d ≤ e ↔ d.year < e.year ∨ d.year = e.year ∧
      (d.month < e.month ∨ d.month = e.month ∧ d.day ≤ e.day) := Iff.rfl

theorem month_bounds (d : Date) : 1 ≤ d.month ∧ d.month ≤ 12 := by
  have h := d.valid
  simp only [isDay, Bool.and_eq_true, decide_eq_true_eq] at h
  omega

theorem day_bounds (d : Date) : 1 ≤ d.day ∧ d.day ≤ daysIn d.year d.month := by
  have h := d.valid
  simp only [isDay, Bool.and_eq_true, decide_eq_true_eq] at h
  omega

theorem ofParts?_eq_some_iff {year : Int} {month day : Nat} {d : Date} :
    ofParts? year month day = some d ↔ d.year = year ∧ d.month = month ∧ d.day = day := by
  unfold ofParts?
  constructor
  · intro h
    split at h
    · cases h
      exact ⟨rfl, rfl, rfl⟩
    · cases h
  · intro h
    obtain ⟨rfl, rfl, rfl⟩ := h
    exact dif_pos d.valid

/-- The days before the day after are the days up to the day itself. -/
theorem lt_next?_iff {d n : Date} (h : d.next? = some n) (e : Date) : e < n ↔ e ≤ d := by
  have hm := e.month_bounds
  have hd := e.day_bounds
  have hdm := d.month_bounds
  rw [lt_iff, le_iff]
  unfold next? at h
  split at h
  case isTrue inMonth =>
    obtain ⟨hy, hmo, hda⟩ := ofParts?_eq_some_iff.mp h
    omega
  case isFalse monthEnds =>
    -- No day of that month comes later.
    have last : e.year = d.year → e.month = d.month → e.day ≤ d.day := by
      intro hy hmo
      rw [hy, hmo] at hd
      omega
    split at h
    · obtain ⟨hy, hmo, hda⟩ := ofParts?_eq_some_iff.mp h
      omega
    · obtain ⟨hy, hmo, hda⟩ := ofParts?_eq_some_iff.mp h
      omega

/-- A full century is a leap year only every fourth time. -/
example : (ofParts? 1900 2 28).bind next? = ofParts? 1900 3 1 ∧
    (ofParts? 2000 2 28).bind next? = ofParts? 2000 2 29 := by decide

end ImapSearch.Date
