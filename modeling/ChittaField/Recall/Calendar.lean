import ChittaField.Lib.Gregorian

/-!
# Calendar arithmetic

The conversion between civil dates and days since 1970-01-01, by eras of 400 years that begin in
March, with divisions that truncate.  It is exact: the two directions are inverse to each other on
the dates of the Gregorian calendar, the days follow the order of the dates, and the lengths of the
months come out right (`calendar_exact`).
-/

namespace ChittaField

open Gregorian

/-- Days since 1970-01-01 for a civil date. -/
def daysFromCivil (y m d : ℤ) : ℤ :=
  let y := if m ≤ 2 then y - 1 else y
  let era := (if 0 ≤ y then y else y - 399).tdiv 400
  let yoe := y - era * 400
  let mp := (m + 9).tmod 12
  let doy := (153 * mp + 2).tdiv 5 + d - 1
  let doe := yoe * 365 + yoe.tdiv 4 - yoe.tdiv 100 + doy
  era * 146097 + doe - 719468

/-- The civil date of a day. -/
def civilFromDays (z : ℤ) : ℤ × ℤ × ℤ :=
  let z := z + 719468
  let era := (if 0 ≤ z then z else z - 146096).tdiv 146097
  let doe := z - era * 146097
  let yoe := (doe - doe.tdiv 1460 + doe.tdiv 36524 - doe.tdiv 146096).tdiv 365
  let y := yoe + era * 400
  let doy := doe - (365 * yoe + yoe.tdiv 4 - yoe.tdiv 100)
  let mp := (5 * doy + 2).tdiv 153
  let d := doy - (153 * mp + 2).tdiv 5 + 1
  let m := (mp + 2).tmod 12 + 1
  (if m ≤ 2 then y + 1 else y, m, d)

/-- 0 is Monday and 6 is Sunday. -/
def weekdayFromDays (z : ℤ) : ℤ := (z + 3) % 7

/-- The length of a month. -/
def monthLen (y m : ℤ) : ℤ :=
  daysFromCivil (y + if m = 12 then 1 else 0) (m.tmod 12 + 1) 1 - daysFromCivil y m 1

/-! ## From dates to days -/

/-- The division of the source that takes care of negative numbers rounds down. -/
lemma tdiv_floor {n : ℤ} (hn : 0 < n) (y : ℤ) :
    (if 0 ≤ y then y else y - (n - 1)).tdiv n = y / n := by
  split_ifs with h
  · exact Int.tdiv_eq_ediv_of_nonneg h
  · have hneg : (y - (n - 1)).tdiv n = -((-(y - (n - 1))) / n) := by
      rw [← Int.tdiv_eq_ediv_of_nonneg (by omega), Int.neg_tdiv, neg_neg]
    have hmul := Int.mul_ediv_add_emod y n
    have hnn := Int.emod_nonneg y hn.ne'
    have hlt := Int.emod_lt_of_pos y hn
    have hfloor : -(y - (n - 1)) / n = -(y / n) := by
      rw [Int.ediv_eq_iff_of_pos hn]
      constructor <;> nlinarith
    rw [hneg, hfloor, neg_neg]

/-- The days of a date from the months of its year, which begins in March, and the years before. -/
lemma daysFromCivil_eq {m : ℤ} (hm : 0 ≤ m) (y d : ℤ) : daysFromCivil y m d =
    365 * (if m ≤ 2 then y - 1 else y) + (if m ≤ 2 then y - 1 else y) / 4 -
      (if m ≤ 2 then y - 1 else y) / 100 + (if m ≤ 2 then y - 1 else y) / 400 +
      (153 * ((m + 9) % 12) + 2) / 5 + d - 719469 := by
  unfold daysFromCivil
  dsimp only
  generalize (if m ≤ 2 then y - 1 else y) = y'
  have hera := tdiv_floor (n := 400) (by decide) y'
  norm_num at hera
  rw [hera, Int.tmod_eq_emod_of_nonneg (by omega), Int.tdiv_eq_ediv_of_nonneg (by omega),
    Int.tdiv_eq_ediv_of_nonneg (by omega), Int.tdiv_eq_ediv_of_nonneg (by omega)]
  omega

/-- The days number the dates. -/
theorem numbering_daysFromCivil : Numbering daysFromCivil where
  day y m d := by
    unfold daysFromCivil
    dsimp only
    ring
  month y m hm hm' := by
    rw [daysFromCivil_eq (by omega), daysFromCivil_eq (by omega)]
    unfold monthDays IsLeap
    interval_cases m <;> norm_num <;> omega
  year y := by
    rw [daysFromCivil_eq (by omega), daysFromCivil_eq (by omega)]
    unfold monthDays
    norm_num
    omega

/-- The difference of two first days is the length of the month. -/
lemma monthLen_eq {y m : ℤ} (hm : 1 ≤ m) (hm' : m ≤ 12) : monthLen y m = monthDays y m := by
  unfold monthLen
  by_cases hlast : m = 12
  · subst hlast
    have hyear := numbering_daysFromCivil.year y
    norm_num
    omega
  · have hmonth := numbering_daysFromCivil.month y m hm (by omega)
    rw [if_neg hlast, add_zero, Int.tmod_eq_emod_of_nonneg (by omega), Int.emod_eq_of_lt (by omega)
      (by omega)]
    omega

/-! ## From days to dates -/

/-- A day of an era by centuries, by fours of years and by years, and the day of the year: only the
last year of four has a day more, and the last four of a century only if it ends the era. -/
structure DayOfEra (doe c q r doy : ℤ) : Prop where
  century : 0 ≤ c ∧ c ≤ 3
  four : 0 ≤ q ∧ q ≤ 24
  year : 0 ≤ r ∧ r ≤ 3
  day : 0 ≤ doy ∧ doy ≤ 365
  last : doy = 365 → r = 3 ∧ (q ≤ 23 ∨ c = 3)
  total : doe = 36524 * c + 1461 * q + 365 * r + doy

lemma exists_dayOfEra (doe : ℤ) (h : 0 ≤ doe) (h' : doe ≤ 146096) :
    ∃ c q r doy, DayOfEra doe c q r doy := by
  obtain ⟨c, hc0, hc3, hc, hcnext⟩ : ∃ c : ℤ, 0 ≤ c ∧ c ≤ 3 ∧ 36524 * c ≤ doe ∧
      (doe < 36524 * (c + 1) ∨ c = 3) := by
    by_cases hle : doe / 36524 ≤ 3
    · exact ⟨doe / 36524, by omega, hle, by omega, by omega⟩
    · exact ⟨3, by omega, by omega, by omega, by omega⟩
  obtain ⟨q, hq⟩ : ∃ q : ℤ, q = (doe - 36524 * c) / 1461 := ⟨_, rfl⟩
  obtain ⟨r, hr0, hr3, hr, hrnext⟩ : ∃ r : ℤ, 0 ≤ r ∧ r ≤ 3 ∧
      365 * r ≤ doe - 36524 * c - 1461 * q ∧
        (doe - 36524 * c - 1461 * q < 365 * (r + 1) ∨ r = 3) := by
    by_cases hle : (doe - 36524 * c - 1461 * q) / 365 ≤ 3
    · exact ⟨(doe - 36524 * c - 1461 * q) / 365, by omega, hle, by omega, by omega⟩
    · exact ⟨3, by omega, by omega, by omega, by omega⟩
  exact ⟨c, q, r, doe - 36524 * c - 1461 * q - 365 * r,
    ⟨⟨hc0, hc3⟩, by omega, ⟨hr0, hr3⟩, by omega, by omega, by omega⟩⟩

/-- The year of the era. -/
lemma DayOfEra.yoe {doe c q r doy : ℤ} (h : DayOfEra doe c q r doy) :
    (doe - doe / 1460 + doe / 36524 - doe / 146096) / 365 = 100 * c + 4 * q + r := by
  obtain ⟨hc, hq, hr, hdoy, hlast, htotal⟩ := h
  by_cases hend : doe = 146096
  · subst hend
    norm_num
    omega
  have hcentury : doe / 36524 = c := by omega
  have hera : doe / 146096 = 0 := by omega
  have hfour : doe / 1460 = 25 * c + q + (24 * c + q + 365 * r + doy) / 1460 := by omega
  rw [hcentury, hera, hfour]
  by_cases hday : 24 * c + q + 365 * r + doy < 1460
  · have hzero : (24 * c + q + 365 * r + doy) / 1460 = 0 := by omega
    rw [hzero]
    omega
  · have hone : (24 * c + q + 365 * r + doy) / 1460 = 1 := by omega
    rw [hone]
    omega

/-- The month of a year that begins in March, and the day of the month. -/
lemma month_spec {doy : ℤ} (h : 0 ≤ doy) (h' : doy ≤ 365) : 0 ≤ (5 * doy + 2) / 153 ∧
    (5 * doy + 2) / 153 ≤ 11 ∧ (153 * ((5 * doy + 2) / 153) + 2) / 5 ≤ doy ∧
      doy < (153 * ((5 * doy + 2) / 153 + 1) + 2) / 5 := by
  omega

/-- What the conversion of a day comes to. -/
lemma exists_civilFromDays (z : ℤ) : ∃ era c q r doy mp : ℤ,
    DayOfEra (z + 719468 - era * 146097) c q r doy ∧ mp = (5 * doy + 2) / 153 ∧
      civilFromDays z =
        (if (mp + 2) % 12 + 1 ≤ 2 then 100 * c + 4 * q + r + era * 400 + 1
          else 100 * c + 4 * q + r + era * 400,
        (mp + 2) % 12 + 1, doy - (153 * mp + 2) / 5 + 1) := by
  obtain ⟨era, hera⟩ : ∃ era : ℤ, era = (z + 719468) / 146097 := ⟨_, rfl⟩
  obtain ⟨c, q, r, doy, hday⟩ := exists_dayOfEra (z + 719468 - era * 146097) (by omega) (by omega)
  refine ⟨era, c, q, r, doy, _, hday, rfl, ?_⟩
  have hyoe := hday.yoe
  obtain ⟨hc, hq, hr, hdoy, hlast, htotal⟩ := hday
  have hmonth := month_spec hdoy.1 hdoy.2
  have hfloor := tdiv_floor (n := 146097) (by decide) (z + 719468)
  norm_num at hfloor
  unfold civilFromDays
  dsimp only
  rw [hfloor, ← hera]
  generalize z + 719468 - era * 146097 = doe at hyoe htotal ⊢
  have hdoe : 0 ≤ doe := by omega
  have hquot : 0 ≤ doe - doe / 1460 + doe / 36524 - doe / 146096 := by omega
  rw [Int.tdiv_eq_ediv_of_nonneg hdoe, Int.tdiv_eq_ediv_of_nonneg hdoe,
    Int.tdiv_eq_ediv_of_nonneg hdoe, Int.tdiv_eq_ediv_of_nonneg hquot, hyoe,
    Int.tdiv_eq_ediv_of_nonneg (a := 100 * c + 4 * q + r) (by omega),
    Int.tdiv_eq_ediv_of_nonneg (a := 100 * c + 4 * q + r) (by omega)]
  have hrest : doe - (365 * (100 * c + 4 * q + r) + (100 * c + 4 * q + r) / 4 -
      (100 * c + 4 * q + r) / 100) = doy := by
    have hfours : (100 * c + 4 * q + r) / 4 = 25 * c + q := by omega
    have hcenturies : (100 * c + 4 * q + r) / 100 = c := by omega
    rw [hfours, hcenturies]
    linarith
  rw [hrest, Int.tdiv_eq_ediv_of_nonneg (a := 5 * doy + 2) (by omega),
    Int.tdiv_eq_ediv_of_nonneg (by omega), Int.tmod_eq_emod_of_nonneg (by omega)]

/-- A date comes back from its day: a day has a date, and the date has that day. -/
lemma civilFromDays_spec (z : ℤ) :
    IsDate (civilFromDays z).1 (civilFromDays z).2.1 (civilFromDays z).2.2 ∧
      daysFromCivil (civilFromDays z).1 (civilFromDays z).2.1 (civilFromDays z).2.2 = z := by
  obtain ⟨era, c, q, r, doy, mp, hday, hmp, heq⟩ := exists_civilFromDays z
  obtain ⟨hc, hq, hr, hdoy, hlast, htotal⟩ := hday
  obtain ⟨hmp0, hmp11, hfirst, hnext⟩ := month_spec hdoy.1 hdoy.2
  rw [← hmp] at hmp0 hmp11 hfirst hnext
  rw [heq]
  dsimp only
  constructor
  · refine ⟨by omega, by omega, by omega, ?_⟩
    clear heq hmp
    unfold monthDays IsLeap
    interval_cases mp <;> norm_num at hfirst hnext ⊢ <;> omega
  · rw [daysFromCivil_eq (by omega)]
    clear heq hmp
    interval_cases mp <;> norm_num <;> omega

/-- **Calendar arithmetic is exact.**  Every day has a date, which has that day; every date comes
back from its day; the days follow the order of the dates, begin with the epoch, and the months have
their lengths. -/
theorem calendar_exact :
    (∀ z, IsDate (civilFromDays z).1 (civilFromDays z).2.1 (civilFromDays z).2.2 ∧
      daysFromCivil (civilFromDays z).1 (civilFromDays z).2.1 (civilFromDays z).2.2 = z) ∧
    (∀ y m d, IsDate y m d → civilFromDays (daysFromCivil y m d) = (y, m, d)) ∧
    (∀ y m d y' m' d', IsDate y m d → IsDate y' m' d' → Before y m d y' m' d' →
      daysFromCivil y m d < daysFromCivil y' m' d') ∧
    daysFromCivil 1970 1 1 = 0 ∧
    ∀ y m, 1 ≤ m → m ≤ 12 → monthLen y m = monthDays y m := by
  have hmono : ∀ y m d y' m' d', IsDate y m d → IsDate y' m' d' → Before y m d y' m' d' →
      daysFromCivil y m d < daysFromCivil y' m' d' := fun _ _ _ _ _ _ h h' hlt =>
    numbering_daysFromCivil.strictMono h h' hlt
  refine ⟨civilFromDays_spec, fun y m d hdate => ?_, hmono, rfl, fun y m hm hm' => monthLen_eq hm hm'⟩
  obtain ⟨hdate', hback⟩ := civilFromDays_spec (daysFromCivil y m d)
  -- two dates in order have different days
  have hnot : ¬Before (civilFromDays (daysFromCivil y m d)).1 (civilFromDays (daysFromCivil y m d)).2.1
      (civilFromDays (daysFromCivil y m d)).2.2 y m d := fun hlt =>
    absurd (hmono _ _ _ _ _ _ hdate' hdate hlt) (by omega)
  have hnot' : ¬Before y m d (civilFromDays (daysFromCivil y m d)).1
      (civilFromDays (daysFromCivil y m d)).2.1 (civilFromDays (daysFromCivil y m d)).2.2 := fun hlt =>
    absurd (hmono _ _ _ _ _ _ hdate hdate' hlt) (by omega)
  unfold Before at hnot hnot'
  refine Prod.ext ?_ (Prod.ext ?_ ?_) <;> dsimp only <;> omega

end ChittaField
