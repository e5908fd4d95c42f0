import Mathlib.Tactic

/-!
# The proleptic Gregorian calendar

Leap years, the lengths of the months, and dates in their order, for all integer years.  A numbering
of the dates that goes on by one from a day to the next and from the end of a month to the start of
the following one is increasing in the order of dates (`Numbering.strictMono`).
-/

namespace Gregorian

/-- Every fourth year, except for the centuries that no four hundred divides. -/
def IsLeap (y : ℤ) : Prop := 4 ∣ y ∧ (¬100 ∣ y ∨ 400 ∣ y)

instance (y : ℤ) : Decidable (IsLeap y) := inferInstanceAs (Decidable (_ ∧ _))

/-- The number of days of a month. -/
def monthDays (y m : ℤ) : ℤ :=
  if m = 2 then if IsLeap y then 29 else 28
  else if m = 4 ∨ m = 6 ∨ m = 9 ∨ m = 11 then 30
  else 31

/-- A year, a month and a day that are a date. -/
structure IsDate (y m d : ℤ) : Prop where
  month_pos : 1 ≤ m
  month_le : m ≤ 12
  day_pos : 1 ≤ d
  day_le : d ≤ monthDays y m

instance (y m d : ℤ) : Decidable (IsDate y m d) :=
  decidable_of_iff (1 ≤ m ∧ m ≤ 12 ∧ 1 ≤ d ∧ d ≤ monthDays y m)
    ⟨fun ⟨h₁, h₂, h₃, h₄⟩ => ⟨h₁, h₂, h₃, h₄⟩, fun ⟨h₁, h₂, h₃, h₄⟩ => ⟨h₁, h₂, h₃, h₄⟩⟩

lemma monthDays_pos (y m : ℤ) : 28 ≤ monthDays y m := by
  unfold monthDays
  split_ifs <;> omega

/-- Dates in their order: by the year, then by the month, then by the day. -/
def Before (y m d y' m' d' : ℤ) : Prop := y < y' ∨ y = y' ∧ (m < m' ∨ m = m' ∧ d < d')

/-- A numbering of the days that goes on by one. -/
structure Numbering (f : ℤ → ℤ → ℤ → ℤ) : Prop where
  day : ∀ y m d, f y m (d + 1) = f y m d + 1
  month : ∀ y m, 1 ≤ m → m < 12 → f y (m + 1) 1 = f y m 1 + monthDays y m
  year : ∀ y, f (y + 1) 1 1 = f y 12 1 + monthDays y 12

namespace Numbering

variable {f : ℤ → ℤ → ℤ → ℤ} (h : Numbering f) {y m d y' m' d' : ℤ}
include h

lemma day_eq (y m d : ℤ) : f y m d = f y m 1 + (d - 1) := by
  have hstep : ∀ n : ℕ, f y m (1 + n) = f y m 1 + n ∧ f y m (1 - n) = f y m 1 - n := by
    intro n
    induction n with
    | zero => simp
    | succ n ih =>
      have hup := h.day y m (1 + n)
      have hdown := h.day y m (1 - (n + 1 : ℕ))
      rw [show 1 - ((n + 1 : ℕ) : ℤ) + 1 = 1 - n by omega] at hdown
      rw [show (1 : ℤ) + (n + 1 : ℕ) = 1 + n + 1 by omega]
      omega
  rcases le_total 1 d with hd | hd
  · have hup := (hstep (d - 1).toNat).1
    rw [show 1 + ((d - 1).toNat : ℤ) = d by omega] at hup
    omega
  · have hdown := (hstep (1 - d).toNat).2
    rw [show 1 - ((1 - d).toNat : ℤ) = d by omega] at hdown
    omega

/-- The first day of the month after one, when the months are counted through the years. -/
lemma first_succ (n : ℤ) : f ((n + 1) / 12) ((n + 1) % 12 + 1) 1 =
    f (n / 12) (n % 12 + 1) 1 + monthDays (n / 12) (n % 12 + 1) := by
  by_cases hlast : n % 12 = 11
  · have hyear := h.year (n / 12)
    rw [show (n + 1) / 12 = n / 12 + 1 by omega, show (n + 1) % 12 + 1 = 1 by omega, hyear, hlast]
    norm_num
  · have hmonth := h.month (n / 12) (n % 12 + 1) (by omega) (by omega)
    rw [show (n + 1) / 12 = n / 12 by omega, show (n + 1) % 12 + 1 = n % 12 + 1 + 1 by omega, hmonth]

/-- The first days of the months follow each other. -/
lemma first_strictMono : StrictMono fun n : ℤ => f (n / 12) (n % 12 + 1) 1 := by
  refine strictMono_int_of_lt_succ fun n => ?_
  have hlen := monthDays_pos (n / 12) (n % 12 + 1)
  have hsucc := h.first_succ n
  omega

/-- **Such a numbering follows the order of dates.** -/
theorem strictMono (hdate : IsDate y m d) (hdate' : IsDate y' m' d') (hlt : Before y m d y' m' d') :
    f y m d < f y' m' d' := by
  obtain ⟨hm1, hm12, hd1, hdle⟩ := hdate
  obtain ⟨hm1', hm12', hd1', hdle'⟩ := hdate'
  rw [h.day_eq y m d, h.day_eq y' m' d']
  by_cases hsame : y = y' ∧ m = m'
  · obtain ⟨rfl, rfl⟩ := hsame
    unfold Before at hlt
    omega
  · have hindex : 12 * y + (m - 1) + 1 ≤ 12 * y' + (m' - 1) := by
      unfold Before at hlt
      omega
    have hmono := h.first_strictMono.monotone hindex
    simp only [h.first_succ] at hmono
    rw [show (12 * y + (m - 1)) / 12 = y by omega, show (12 * y + (m - 1)) % 12 + 1 = m by omega,
      show (12 * y' + (m' - 1)) / 12 = y' by omega,
      show (12 * y' + (m' - 1)) % 12 + 1 = m' by omega] at hmono
    omega

end Numbering

end Gregorian
