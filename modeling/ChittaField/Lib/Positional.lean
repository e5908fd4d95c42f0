import Mathlib.Tactic

/-!
# Fixed-width positional numerals

`digits b w n` writes `n` in base `b` with exactly `w` digits, most significant first; a number that
does not fit is truncated modulo `b ^ w`, as a machine integer is.  `value b ds` reads such a list
back.  The two are inverse on the numbers and lists that fit, and among numerals of one width the
lexicographic order is the numeric order.
-/

namespace Positional

/-- The `w` base-`b` digits of `n`, most significant first. -/
def digits (b : ℕ) : ℕ → ℕ → List ℕ
  | 0, _ => []
  | w + 1, n => n / b ^ w % b :: digits b w n

/-- The number a digit list stands for. -/
def value (b : ℕ) : List ℕ → ℕ
  | [] => 0
  | d :: ds => d * b ^ ds.length + value b ds

@[simp] lemma length_digits (b w n : ℕ) : (digits b w n).length = w := by
  induction w with
  | zero => rfl
  | succ w ih => simp [digits, ih]

/-- Writing and reading back keeps the number modulo the capacity of the numeral. -/
lemma value_digits (b w n : ℕ) : value b (digits b w n) = n % b ^ w := by
  induction w with
  | zero => simp [digits, value, Nat.mod_one]
  | succ w ih =>
    rw [digits, value, ih, length_digits, pow_succ, Nat.mod_mul]
    ring

/-- A number that fits is read back unchanged. -/
lemma value_digits_of_lt {b w n : ℕ} (h : n < b ^ w) : value b (digits b w n) = n := by
  rw [value_digits, Nat.mod_eq_of_lt h]

/-- Digits that do not fit are not written. -/
lemma digits_mul_pow_add {b : ℕ} (hb : 0 < b) (w d n : ℕ) :
    digits b w (d * b ^ w + n) = digits b w n := by
  induction w generalizing d with
  | zero => rfl
  | succ w ih =>
    have hpow : d * b ^ (w + 1) = d * b * b ^ w := by
      rw [pow_succ]
      ring
    rw [digits, digits, hpow, ih, Nat.add_comm, Nat.add_mul_div_right _ _ (pow_pos hb w),
      Nat.add_mul_mod_self_right]

/-- Every digit is below the base. -/
lemma lt_of_mem_digits {b w n d : ℕ} (hb : 0 < b) (h : d ∈ digits b w n) : d < b := by
  induction w with
  | zero => simp [digits] at h
  | succ w ih =>
    rcases List.mem_cons.mp h with rfl | h
    · exact Nat.mod_lt _ hb
    · exact ih h

/-- A numeral of width `w` stands for a number below `b ^ w`. -/
lemma value_lt {b : ℕ} {ds : List ℕ} (h : ∀ d ∈ ds, d < b) : value b ds < b ^ ds.length := by
  induction ds with
  | nil => simp [value]
  | cons d ds ih =>
    have hd : d < b := h d List.mem_cons_self
    have ih' := ih (List.forall_mem_cons.mp h).2
    rw [value, List.length_cons, pow_succ]
    calc d * b ^ ds.length + value b ds
        < d * b ^ ds.length + b ^ ds.length := by omega
      _ = (d + 1) * b ^ ds.length := by ring
      _ ≤ b * b ^ ds.length := Nat.mul_le_mul_right _ hd
      _ = b ^ ds.length * b := by ring

/-- Reading and writing back keeps the numeral. -/
lemma digits_value {b : ℕ} {ds : List ℕ} (h : ∀ d ∈ ds, d < b) :
    digits b ds.length (value b ds) = ds := by
  induction ds with
  | nil => rfl
  | cons d ds ih =>
    have hd : d < b := h d List.mem_cons_self
    have hds : ∀ e ∈ ds, e < b := (List.forall_mem_cons.mp h).2
    have hb : 0 < b := Nat.zero_lt_of_lt hd
    rw [List.length_cons, digits, value, digits_mul_pow_add hb, ih hds, Nat.add_comm,
      Nat.add_mul_div_right _ _ (pow_pos hb _), Nat.div_eq_of_lt (value_lt hds), Nat.zero_add,
      Nat.mod_eq_of_lt hd]

/-- Among numerals of one width a smaller number is lexicographically smaller, whatever strictly
increasing glyphs the digits are written with. -/
lemma map_digits_lt_of_mod_lt {α : Type*} [LinearOrder α] {b : ℕ} (hb : 0 < b) {g : ℕ → α}
    (hg : ∀ i j, i < j → j < b → g i < g j) {w m n : ℕ} (h : m % b ^ w < n % b ^ w) :
    (digits b w m).map g < (digits b w n).map g := by
  induction w with
  | zero => simp [Nat.mod_one] at h
  | succ w ih =>
    rw [pow_succ, Nat.mod_mul, Nat.mod_mul] at h
    rw [digits, digits, List.map_cons, List.map_cons, List.cons_lt_cons_iff]
    rcases lt_trichotomy (m / b ^ w % b) (n / b ^ w % b) with hlt | heq | hgt
    · exact Or.inl (hg _ _ hlt (Nat.mod_lt _ hb))
    · rw [heq] at h
      exact Or.inr ⟨congrArg g heq, ih (by omega)⟩
    · -- a larger leading digit outweighs everything behind it
      exfalso
      have hn : n % b ^ w < b ^ w := Nat.mod_lt _ (pow_pos hb w)
      have hstep : b ^ w * (n / b ^ w % b + 1) ≤ b ^ w * (m / b ^ w % b) :=
        Nat.mul_le_mul_left _ hgt
      rw [Nat.mul_add, Nat.mul_one] at hstep
      linarith [Nat.zero_le (m % b ^ w)]

/-- The order of two numerals that fit is the order of the numbers. -/
lemma map_digits_lt {α : Type*} [LinearOrder α] {b : ℕ} (hb : 0 < b) {g : ℕ → α}
    (hg : ∀ i j, i < j → j < b → g i < g j) {w m n : ℕ} (hmn : m < n) (hn : n < b ^ w) :
    (digits b w m).map g < (digits b w n).map g := by
  apply map_digits_lt_of_mod_lt hb hg
  rwa [Nat.mod_eq_of_lt hn, Nat.mod_eq_of_lt (hmn.trans hn)]

end Positional
