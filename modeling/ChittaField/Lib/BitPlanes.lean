import Mathlib.Data.Nat.Bits
import Mathlib.Tactic.Linarith

/-!
# Bit planes

Many small counters that are kept side by side: a word has one bit of each counter, and the words
stand in a list, the lowest bits first.  A word is added by passing its carries on, as long as there
are any, and a counter that cannot grow stays where it is.  All counters are compared with a number at
once.
-/

namespace ChittaField.BitPlanes

/-! ## Numbers -/

/-- The number with some bits, the lowest one first. -/
def value : List Bool → ℕ
  | [] => 0
  | b :: bs => b.toNat + 2 * value bs

lemma value_lt (bs : List Bool) : value bs < 2 ^ bs.length := by
  induction bs with
  | nil => exact Nat.one_pos
  | cons b bs ih =>
    have hb := b.toNat_le
    rw [value, List.length_cons, pow_succ]
    omega

lemma value_append_zeros (bs : List Bool) (k : ℕ) :
    value (bs ++ List.replicate k false) = value bs := by
  induction bs with
  | nil =>
    induction k with
    | zero => rfl
    | succ k ih =>
      have hzeros : value (List.replicate k false) = 0 := ih
      rw [List.nil_append, List.replicate_succ, value, value, hzeros]
      rfl
  | cons b bs ih => rw [List.cons_append, value, ih, value]

lemma value_ones (bs : List Bool) (h : ∀ b ∈ bs, b = true) : value bs + 1 = 2 ^ bs.length := by
  induction bs with
  | nil => rfl
  | cons b bs ih =>
    obtain ⟨rfl, hbs⟩ := List.forall_mem_cons.mp h
    have hones := ih hbs
    rw [value, List.length_cons, pow_succ, ← hones, Bool.toNat_true]
    omega

/-! ## Words -/

section Words

variable {W : Type*} [Zero W] [XorOp W] [AndOp W] [OrOp W] [Complement W] [DecidableEq W]

/-- Add a carry to the planes; the planes and the carry that is left. -/
def ripple : List W → W → List W × W
  | [], carry => ([], carry)
  | p :: ps, carry =>
    if carry &&& p = 0 then ((p ^^^ carry) :: ps, 0)
    else
      let r := ripple ps (carry &&& p)
      ((p ^^^ carry) :: r.1, r.2)

/-- Add a word; the counters with a carry left stay at the greatest number. -/
def addWord (ps : List W) (word : W) : List W :=
  let r := ripple ps word
  if r.2 = 0 then r.1 else r.1.map (· ||| r.2)

/-- Which counters are greater than a number from a bit on, and which are equal to it. -/
def compareFrom (t bit : ℕ) : List W → W × W
  | [] => (0, ~~~0)
  | p :: ps =>
    let r := compareFrom t (bit + 1) ps
    if t.testBit bit then (r.1, r.2 &&& p) else (r.1 ||| (r.2 &&& p), r.2 &&& ~~~p)

/-- The bit of one counter is taken out of words. -/
structure Lane (f : W → Bool) : Prop where
  zero : f 0 = false
  xor : ∀ a b, f (a ^^^ b) = (f a ^^ f b)
  and : ∀ a b, f (a &&& b) = (f a && f b)
  or : ∀ a b, f (a ||| b) = (f a || f b)
  compl : ∀ a, f (~~~a) = !f a

variable {f : W → Bool}

omit [OrOp W] [Complement W] in
lemma length_ripple (ps : List W) (carry : W) : (ripple ps carry).1.length = ps.length := by
  induction ps generalizing carry with
  | nil => rfl
  | cons p ps ih =>
    rw [ripple]
    split_ifs
    · rfl
    · exact congrArg (· + 1) (ih _)

omit [Complement W] in
lemma length_addWord (ps : List W) (word : W) : (addWord ps word).length = ps.length := by
  unfold addWord
  dsimp only
  split_ifs
  · exact length_ripple ps word
  · rw [List.length_map, length_ripple]

/-- What is added to a counter stands in the counter or in the carry. -/
lemma value_ripple (h : Lane f) (ps : List W) (carry : W) :
    value ((ripple ps carry).1.map f) + (f (ripple ps carry).2).toNat * 2 ^ ps.length =
      value (ps.map f) + (f carry).toNat := by
  induction ps generalizing carry with
  | nil => simp [ripple, value]
  | cons p ps ih =>
    have hbit : (f (p ^^^ carry)).toNat + 2 * (f (carry &&& p)).toNat =
        (f p).toNat + (f carry).toNat := by
      rw [h.xor, h.and]
      cases f p <;> cases f carry <;> rfl
    rw [ripple, List.map_cons, value]
    split_ifs with hleft
    · rw [hleft, h.zero] at hbit
      rw [h.zero, List.map_cons, value]
      simp only [Bool.toNat_false] at hbit ⊢
      omega
    · have hrest := ih (carry &&& p)
      rw [List.map_cons, value, List.length_cons, pow_succ]
      dsimp only
      linarith

/-- A counter is raised by one, and stays where it is if it cannot be. -/
lemma value_addWord (h : Lane f) (ps : List W) (word : W) :
    value ((addWord ps word).map f) =
      min (value (ps.map f) + (f word).toNat) (2 ^ ps.length - 1) := by
  have hripple := value_ripple h ps word
  have hlt := value_lt ((ripple ps word).1.map f)
  have hbefore := value_lt (ps.map f)
  rw [List.length_map, length_ripple] at hlt
  rw [List.length_map] at hbefore
  unfold addWord
  dsimp only
  split_ifs with hnone
  · rw [hnone, h.zero, Bool.toNat_false, Nat.zero_mul, Nat.add_zero] at hripple
    omega
  · rw [List.map_map]
    cases hcarry : f (ripple ps word).2 with
    | false =>
      have hsame : (ripple ps word).1.map (f ∘ (· ||| (ripple ps word).2)) =
          (ripple ps word).1.map f := by
        refine List.map_congr_left fun p _ => ?_
        rw [Function.comp_apply, h.or, hcarry, Bool.or_false]
      rw [hcarry, Bool.toNat_false, Nat.zero_mul, Nat.add_zero] at hripple
      rw [hsame]
      omega
    | true =>
      have hones := value_ones ((ripple ps word).1.map (f ∘ (· ||| (ripple ps word).2)))
        (by
          intro b hb
          obtain ⟨p, -, rfl⟩ := List.mem_map.mp hb
          rw [Function.comp_apply, h.or, hcarry, Bool.or_true])
      rw [List.length_map, length_ripple] at hones
      rw [hcarry, Bool.toNat_true, Nat.one_mul] at hripple
      omega

/-- A counter that has room leaves no carry. -/
lemma lane_ripple (h : Lane f) {ps : List W} {word : W}
    (hroom : value (ps.map f) + (f word).toNat < 2 ^ ps.length) : f (ripple ps word).2 = false := by
  have hripple := value_ripple h ps word
  cases hcarry : f (ripple ps word).2 with
  | false => rfl
  | true =>
    rw [hcarry, Bool.toNat_true, Nat.one_mul] at hripple
    omega

omit [DecidableEq W] in
/-- The comparison tells for each counter how it stands to the bits of the number. -/
lemma lane_compareFrom (h : Lane f) (t bit : ℕ) (ps : List W) :
    (f (compareFrom t bit ps).1 = decide (t / 2 ^ bit % 2 ^ ps.length < value (ps.map f))) ∧
      f (compareFrom t bit ps).2 = decide (t / 2 ^ bit % 2 ^ ps.length = value (ps.map f)) := by
  induction ps generalizing bit with
  | nil =>
    rw [compareFrom, h.zero, h.compl, h.zero]
    simp [value, Nat.mod_one]
  | cons p ps ih =>
    obtain ⟨hgreater, hequal⟩ := ih (bit + 1)
    have hdiv : t / 2 ^ (bit + 1) = t / 2 ^ bit / 2 := by
      rw [pow_succ, Nat.div_div_eq_div_mul]
    have hmod : t / 2 ^ bit % 2 ^ (ps.length + 1) =
        t / 2 ^ bit % 2 + 2 * (t / 2 ^ bit / 2 % 2 ^ ps.length) := by
      rw [pow_succ', Nat.mod_mul]
    have htest : t.testBit bit = decide (t / 2 ^ bit % 2 = 1) :=
      Nat.testBit_eq_decide_div_mod_eq
    rw [hdiv] at hgreater hequal
    rw [List.length_cons, List.map_cons, value, hmod, compareFrom]
    have hlow : t / 2 ^ bit % 2 < 2 := Nat.mod_lt _ Nat.two_pos
    rcases Nat.lt_succ_iff_lt_or_eq.mp hlow with hzero | hone
    · have hzero : t / 2 ^ bit % 2 = 0 := by omega
      rw [hzero] at htest ⊢
      rw [if_neg (by simp [htest])]
      dsimp only
      rw [h.or, h.and, h.and, h.compl, hgreater, hequal]
      cases f p <;> constructor <;> simp <;> grind
    · rw [hone] at htest ⊢
      rw [if_pos (by simp [htest])]
      dsimp only
      rw [h.and, hgreater, hequal]
      cases f p <;> constructor <;> simp <;> grind

omit [DecidableEq W] in
/-- A counter is greater than or equal to a number that it could be. -/
lemma lane_atLeast (h : Lane f) (t : ℕ) (ps : List W) (ht : t < 2 ^ ps.length) :
    f ((compareFrom t 0 ps).1 ||| (compareFrom t 0 ps).2) = decide (t ≤ value (ps.map f)) := by
  obtain ⟨hgreater, hequal⟩ := lane_compareFrom h t 0 ps
  rw [pow_zero, Nat.div_one, Nat.mod_eq_of_lt ht] at hgreater hequal
  rw [h.or, hgreater, hequal, ← Bool.decide_or]
  exact decide_eq_decide.mpr (Nat.le_iff_lt_or_eq).symm

end Words

end ChittaField.BitPlanes
