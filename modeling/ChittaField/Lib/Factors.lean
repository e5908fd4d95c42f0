import Mathlib.Data.List.Infix
import Mathlib.Data.Nat.Find

/-!
# Factors of a word

The factors of a word are told apart by where they end.  Of those that end at the same positions one
is the longest, and every factor extends to it.  The longest factors, with their longest proper
suffixes among them, are the nodes and the links of the suffix automaton of the word.

The lemmas under "One more symbol" say how they change where a symbol is appended: besides the word
itself there is at most one longest factor more, the longest suffix that has occurred before.
-/

namespace ChittaField.Factors

variable {α : Type*} {w p q x y z t : List α} {c : α} {i : ℕ}

/-- A word ends at a position of another. -/
def EndsAt (w p : List α) (i : ℕ) : Prop := i ≤ w.length ∧ p <:+ w.take i

/-- Wherever a word ends, another does. -/
def Accompanies (w p q : List α) : Prop := ∀ i, EndsAt w p i → EndsAt w q i

/-- A factor is the longest of those that end where it ends. -/
structure Longest (w x : List α) : Prop where
  factor : x <:+: w
  eq : ∀ y, x <:+ y → Accompanies w x y → y = x

/-- The longest word that ends wherever a factor does. -/
structure Extends (w x y : List α) : Prop where
  suffix : x <:+ y
  accompanies : Accompanies w x y
  longest : Longest w y

/-- The longest proper suffix of a word among the longest factors. -/
structure IsLink (w x y : List α) : Prop where
  longest : Longest w y
  suffix : y <:+ x
  ne : y ≠ x
  le : ∀ z, Longest w z → z <:+ x → z ≠ x → z <:+ y

/-! ## Ends -/

lemma isInfix_iff : p <:+: w ↔ ∃ i, EndsAt w p i := by
  constructor
  · rintro ⟨s, u, rfl⟩
    refine ⟨(s ++ p).length, by simp, ?_⟩
    rw [List.take_left]
    exact List.suffix_append s p
  · rintro ⟨i, -, h⟩
    exact h.isInfix.trans (List.take_prefix i w).isInfix

lemma EndsAt.isInfix (h : EndsAt w p i) : p <:+: w := isInfix_iff.mpr ⟨i, h⟩

lemma EndsAt.of_suffix (h : EndsAt w q i) (hs : p <:+ q) : EndsAt w p i := ⟨h.1, hs.trans h.2⟩

/-- Of two words that end at a position the shorter is a suffix of the longer. -/
lemma EndsAt.suffix_or (hp : EndsAt w p i) (hq : EndsAt w q i) : p <:+ q ∨ q <:+ p :=
  List.suffix_or_suffix_of_suffix hp.2 hq.2

lemma endsAt_length : EndsAt w p w.length ↔ p <:+ w := by
  unfold EndsAt
  rw [List.take_length]
  exact and_iff_right le_rfl

lemma endsAt_take (hi : i ≤ w.length) : EndsAt w (w.take i) i := ⟨hi, List.suffix_rfl⟩

lemma suffix_append_right (h : p <:+ q) (r : List α) : p ++ r <:+ q ++ r :=
  List.suffix_append_self_iff.mpr h

/-- Two words that are suffixes of each other. -/
lemma eq_of_suffix (h : p <:+ q) (h' : q <:+ p) : p = q := h.eq_of_length_le h'.length_le

/-- A word ends behind a symbol if it ends with the symbol, and the rest ends before it. -/
lemma endsAt_concat_succ {a : α} :
    EndsAt w (p ++ [a]) (i + 1) ↔ EndsAt w p i ∧ w[i]? = some a := by
  unfold EndsAt
  constructor
  · rintro ⟨hi, hs⟩
    have hlt : i < w.length := hi
    rw [List.take_add_one, List.getElem?_eq_getElem hlt, Option.toList_some,
      List.suffix_concat_iff] at hs
    obtain ⟨rest, heq, hs⟩ := hs.resolve_left (by simp)
    obtain ⟨rfl, ha⟩ := List.append_inj' heq rfl
    rw [List.singleton_inj] at ha
    exact ⟨⟨hlt.le, hs⟩, by rw [List.getElem?_eq_getElem hlt, ha]⟩
  · rintro ⟨⟨-, hs⟩, ha⟩
    obtain ⟨hlt, ha'⟩ := List.getElem?_eq_some_iff.mp ha
    refine ⟨hlt, ?_⟩
    rw [List.take_add_one, ha, Option.toList_some]
    exact List.suffix_append_self_iff.mpr hs

lemma not_endsAt_concat_zero {a : α} : ¬ EndsAt w (p ++ [a]) 0 := by
  rintro ⟨-, hs⟩
  simp at hs

/-- A word with a symbol is a factor if the symbol follows it somewhere. -/
lemma concat_isInfix_iff {a : α} : p ++ [a] <:+: w ↔ ∃ i, EndsAt w p i ∧ w[i]? = some a := by
  rw [isInfix_iff]
  constructor
  · rintro ⟨i, hi⟩
    cases i with
    | zero => exact absurd hi not_endsAt_concat_zero
    | succ i => exact ⟨i, endsAt_concat_succ.mp hi⟩
  · rintro ⟨i, hi⟩
    exact ⟨i + 1, endsAt_concat_succ.mpr hi⟩

lemma Accompanies.concat (h : Accompanies w p q) (a : α) : Accompanies w (p ++ [a]) (q ++ [a]) := by
  intro i hi
  cases i with
  | zero => exact absurd hi not_endsAt_concat_zero
  | succ i =>
    rw [endsAt_concat_succ] at hi ⊢
    exact ⟨h i hi.1, hi.2⟩

/-! ## Longest factors -/

lemma longest_take (hi : i ≤ w.length) : Longest w (w.take i) :=
  ⟨(List.take_prefix i w).isInfix, fun _ hs h =>
    eq_of_suffix (h i (endsAt_take hi)).2 hs⟩

lemma longest_self : Longest w w := by
  have h := longest_take (w := w) le_rfl
  rwa [List.take_length] at h

lemma longest_nil : Longest w [] := by
  have h := longest_take (w := w) (Nat.zero_le _)
  rwa [List.take_zero] at h

/-- Every factor extends to a longest one. -/
theorem exists_extends (h : p <:+: w) : ∃ q, Extends w p q := by
  induction hn : w.length - p.length using Nat.strong_induction_on generalizing p with
  | _ n ih =>
    by_cases hp : Longest w p
    · exact ⟨p, List.suffix_rfl, fun _ hi => hi, hp⟩
    · -- a longer word that ends wherever this one does is a factor, and extends further
      obtain ⟨y, hs, hacc, hne⟩ : ∃ y, p <:+ y ∧ Accompanies w p y ∧ y ≠ p := by
        by_contra hnone
        push Not at hnone
        exact hp ⟨h, hnone⟩
      have hlt : p.length < y.length :=
        lt_of_le_of_ne hs.length_le fun heq => hne (hs.eq_of_length heq).symm
      obtain ⟨i, hi⟩ := isInfix_iff.mp h
      have hy : y <:+: w := (hacc i hi).isInfix
      obtain ⟨q, hq⟩ := ih _ (by have := hy.length_le; omega) hy rfl
      exact ⟨q, hs.trans hq.suffix, fun i hi => hq.accompanies i (hacc i hi), hq.longest⟩

lemma Longest.extends (h : Longest w p) : Extends w p p := ⟨List.suffix_rfl, fun _ hi => hi, h⟩

lemma Extends.endsAt_iff (h : Extends w p q) : EndsAt w q i ↔ EndsAt w p i :=
  ⟨fun hi => hi.of_suffix h.suffix, h.accompanies i⟩

lemma Extends.factor (h : Extends w p q) : p <:+: w := h.suffix.isInfix.trans h.longest.factor

/-- Every longest factor that ends with a word ends with what the word extends to. -/
lemma Extends.suffix_of_longest (h : Extends w p q) (hz : Longest w z) (hpz : p <:+ z) : q <:+ z := by
  obtain ⟨i, hi⟩ := isInfix_iff.mp hz.factor
  rcases EndsAt.suffix_or (h.accompanies i (hi.of_suffix hpz)) hi with hqz | hzq
  · exact hqz
  · have hacc : Accompanies w z q := fun j hj => h.accompanies j (hj.of_suffix hpz)
    exact hz.eq q hzq hacc ▸ List.suffix_rfl

/-- No longer word accompanies a factor than what it extends to. -/
lemma Extends.suffix_of_accompanies (h : Extends w p q) (hy : Accompanies w p y) : y <:+ q := by
  obtain ⟨i, hi⟩ := isInfix_iff.mp h.factor
  rcases EndsAt.suffix_or (hy i hi) (h.accompanies i hi) with h' | h'
  · exact h'
  · exact (h.longest.eq y h' fun j hj => hy j (hj.of_suffix h.suffix)) ▸ List.suffix_rfl

lemma Extends.unique (h : Extends w p q) (h' : Extends w p z) : q = z :=
  eq_of_suffix (h.suffix_of_longest h'.longest h'.suffix)
    (h'.suffix_of_longest h.longest h.suffix)

lemma Extends.eq_self (h : Extends w p q) (hp : Longest w p) : q = p := h.unique hp.extends

/-- What a word extends to has the same continuations. -/
lemma Extends.concat_iff (h : Extends w p q) {a : α} :
    Extends w (p ++ [a]) z ↔ Extends w (q ++ [a]) z := by
  have hs : p ++ [a] <:+ q ++ [a] := List.suffix_append_self_iff.mpr h.suffix
  have hacc := Accompanies.concat h.accompanies a
  constructor
  · intro hz
    refine ⟨?_, fun i hi => hz.accompanies i (hi.of_suffix hs), hz.longest⟩
    obtain ⟨i, hi⟩ := isInfix_iff.mp hz.factor
    rcases EndsAt.suffix_or (hacc i hi) (hz.accompanies i hi) with h' | h'
    · exact h'
    · -- otherwise it would not be the longest
      have hacc' : Accompanies w z (q ++ [a]) := fun j hj => hacc j (hj.of_suffix hz.suffix)
      exact (hz.longest.eq _ h' hacc').symm ▸ List.suffix_rfl
  · intro hz
    exact ⟨hs.trans hz.suffix, fun i hi => hz.accompanies i (hacc i hi), hz.longest⟩

/-- What a word extends to is followed by the same symbols. -/
lemma Extends.concat_isInfix_iff (h : Extends w p q) (a : α) :
    p ++ [a] <:+: w ↔ q ++ [a] <:+: w := by
  refine ⟨fun hp => ?_, fun hq => (List.suffix_append_self_iff.mpr h.suffix).isInfix.trans hq⟩
  obtain ⟨i, hi⟩ := isInfix_iff.mp hp
  exact (h.accompanies.concat a i hi).isInfix

/-- What a word extends to has the same continuations, however long. -/
lemma Extends.append_iff (h : Extends w p q) (r : List α) :
    Extends w (p ++ r) z ↔ Extends w (q ++ r) z := by
  induction r using List.reverseRecOn generalizing z with
  | nil =>
    rw [List.append_nil, List.append_nil]
    exact ⟨fun hz => h.unique hz ▸ h.longest.extends, fun hz => hz.eq_self h.longest ▸ h⟩
  | append_singleton r a ih =>
    rw [← List.append_assoc, ← List.append_assoc]
    by_cases hfac : p ++ r <:+: w
    · obtain ⟨y, hy⟩ := exists_extends hfac
      rw [hy.concat_iff, (ih.mp hy).concat_iff]
    · have hpre : ∀ x : List α, x ++ r ++ [a] <:+: w → x ++ r <:+: w := fun x hx =>
        (List.prefix_append (x ++ r) [a]).isInfix.trans hx
      refine iff_of_false (fun hz => hfac (hpre p hz.factor)) fun hz => hfac ?_
      exact (suffix_append_right h.suffix r).isInfix.trans (hpre q hz.factor)

/-! ## One more symbol -/

/-- The longest suffix of a word with one more symbol that has occurred before. -/
structure Recurs (w : List α) (c : α) (t : List α) : Prop where
  suffix : t <:+ w ++ [c]
  factor : t <:+: w
  le : ∀ y, y <:+ w ++ [c] → y <:+: w → y <:+ t

lemma isInfix_concat (h : p <:+: w) : p <:+: w ++ [c] := h.trans (List.prefix_append w [c]).isInfix

lemma endsAt_concat_iff :
    EndsAt (w ++ [c]) p i ↔ EndsAt w p i ∨ (i = w.length + 1 ∧ p <:+ w ++ [c]) := by
  by_cases hi : i ≤ w.length
  · have htake : (w ++ [c]).take i = w.take i := List.take_append_of_le_length hi
    unfold EndsAt
    rw [htake, or_iff_left (by omega)]
    exact and_congr_left' (by simp only [List.length_append, List.length_singleton]; omega)
  · rw [or_iff_right fun h => hi h.1]
    unfold EndsAt
    constructor
    · rintro ⟨hle, hs⟩
      rw [List.length_append, List.length_singleton] at hle
      refine ⟨by omega, ?_⟩
      rwa [List.take_of_length_le (by simp only [List.length_append, List.length_singleton]; omega)]
        at hs
    · rintro ⟨rfl, hs⟩
      refine ⟨by simp, ?_⟩
      rwa [List.take_of_length_le (by simp)]

lemma EndsAt.concat (h : EndsAt w p i) : EndsAt (w ++ [c]) p i := endsAt_concat_iff.mpr (Or.inl h)

/-- What accompanies a word behind one more symbol did so before. -/
lemma Accompanies.of_concat (h : Accompanies (w ++ [c]) p q) : Accompanies w p q := by
  intro i hi
  have hle := hi.1
  exact (endsAt_concat_iff.mp (h i hi.concat)).resolve_right fun heq => by omega

/-- What accompanies a word goes on doing so if it is at the end where the word is. -/
lemma Accompanies.concat_iff :
    Accompanies (w ++ [c]) p q ↔ Accompanies w p q ∧ (p <:+ w ++ [c] → q <:+ w ++ [c]) := by
  constructor
  · intro h
    refine ⟨h.of_concat, fun hp => ?_⟩
    have hend := h (w.length + 1) (endsAt_concat_iff.mpr (Or.inr ⟨rfl, hp⟩))
    rcases endsAt_concat_iff.mp hend with hw | hw
    · exact absurd hw.1 (by omega)
    · exact hw.2
  · rintro ⟨h, hlast⟩ i hi
    rcases endsAt_concat_iff.mp hi with hw | ⟨rfl, hp⟩
    · exact (h i hw).concat
    · exact endsAt_concat_iff.mpr (Or.inr ⟨rfl, hlast hp⟩)

lemma ne_concat_of_isInfix (h : p <:+: w) : p ≠ w ++ [c] := by
  rintro rfl
  have hle := h.length_le
  rw [List.length_append, List.length_singleton] at hle
  omega

lemma not_isInfix_concat_self : ¬ w ++ [c] <:+: w := fun h => ne_concat_of_isInfix h rfl

/-- Words that end with a symbol. -/
lemma concat_suffix_concat {a : α} : p ++ [a] <:+ w ++ [c] ↔ p <:+ w ∧ a = c := by
  have hlen : [a].length = [c].length := rfl
  rw [List.suffix_append_inj_of_length_eq hlen, List.singleton_inj]

lemma Recurs.longest (h : Recurs w c t) : Longest (w ++ [c]) t := by
  refine ⟨isInfix_concat h.factor, fun y hs hacc => ?_⟩
  rw [Accompanies.concat_iff] at hacc
  obtain ⟨i, hi⟩ := isInfix_iff.mp h.factor
  exact eq_of_suffix (h.le y (hacc.2 h.suffix) (hacc.1 i hi).isInfix) hs

lemma Longest.concat (h : Longest w x) : Longest (w ++ [c]) x :=
  ⟨isInfix_concat h.factor, fun y hs hacc => h.eq y hs hacc.of_concat⟩

/-- The longest factors behind one more symbol. -/
theorem longest_concat_iff (ht : Recurs w c t) :
    Longest (w ++ [c]) x ↔ Longest w x ∨ x = w ++ [c] ∨ x = t := by
  constructor
  · intro hx
    by_cases hfac : x <:+: w
    · refine or_iff_not_imp_left.mpr fun hnot => Or.inr ?_
      obtain ⟨y, hy⟩ := exists_extends hfac
      have hne : y ≠ x := fun h => hnot (h ▸ hy.longest)
      -- what it extended to is not at the end where it is
      have hend : x <:+ w ++ [c] ∧ ¬ y <:+ w ++ [c] := by
        by_contra hcon
        rw [← Classical.not_imp, not_not] at hcon
        exact hne (hx.eq y hy.suffix (Accompanies.concat_iff.mpr ⟨hy.accompanies, hcon⟩))
      have hxt : x <:+ t := ht.le x hend.1 hfac
      obtain ⟨i, hi⟩ := isInfix_iff.mp ht.factor
      have hty : t <:+ y := by
        rcases EndsAt.suffix_or hi (hy.accompanies i (hi.of_suffix hxt)) with h | h
        · exact h
        · exact absurd (h.trans ht.suffix) hend.2
      refine (hx.eq t hxt (Accompanies.concat_iff.mpr ⟨fun j hj => ?_, fun _ => ht.suffix⟩)).symm
      exact (hy.accompanies j hj).of_suffix hty
    · -- a factor that is new ends at the last position only
      have hends : ∀ i, EndsAt (w ++ [c]) x i → i = w.length + 1 ∧ x <:+ w ++ [c] := fun i hi =>
        (endsAt_concat_iff.mp hi).resolve_left fun h => hfac h.isInfix
      obtain ⟨i, hi⟩ := isInfix_iff.mp hx.factor
      refine Or.inr (Or.inl (hx.eq _ (hends i hi).2 fun j hj => ?_).symm)
      obtain ⟨rfl, -⟩ := hends j hj
      exact endsAt_concat_iff.mpr (Or.inr ⟨rfl, List.suffix_rfl⟩)
  · rintro (hx | rfl | rfl)
    · exact hx.concat
    · exact longest_self
    · exact ht.longest

/-- A factor that is new extends to the whole word. -/
lemma extends_of_new (hs : p <:+ w ++ [c]) (hnew : ¬ p <:+: w) : Extends (w ++ [c]) p (w ++ [c]) := by
  refine ⟨hs, fun i hi => ?_, longest_self⟩
  obtain ⟨rfl, -⟩ := (endsAt_concat_iff.mp hi).resolve_left fun h => hnew h.isInfix
  exact endsAt_concat_iff.mpr (Or.inr ⟨rfl, List.suffix_rfl⟩)

/-- A factor that recurs within a longer one extends no further than what recurs. -/
lemma Extends.concat_of_split (h : Extends w p q) (ht : Recurs w c t) (hpt : p <:+ t)
    (htq : t <:+ q) : Extends (w ++ [c]) p t :=
  ⟨hpt, Accompanies.concat_iff.mpr ⟨fun i hi => (h.accompanies i hi).of_suffix htq, fun _ => ht.suffix⟩,
    ht.longest⟩

/-- Every other factor extends to what it did. -/
lemma Extends.concat_of_not_split (h : Extends w p q) (ht : Recurs w c t)
    (hnot : p <:+ t → ¬ t <:+ q) : Extends (w ++ [c]) p q := by
  refine ⟨h.suffix, Accompanies.concat_iff.mpr ⟨h.accompanies, fun hp => ?_⟩, h.longest.concat⟩
  have hpt : p <:+ t := ht.le p hp h.factor
  obtain ⟨i, hi⟩ := isInfix_iff.mp ht.factor
  rcases EndsAt.suffix_or hi (h.accompanies i (hi.of_suffix hpt)) with h' | h'
  · exact absurd h' (hnot hpt)
  · exact h'.trans ht.suffix

/-- Where what recurs was a longest factor already, every factor extends to what it did. -/
lemma Extends.concat_of_longest (h : Extends w p q) (ht : Recurs w c t) (hl : Longest w t) :
    Extends (w ++ [c]) p q := by
  by_cases hsplit : p <:+ t ∧ t <:+ q
  · have heq : q = t := eq_of_suffix (h.suffix_of_longest hl hsplit.1) hsplit.2
    rw [heq]
    exact h.concat_of_split ht hsplit.1 hsplit.2
  · exact h.concat_of_not_split ht fun hpt htq => hsplit ⟨hpt, htq⟩

/-! ## What recurs -/

/-- Nothing recurs that ends with a symbol that is new. -/
lemma recurs_nil (hnew : ¬ [c] <:+: w) : Recurs w c [] := by
  refine ⟨List.nil_suffix, List.nil_infix, fun y hs hy => ?_⟩
  rcases List.suffix_concat_iff.mp hs with rfl | ⟨y', rfl, -⟩
  · exact List.suffix_rfl
  · exact absurd ((List.suffix_append y' [c]).isInfix.trans hy) hnew

/-- What recurs is the longest suffix among the longest factors that the symbol has followed, with the
symbol. -/
lemma recurs_concat (hs : p <:+ w) (hfac : p ++ [c] <:+: w)
    (hle : ∀ x, Longest w x → x <:+ w → x ++ [c] <:+: w → x <:+ p) : Recurs w c (p ++ [c]) := by
  refine ⟨List.suffix_append_self_iff.mpr hs, hfac, fun y hy hyw => ?_⟩
  rcases List.suffix_concat_iff.mp hy with rfl | ⟨y', rfl, hy'⟩
  · exact List.nil_suffix
  · obtain ⟨x, hx⟩ := exists_extends hy'.isInfix
    have hxw : x <:+ w := endsAt_length.mp (hx.accompanies _ (endsAt_length.mpr hy'))
    obtain ⟨i, hi, hc⟩ := concat_isInfix_iff.mp hyw
    have hxc : x ++ [c] <:+: w := concat_isInfix_iff.mpr ⟨i, hx.accompanies i hi, hc⟩
    exact List.suffix_append_self_iff.mpr (hx.suffix.trans (hle x hx.longest hxw hxc))

/-! ## Links -/

/-- The whole word is linked to what recurs. -/
lemma Recurs.isLink (h : Recurs w c t) : IsLink (w ++ [c]) (w ++ [c]) t := by
  refine ⟨h.longest, h.suffix, ne_concat_of_isInfix h.factor, fun z hz hs hne => ?_⟩
  rcases (longest_concat_iff h).mp hz with hz | rfl | rfl
  · exact h.le z hs hz.factor
  · exact absurd rfl hne
  · exact List.suffix_rfl

/-- Every word but the empty one has a link. -/
lemma exists_isLink (hne : x ≠ []) : ∃ y, IsLink w x y := by
  classical
  let P : ℕ → Prop := fun k => Longest w (x.drop (x.length - k))
  have hpos : 0 < x.length := List.length_pos_iff.mpr hne
  have hzero : P 0 := by
    change Longest w (x.drop (x.length - 0))
    rw [Nat.sub_zero, List.drop_length]
    exact longest_nil
  have hgreatest : P (Nat.findGreatest P (x.length - 1)) :=
    Nat.findGreatest_spec (Nat.zero_le _) hzero
  have hle := Nat.findGreatest_le (P := P) (x.length - 1)
  refine ⟨_, hgreatest, List.drop_suffix _ _, fun heq => ?_, fun z hz hs hzx => ?_⟩
  · have hlen := congrArg List.length heq
    rw [List.length_drop] at hlen
    omega
  · have hlt : z.length < x.length :=
      lt_of_le_of_ne hs.length_le fun h => hzx (hs.eq_of_length h)
    have hP : P z.length := by
      change Longest w (x.drop (x.length - z.length))
      rwa [← List.suffix_iff_eq_drop.mp hs]
    have hzle : z.length ≤ Nat.findGreatest P (x.length - 1) :=
      Nat.le_findGreatest (by omega) hP
    refine List.suffix_of_suffix_length_le hs (List.drop_suffix _ _) ?_
    rw [List.length_drop]
    omega

lemma not_isLink_nil : ¬ IsLink w [] y := fun h => h.ne (List.suffix_nil.mp h.suffix)

lemma IsLink.unique (h : IsLink w x y) (h' : IsLink w x z) : y = z :=
  eq_of_suffix (h'.le y h.longest h.suffix h.ne) (h.le z h'.longest h'.suffix h'.ne)

lemma IsLink.length_lt (h : IsLink w x y) : y.length < x.length :=
  lt_of_le_of_ne h.suffix.length_le fun heq => h.ne (h.suffix.eq_of_length heq)

/-- A link stays unless what recurs comes in between. -/
lemma IsLink.concat (h : IsLink w x y) (ht : Recurs w c t) (hx : Longest w x)
    (hbetween : t <:+ x → t ≠ x → t <:+ y) : IsLink (w ++ [c]) x y := by
  refine ⟨h.longest.concat, h.suffix, h.ne, fun z hz hs hne => ?_⟩
  rcases (longest_concat_iff ht).mp hz with hz | rfl | rfl
  · exact h.le z hz hs hne
  · exact absurd rfl (ne_concat_of_isInfix (hs.isInfix.trans hx.factor))
  · exact hbetween hs hne

/-- Where what recurs was a longest factor already, the links stay. -/
lemma IsLink.concat_of_longest (h : IsLink w x y) (ht : Recurs w c t) (hl : Longest w t)
    (hx : Longest w x) : IsLink (w ++ [c]) x y :=
  h.concat ht hx fun hs hne => h.le t hl hs hne

/-- What recurs comes in between what it extends to and the link of that. -/
lemma Extends.isLink_split (h : Extends w t q) (ht : Recurs w c t) (hne : t ≠ q) :
    IsLink (w ++ [c]) q t := by
  refine ⟨ht.longest, h.suffix, hne, fun z hz hs hzq => ?_⟩
  rcases (longest_concat_iff ht).mp hz with hz | rfl | rfl
  · rcases List.suffix_or_suffix_of_suffix h.suffix hs with htz | hzt
    · exact absurd (eq_of_suffix hs (h.suffix_of_longest hz htz)) hzq
    · exact hzt
  · exact absurd rfl (ne_concat_of_isInfix (hs.isInfix.trans h.longest.factor))
  · exact List.suffix_rfl

/-- What recurs is linked to where what it extends to was. -/
lemma IsLink.split (h : IsLink w q y) (hext : Extends w t q) (ht : Recurs w c t) (hne : t ≠ q) :
    IsLink (w ++ [c]) t y := by
  have hnot : ¬ t <:+ y := fun hty =>
    h.ne (eq_of_suffix h.suffix (hext.suffix_of_longest h.longest hty))
  have hyt : y <:+ t := (List.suffix_or_suffix_of_suffix hext.suffix h.suffix).resolve_left hnot
  refine ⟨h.longest.concat, hyt, fun heq => hnot (heq ▸ List.suffix_rfl), fun z hz hs hzt => ?_⟩
  rcases (longest_concat_iff ht).mp hz with hz | rfl | rfl
  · refine h.le z hz (hs.trans hext.suffix) fun hzq => ?_
    exact hne (eq_of_suffix hext.suffix (hzq ▸ hs))
  · exact absurd rfl (ne_concat_of_isInfix (hs.isInfix.trans ht.factor))
  · exact absurd rfl hzt

/-- What recurs is nowhere else in between. -/
lemma IsLink.concat_of_ne (h : IsLink w x y) (hext : Extends w t q) (ht : Recurs w c t)
    (hx : Longest w x) (hne : x ≠ q) : IsLink (w ++ [c]) x y :=
  h.concat ht hx fun htx _ =>
    hext.suffix.trans (h.le q hext.longest (hext.suffix_of_longest hx htx) (Ne.symm hne))

end ChittaField.Factors
