import Mathlib.Data.List.DropRight
import Mathlib.Data.Set.Finite.Lemmas
import ChittaField.Lib.Lists

/-!
# Writes in any order

Two things that are kept along a list of timed writes.  A window keeps the largest of the values it
has been given (`foldl_window`), and what it keeps does not depend on their order.  A register takes
the value of a write that is not older than the last one; a write may also come without a value, and
one behind the fence is not taken.  What the register has in the end depends on the order only where
the latest writes leave it open (`perm_foldl_write_iff`).
-/

namespace ChittaField.Latest

/-! ## Windows -/

section Windows

variable {α : Type*} [LinearOrder α]

/-- The largest values of a list, sorted. -/
def largest (k : ℕ) (l : List α) : List α := (l.insertionSort (· ≤ ·)).rtake k

/-- What a window keeps behind one more value. -/
def window (k : ℕ) (l : List α) (a : α) : List α := largest k (l ++ [a])

variable {k : ℕ} {l l' : List α}

lemma largest_perm (h : l.Perm l') : largest k l = largest k l' := by
  rw [largest, largest, Lists.insertionSort_perm h]

omit [LinearOrder α] in
/-- A value in front of enough others is not among the last. -/
lemma rtake_cons {a : α} (h : k ≤ l.length) : (a :: l).rtake k = l.rtake k := by
  unfold List.rtake
  have hsub : (a :: l).length - k = (l.length - k) + 1 := by
    rw [List.length_cons]
    omega
  rw [hsub, List.drop_succ_cons]

/-- The smallest value does not matter where there are enough others. -/
lemma rtake_orderedInsert_cons {a b : α} (hsorted : (b :: l).SortedLE) (hk : k ≤ l.length) :
    ((b :: l).orderedInsert (· ≤ ·) a).rtake k = (l.orderedInsert (· ≤ ·) a).rtake k := by
  by_cases hab : a ≤ b
  · have hall : ∀ c ∈ l, a ≤ c := fun c hc =>
      hab.trans ((List.pairwise_cons.mp hsorted.pairwise).1 c hc)
    have hfront : l.orderedInsert (· ≤ ·) a = a :: l := by
      cases l with
      | nil => rfl
      | cons c l => rw [List.orderedInsert, if_pos (hall c List.mem_cons_self)]
    rw [List.orderedInsert, if_pos hab, hfront, rtake_cons hk,
      rtake_cons (hk.trans (Nat.le_succ _)), rtake_cons hk]
  · rw [List.orderedInsert, if_neg hab, rtake_cons]
    rw [List.orderedInsert_length]
    omega

/-- Values that are not among the last do not matter. -/
lemma rtake_orderedInsert_rtake {a : α} (hsorted : l.SortedLE) :
    ((l.rtake k).orderedInsert (· ≤ ·) a).rtake k = (l.orderedInsert (· ≤ ·) a).rtake k := by
  induction l with
  | nil => rw [List.rtake_nil]
  | cons b l ih =>
    by_cases hk : k ≤ l.length
    · have htail : l.SortedLE := (List.pairwise_cons.mp hsorted.pairwise).2.sortedLE
      rw [rtake_cons hk, ih htail, rtake_orderedInsert_cons hsorted hk]
    · have hall : (b :: l).rtake k = b :: l := by
        unfold List.rtake
        rw [List.length_cons, Nat.sub_eq_zero_of_le (by omega), List.drop_zero]
      rw [hall]

lemma insertionSort_concat (l : List α) (a : α) : (l ++ [a]).insertionSort (· ≤ ·) =
    (l.insertionSort (· ≤ ·)).orderedInsert (· ≤ ·) a := by
  have hswap : (l ++ [a]).Perm ([a] ++ l) := List.perm_append_comm
  rw [Lists.insertionSort_perm hswap]
  rfl

/-- What a window has dropped does not come back. -/
lemma largest_largest_concat (k : ℕ) (l : List α) (a : α) :
    largest k (largest k l ++ [a]) = largest k (l ++ [a]) := by
  have hsorted : (l.insertionSort (· ≤ ·)).SortedLE := List.sortedLE_insertionSort
  have hdrop : ((l.insertionSort (· ≤ ·)).rtake k).SortedLE :=
    (hsorted.pairwise.sublist (List.drop_sublist ..)).sortedLE
  unfold largest
  rw [insertionSort_concat, insertionSort_concat, hdrop.pairwise.insertionSort_eq,
    rtake_orderedInsert_rtake hsorted]

/-- A window that has been given a value has the largest of all that there were. -/
lemma foldl_window (k : ℕ) (l : List α) {as : List α} (h : as ≠ []) :
    as.foldl (window k) l = largest k (l ++ as) := by
  induction as using List.reverseRecOn with
  | nil => exact absurd rfl h
  | append_singleton as a ih =>
    rw [List.foldl_concat, ← List.append_assoc]
    by_cases hnil : as = []
    · rw [hnil, List.append_nil]
      rfl
    · rw [ih hnil]
      exact largest_largest_concat ..

/-- A list is its largest values iff it is sorted and not longer. -/
lemma largest_eq_self_iff : largest k l = l ↔ l.SortedLE ∧ l.length ≤ k := by
  refine ⟨fun h => ⟨?_, ?_⟩, fun ⟨hsorted, hlen⟩ => ?_⟩
  · rw [← h]
    exact (List.sortedLE_insertionSort.pairwise.sublist (List.drop_sublist ..)).sortedLE
  · have hlen := congrArg List.length h
    unfold largest List.rtake at hlen
    rw [List.length_drop, List.length_insertionSort] at hlen
    omega
  · unfold largest List.rtake
    rw [hsorted.pairwise.insertionSort_eq, Nat.sub_eq_zero_of_le hlen, List.drop_zero]

end Windows

/-! ## Registers -/

section Registers

variable {τ V : Type*} [LinearOrder τ]

/-- A register takes a write that is older neither than the last one nor than the fence. -/
def write (fence : τ) (reg : τ × V) (w : τ × Option V) : τ × V :=
  (max reg.1 w.1, if reg.1 ≤ w.1 ∧ fence ≤ w.1 then w.2.getD reg.2 else reg.2)

/-- A write that the register would take. -/
def Fresh (fence : τ) (reg : τ × V) (w : τ × Option V) : Prop := reg.1 ≤ w.1 ∧ fence ≤ w.1

/-- A write of the latest time that the register would take. -/
def Newest (fence : τ) (reg : τ × V) (ws : List (τ × Option V)) (w : τ × Option V) : Prop :=
  Fresh fence reg w ∧ ∀ w' ∈ ws, Fresh fence reg w' → w'.1 ≤ w.1

/-- The latest writes agree, and if none of them has a value, no write has another value than the
register. -/
structure Settled (fence : τ) (reg : τ × V) (ws : List (τ × Option V)) : Prop where
  agree : ∀ w ∈ ws, ∀ w' ∈ ws, Newest fence reg ws w → Newest fence reg ws w' →
    ∀ v ∈ w.2, ∀ v' ∈ w'.2, v = v'
  silent : (∀ w ∈ ws, Newest fence reg ws w → w.2 = none) →
    ∀ w ∈ ws, Fresh fence reg w → ∀ v ∈ w.2, v = reg.2

variable {fence : τ} {reg : τ × V} {ws ws' : List (τ × Option V)} {w : τ × Option V} {v : V}

/-- The time of a register. -/
lemma fst_foldl_write (fence : τ) (reg : τ × V) (ws : List (τ × Option V)) :
    (ws.foldl (write fence) reg).1 = (ws.map Prod.fst).foldl max reg.1 := by
  induction ws generalizing reg with
  | nil => rfl
  | cons w ws ih =>
    rw [List.foldl_cons, ih]
    rfl

lemma le_fst_foldl_write : reg.1 ≤ (ws.foldl (write fence) reg).1 :=
  List.foldlRecOn (motive := fun r : τ × V => reg.1 ≤ r.1) ws _ le_rfl
    fun r h w _ => h.trans (le_max_left r.1 w.1)

lemma le_fst_foldl_write_of_mem (h : w ∈ ws) : w.1 ≤ (ws.foldl (write fence) reg).1 := by
  induction ws generalizing reg with
  | nil => cases h
  | cons x ws ih =>
    rcases List.mem_cons.mp h with rfl | h
    · have hrest : (write fence reg w).1 ≤ (ws.foldl (write fence) (write fence reg w)).1 :=
        le_fst_foldl_write
      exact (le_max_right reg.1 w.1).trans hrest
    · exact ih h

/-- The register has its first value, or that of a write that it would take. -/
lemma snd_foldl_write (fence : τ) (reg : τ × V) (ws : List (τ × Option V)) :
    (ws.foldl (write fence) reg).2 = reg.2 ∨
      ∃ w ∈ ws, Fresh fence reg w ∧ (ws.foldl (write fence) reg).2 ∈ w.2 := by
  induction ws generalizing reg with
  | nil => exact .inl rfl
  | cons w ws ih =>
    rw [List.foldl_cons]
    rcases ih (write fence reg w) with hfirst | ⟨w', hw', hfresh, hvalue⟩
    · rw [hfirst]
      by_cases hfresh : Fresh fence reg w
      · cases hv : w.2 with
        | none =>
          refine .inl ?_
          simp [write, hv]
        | some v =>
          refine .inr ⟨w, List.mem_cons_self, hfresh, ?_⟩
          rw [hv]
          have htaken : (write fence reg w).2 = w.2.getD reg.2 := if_pos hfresh
          rw [htaken, hv]
          rfl
      · exact .inl (if_neg hfresh)
    · exact .inr ⟨w', List.mem_cons_of_mem _ hw', ⟨(le_max_left ..).trans hfresh.1, hfresh.2⟩, hvalue⟩

/-- A register that would take no value keeps its own. -/
lemma snd_foldl_write_of_silent (h : ∀ w ∈ ws, Fresh fence reg w → w.2 = none) :
    (ws.foldl (write fence) reg).2 = reg.2 := by
  rcases snd_foldl_write fence reg ws with heq | ⟨w, hw, hfresh, hvalue⟩
  · exact heq
  · rw [h w hw hfresh] at hvalue
    exact absurd hvalue (Option.not_mem_none _)

/-- The time of a register is that of a write, or its first one. -/
lemma fst_foldl_write_le {t : τ} (hreg : reg.1 ≤ t) (hws : ∀ w ∈ ws, w.1 ≤ t) :
    (ws.foldl (write fence) reg).1 ≤ t :=
  List.foldlRecOn (motive := fun r : τ × V => r.1 ≤ t) ws _ hreg fun _ h w hw => max_le h (hws w hw)

/-- The time of the register is not behind a write of the latest time. -/
lemma Newest.fst_le (h : Newest fence reg ws w) : (ws.foldl (write fence) reg).1 ≤ w.1 := by
  refine fst_foldl_write_le h.1.1 fun w' hw' => ?_
  by_cases hfresh : Fresh fence reg w'
  · exact h.2 w' hw' hfresh
  · rcases not_and_or.mp hfresh with hold | hfenced
    · exact (not_le.mp hold).le.trans h.1.1
    · exact (not_le.mp hfenced).le.trans h.1.2

/-- A write of the latest time that comes last is taken. -/
lemma snd_foldl_write_concat (h : Newest fence reg (ws ++ [w]) w) (hv : w.2 = some v) :
    ((ws ++ [w]).foldl (write fence) reg).2 = v := by
  have hnewest : Newest fence reg ws w :=
    ⟨h.1, (List.forall_mem_append.mp h.2).1⟩
  have htaken : (write fence (ws.foldl (write fence) reg) w).2 =
      w.2.getD (ws.foldl (write fence) reg).2 := if_pos ⟨hnewest.fst_le, h.1.2⟩
  rw [List.foldl_concat, htaken, hv, Option.getD_some]

/-- Where some of the latest writes have values, the register has one of these. -/
lemma exists_newest_value (hw : w ∈ ws) (h : Newest fence reg ws w) (hv : w.2 ≠ none) :
    ∃ w' ∈ ws, Newest fence reg ws w' ∧ (ws.foldl (write fence) reg).2 ∈ w'.2 := by
  induction ws using List.reverseRecOn with
  | nil => cases hw
  | append_singleton ws x ih =>
    by_cases hx : Newest fence reg (ws ++ [x]) x ∧ x.2 ≠ none
    · obtain ⟨v, hxv⟩ := Option.ne_none_iff_exists'.mp hx.2
      refine ⟨x, List.mem_concat_self, hx.1, ?_⟩
      rw [snd_foldl_write_concat hx.1 hxv]
      exact hxv
    · have hne : w ≠ x := by
        rintro rfl
        exact hx ⟨h, hv⟩
      have hmem : w ∈ ws := (List.mem_append.mp hw).resolve_right fun hlast =>
        hne (List.mem_singleton.mp hlast)
      have hold : Newest fence reg ws w :=
        ⟨h.1, (List.forall_mem_append.mp h.2).1⟩
      obtain ⟨w', hw', hnewest, hvalue⟩ := ih hmem hold
      have hsame : w'.1 = w.1 :=
        le_antisymm (hold.2 w' hw' hnewest.1) (hnewest.2 w hmem hold.1)
      refine ⟨w', List.mem_append_left _ hw', ⟨hnewest.1, fun y hy hfresh => ?_⟩, ?_⟩
      · rw [hsame]
        exact h.2 y hy hfresh
      · -- the last write is not one of the latest, or has no value
        have hkept : ((ws ++ [x]).foldl (write fence) reg).2 = (ws.foldl (write fence) reg).2 := by
          rw [List.foldl_concat]
          by_cases htaken : (ws.foldl (write fence) reg).1 ≤ x.1 ∧ fence ≤ x.1
          · have hlate : w.1 ≤ x.1 := (le_fst_foldl_write_of_mem hmem).trans htaken.1
            have hnew : Newest fence reg (ws ++ [x]) x :=
              ⟨⟨h.1.1.trans hlate, htaken.2⟩, fun y hy hfresh => (h.2 y hy hfresh).trans hlate⟩
            have hnone : x.2 = none := not_not.mp fun hsome => hx ⟨hnew, hsome⟩
            refine (if_pos htaken).trans ?_
            rw [hnone]
            rfl
          · exact if_neg htaken
        rwa [hkept]

lemma Newest.perm (h : Newest fence reg ws w) (hperm : ws'.Perm ws) : Newest fence reg ws' w :=
  ⟨h.1, fun w' hw' => h.2 w' (hperm.mem_iff.mp hw')⟩

omit [LinearOrder τ] in
lemma exists_perm_cons (h : w ∈ ws) : ∃ rest, (w :: rest).Perm ws := by
  obtain ⟨front, back, rfl⟩ := List.append_of_mem h
  exact ⟨front ++ back, List.perm_middle.symm⟩

omit [LinearOrder τ] in
lemma exists_perm_concat (h : w ∈ ws) : ∃ rest, (rest ++ [w]).Perm ws := by
  obtain ⟨rest, hrest⟩ := exists_perm_cons h
  exact ⟨rest, (List.perm_append_singleton w rest).trans hrest⟩

/-- Where there are writes to take, some are of the latest time. -/
lemma exists_newest (hw : w ∈ ws) (hfresh : Fresh fence reg w) : ∃ n ∈ ws, Newest fence reg ws n := by
  have hfinite : {x | x ∈ ws ∧ Fresh fence reg x}.Finite :=
    (List.finite_toSet ws).subset fun x hx => hx.1
  obtain ⟨n, hn, hmax⟩ := Set.exists_max_image _ Prod.fst hfinite ⟨w, hw, hfresh⟩
  exact ⟨n, hn.1, hn.2, fun x hx hxfresh => hmax x ⟨hx, hxfresh⟩⟩

/-- If no order matters, the writes settle the register. -/
lemma settled_of_perm (h : ∀ ws' : List (τ × Option V), ws'.Perm ws →
    (ws'.foldl (write fence) reg).2 = (ws.foldl (write fence) reg).2) : Settled fence reg ws := by
  constructor
  · intro w hw w' hw' hnew hnew' v hv v' hv'
    have hlast : ∀ {x : τ × Option V} {u : V}, x ∈ ws → Newest fence reg ws x → u ∈ x.2 →
        (ws.foldl (write fence) reg).2 = u := by
      intro x u hx hxnew hu
      obtain ⟨rest, hrest⟩ := exists_perm_concat hx
      rw [← h _ hrest]
      exact snd_foldl_write_concat (hxnew.perm hrest) hu
    exact (hlast hw hnew hv).symm.trans (hlast hw' hnew' hv')
  · intro hsilent w hw hfresh v hv
    obtain ⟨n, hn, hnew⟩ := exists_newest hw hfresh
    have hnone : n.2 = none := hsilent n hn hnew
    obtain ⟨ws₁, hfront⟩ := exists_perm_cons hw
    have hn₁ : n ∈ ws₁ := by
      refine (List.mem_cons.mp (hfront.mem_iff.mpr hn)).resolve_left ?_
      rintro rfl
      rw [hnone] at hv
      exact Option.not_mem_none _ hv
    obtain ⟨rest, hrest⟩ := exists_perm_cons hn₁
    have horder : (w :: n :: rest).Perm ws := (hrest.cons w).trans hfront
    -- behind the latest time nothing is taken that has a value
    have hbehind : ∀ (reg' : τ × V) (l : List (τ × Option V)), n.1 ≤ reg'.1 → (∀ x ∈ l, x ∈ ws) →
        (l.foldl (write fence) reg').2 = reg'.2 := by
      intro reg' l htime hl
      refine snd_foldl_write_of_silent fun x hx hxfresh => hsilent x (hl x hx) ?_
      have hlate : n.1 ≤ x.1 := htime.trans hxfresh.1
      exact ⟨⟨hnew.1.1.trans hlate, hnew.1.2.trans hlate⟩,
        fun y hy hyfresh => (hnew.2 y hy hyfresh).trans hlate⟩
    have hskip : ∀ reg' : τ × V, (write fence reg' n).2 = reg'.2 := by
      intro reg'
      unfold write
      rw [hnone]
      simp
    have htaken : (write fence reg w).2 = v := by
      refine (if_pos hfresh).trans ?_
      rw [hv]
      rfl
    have hmem : ∀ x ∈ w :: rest, x ∈ ws := List.forall_mem_cons.mpr ⟨hw, fun x hx =>
      horder.mem_iff.mp (List.mem_cons_of_mem _ (List.mem_cons_of_mem _ hx))⟩
    -- with the latest write in front the register keeps its value, with the other one it has that
    have hfirst : ((n :: w :: rest).foldl (write fence) reg).2 = reg.2 :=
      (hbehind (write fence reg n) (w :: rest) (le_max_right ..) hmem).trans (hskip reg)
    have hsecond : ((w :: n :: rest).foldl (write fence) reg).2 = v := by
      refine (hbehind (write fence (write fence reg w) n) rest (le_max_right ..) ?_).trans
        ((hskip _).trans htaken)
      exact (List.forall_mem_cons.mp hmem).2
    rw [← hsecond, h _ horder, ← h _ ((List.Perm.swap ..).trans horder), hfirst]

/-- What settles the register does so in every order. -/
lemma Settled.perm (h : Settled fence reg ws) (hperm : ws'.Perm ws) :
    (ws'.foldl (write fence) reg).2 = (ws.foldl (write fence) reg).2 := by
  by_cases hrated : ∃ w ∈ ws, Newest fence reg ws w ∧ w.2 ≠ none
  · obtain ⟨w, hw, hnew, hv⟩ := hrated
    obtain ⟨x, hx, hxnew, hxv⟩ := exists_newest_value hw hnew hv
    obtain ⟨y, hy, hynew, hyv⟩ := exists_newest_value (hperm.mem_iff.mpr hw) (hnew.perm hperm) hv
    exact h.agree y (hperm.mem_iff.mp hy) x hx (hynew.perm hperm.symm) hxnew _ hyv _ hxv
  · have hsilent : ∀ w ∈ ws, Newest fence reg ws w → w.2 = none := fun w hw hnew =>
      not_not.mp fun hv => hrated ⟨w, hw, hnew, hv⟩
    have hkept : ∀ l : List (τ × Option V), l.Perm ws → (l.foldl (write fence) reg).2 = reg.2 := by
      intro l hl
      rcases snd_foldl_write fence reg l with heq | ⟨w, hw, hfresh, hv⟩
      · exact heq
      · exact h.silent hsilent w (hl.mem_iff.mp hw) hfresh _ hv
    rw [hkept ws' hperm, hkept ws (List.Perm.refl ws)]

/-- What the register has in the end is the same in every order iff the writes settle it. -/
theorem perm_foldl_write_iff : (∀ ws' : List (τ × Option V), ws'.Perm ws →
    (ws'.foldl (write fence) reg).2 = (ws.foldl (write fence) reg).2) ↔ Settled fence reg ws :=
  ⟨settled_of_perm, fun h _ hperm => h.perm hperm⟩

end Registers

end ChittaField.Latest
