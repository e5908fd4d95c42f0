import ChittaField.Memory.State
import ChittaField.Organs.CdawgExact

/-!
# What follows a context

The prediction walks the context from its start and stops where a symbol leads nowhere; what it gives
are the symbols that lead on from there.  So it backs off to a prefix of the context, not to the suffix
that was seen last.  `ppm_predict_iff` says for which contexts the two have the same symbols.
-/

namespace ChittaField

variable {F : Type}

/-- An order in which a hash map is iterated. -/
structure HashOrder where
  iter : (Finmap fun _ : ℕ => ℕ) → List (Σ _ : ℕ, ℕ)
  coe_iter : ∀ m, (iter m : Multiset (Σ _ : ℕ, ℕ)) = m.entries

lemma HashOrder.mem_iter (order : HashOrder) (m : Finmap fun _ : ℕ => ℕ) (sym target : ℕ) :
    ⟨sym, target⟩ ∈ order.iter m ↔ m.lookup sym = some target := by
  rw [← Multiset.mem_coe, order.coe_iter, Finmap.mem_lookup_iff.symm]
  rfl

namespace CdawgOrgan

/-- Walk as far as the symbols lead. -/
def walkAsFar (o : CdawgOrgan F) : ℕ → List ℕ → ℕ
  | state, [] => state
  | state, sym :: context =>
    match o.next state sym with
    | some next => o.walkAsFar next context
    | none => state

/-- The symbols that lead on from where a context leads, each as likely as the others. -/
def ppmPredict [F32 F] (o : CdawgOrgan F) (order : HashOrder) (context : List ℕ) : List (ℕ × F) :=
  match o.states[o.walkAsFar 0 context]? with
  | none => []
  | some st =>
    if st.transitions = ∅ then []
    else
      let total := F32.lit (st.transitions.keys.card : ℚ)
      (order.iter st.transitions).map fun e => (e.1, F32.div (F32.lit 1) total)

open Factors

variable {turn : ℕ → ℕ} {name : ℕ → List ℕ} {w x : List ℕ} {o : CdawgOrgan F}

/-! ## Contexts -/

/-- Something follows a pattern. -/
def Follows (s p : List ℕ) : Prop := ∃ c, p ++ [c] <:+: s

/-- The longest suffix of a context that something follows. -/
structure BacksOff (s context p : List ℕ) : Prop where
  suffix : p <:+ context
  follows : Follows s p
  longest : ∀ q, q <:+ context → Follows s q → q <:+ p

/-- The longest prefix of a context that occurs. -/
structure ReadsTo (s context p : List ℕ) : Prop where
  start : p <+: context
  factor : p <:+: s
  longest : ∀ q, q <+: context → q <:+: s → q <+: p

/-- The context is followed, or nothing was fed, or the context does not occur and the same symbols
follow its longest prefix that does as its longest suffix that something follows. -/
def KeepsContext (s context : List ℕ) : Prop :=
  Follows s context ∨ s = [] ∨ (¬ context <:+: s ∧ ∀ p q, ReadsTo s context p →
    BacksOff s context q → ∀ c, p ++ [c] <:+: s ↔ q ++ [c] <:+: s)

lemma Follows.isInfix {s p : List ℕ} (h : Follows s p) : p <:+: s := by
  obtain ⟨c, hc⟩ := h
  exact (List.prefix_append p [c]).isInfix.trans hc

lemma Follows.backsOff {s context : List ℕ} (h : Follows s context) : BacksOff s context context :=
  ⟨List.suffix_rfl, h, fun _ hq _ => hq⟩

lemma BacksOff.unique {s context p q : List ℕ} (hp : BacksOff s context p)
    (hq : BacksOff s context q) : p = q :=
  eq_of_suffix (hq.longest p hp.suffix hp.follows) (hp.longest q hq.suffix hq.follows)

lemma ReadsTo.eq_self {s context p : List ℕ} (h : ReadsTo s context p) (hc : context <:+: s) :
    p = context :=
  h.start.eq_of_length_le (h.longest context List.prefix_rfl hc).length_le

lemma ReadsTo.unique {s context p q : List ℕ} (hp : ReadsTo s context p) (hq : ReadsTo s context q) :
    p = q :=
  (hq.longest p hp.start hp.factor).eq_of_length_le (hp.longest q hq.start hq.factor).length_le

/-- Where something was fed, something follows the empty pattern; so every context has a longest
suffix that something follows. -/
lemma exists_backsOff {s : List ℕ} (hs : s ≠ []) (context : List ℕ) :
    ∃ p, BacksOff s context p := by
  induction context with
  | nil =>
    obtain ⟨c, s', rfl⟩ := List.exists_cons_of_ne_nil hs
    exact ⟨[], Follows.backsOff ⟨c, (List.prefix_append [c] s').isInfix⟩⟩
  | cons a context ih =>
    by_cases hf : Follows s (a :: context)
    · exact ⟨a :: context, hf.backsOff⟩
    · obtain ⟨p, hp⟩ := ih
      refine ⟨p, hp.suffix.trans (List.suffix_cons a context), hp.follows, fun q hq hqf => ?_⟩
      rcases List.suffix_cons_iff.mp hq with rfl | hq
      · exact absurd hqf hf
      · exact hp.longest q hq hqf

/-! ## What is predicted -/

/-- The walk reads the longest prefix that goes on what it comes from. -/
lemma Exact.walkAsFar (h : Exact turn w name o.states) {v : ℕ} (hv : v < o.states.length)
    (hx : Extends w x (name v)) (context : List ℕ) :
    ∃ p, p <+: context ∧ o.walkAsFar v context < o.states.length ∧
      Extends w (x ++ p) (name (o.walkAsFar v context)) ∧
      ∀ q, q <+: context → x ++ q <:+: w → q <+: p := by
  induction context generalizing v x with
  | nil =>
    exact ⟨[], List.prefix_rfl, hv, by rwa [List.append_nil], fun q hq _ => hq⟩
  | cons c context ih =>
    rw [CdawgOrgan.walkAsFar]
    cases hnext : o.next v c with
    | none =>
      refine ⟨[], List.nil_prefix, hv, by rwa [List.append_nil], fun q hq hfac => ?_⟩
      rcases List.prefix_cons_iff.mp hq with rfl | ⟨q', rfl, -⟩
      · exact List.prefix_rfl
      · -- the first symbol does not follow
        have hst := List.getElem?_eq_getElem hv
        rw [CdawgOrgan.next, hst, Option.bind_some, h.lookup_eq_none_iff hst,
          ← hx.concat_isInfix_iff] at hnext
        rw [List.append_cons] at hfac
        exact absurd ((List.prefix_append (x ++ [c]) q').isInfix.trans hfac) hnext
    | some u =>
      obtain ⟨hu, hext⟩ := (h.next_eq_some_iff hv c u).mp hnext
      obtain ⟨p, hp, hlt, hpext, hlongest⟩ := ih hu (hx.concat_iff.mpr hext)
      refine ⟨c :: p, List.cons_prefix_cons.mpr ⟨rfl, hp⟩, hlt, by rwa [List.append_cons],
        fun q hq hfac => ?_⟩
      rcases List.prefix_cons_iff.mp hq with rfl | ⟨q', rfl, hq'⟩
      · exact List.nil_prefix
      · rw [List.append_cons] at hfac
        exact List.cons_prefix_cons.mpr ⟨rfl, hlongest q' hq' hfac⟩

/-- What is predicted follows the longest prefix that occurs. -/
lemma Exact.mem_ppmPredict [F32 F] (h : Exact turn w name o.states) (order : HashOrder)
    (context : List ℕ) :
    ∃ p, ReadsTo w context p ∧
      ∀ c, c ∈ (o.ppmPredict order context).map Prod.fst ↔ p ++ [c] <:+: w := by
  have hroot : Extends w [] (name 0) := h.root.symm ▸ longest_nil.extends
  obtain ⟨p, hp, hlt, hext, hlongest⟩ := h.walkAsFar h.pos hroot context
  rw [List.nil_append] at hext
  refine ⟨p, ⟨hp, hext.factor, fun q hq hfac => hlongest q hq hfac⟩, fun c => ?_⟩
  have hst := List.getElem?_eq_getElem hlt
  rw [hext.concat_isInfix_iff, ← not_iff_not, ← h.lookup_eq_none_iff hst, ppmPredict, hst]
  dsimp only
  split
  case isTrue hempty => simp [hempty]
  case isFalse hempty =>
    rw [List.map_map, List.mem_map, Option.eq_none_iff_forall_ne_some, not_exists]
    constructor
    · intro hno target htarget
      exact hno ⟨c, target⟩ ⟨(order.mem_iter _ c target).mpr htarget, rfl⟩
    · rintro hno ⟨sym, target⟩ ⟨hmem, rfl⟩
      exact hno target ((order.mem_iter _ sym target).mp hmem)

/-- The symbols that are predicted are those that follow the longest suffix of the context that
something follows. -/
def PredictsBehind [F32 F] (o : CdawgOrgan F) (order : HashOrder) (s context : List ℕ) : Prop :=
  ∀ c, c ∈ (o.ppmPredict order context).map Prod.fst ↔ ∃ p, BacksOff s context p ∧ p ++ [c] <:+: s

/-- The prediction backs off to a suffix for exactly the contexts that are kept. -/
lemma Exact.predictsBehind_iff [F32 F] (h : Exact turn w name o.states) (order : HashOrder)
    (context : List ℕ) : o.PredictsBehind order w context ↔ KeepsContext w context := by
  obtain ⟨p, hp, hmem⟩ := h.mem_ppmPredict order context
  unfold PredictsBehind
  simp only [hmem]
  by_cases hfollows : Follows w context
  · refine iff_of_true (fun c => ?_) (Or.inl hfollows)
    rw [hp.eq_self hfollows.isInfix]
    exact ⟨fun hc => ⟨context, hfollows.backsOff, hc⟩,
      fun ⟨q, hq, hc⟩ => hq.unique hfollows.backsOff ▸ hc⟩
  · by_cases hw : w = []
    · subst hw
      refine iff_of_true (fun c => iff_of_false ?_ ?_) (Or.inr (Or.inl rfl))
      · simp
      · rintro ⟨q, -, hc⟩
        simp at hc
    · obtain ⟨q, hq⟩ := exists_backsOff hw context
      have hiff : (∀ c, p ++ [c] <:+: w ↔ ∃ q, BacksOff w context q ∧ q ++ [c] <:+: w) ↔
          ∀ c, p ++ [c] <:+: w ↔ q ++ [c] <:+: w := by
        refine forall_congr' fun c => iff_congr Iff.rfl ?_
        exact ⟨fun ⟨q', hq', hc⟩ => hq'.unique hq ▸ hc, fun hc => ⟨q, hq, hc⟩⟩
      rw [hiff, KeepsContext, or_iff_right hfollows, or_iff_right hw]
      constructor
      · intro hsame
        refine ⟨fun hcontext => ?_, fun p' q' hp' hq' => ?_⟩
        · -- a context that ends the sequence only is followed by nothing
          obtain ⟨c, hc⟩ := hq.follows
          rw [hp.eq_self hcontext] at hsame
          exact hfollows ⟨c, (hsame c).mpr hc⟩
        · rw [hp'.unique hp, hq'.unique hq]
          exact hsame
      · exact fun hkeeps => hkeeps.2 p q hp hq

/-- For the automaton of a sequence, the symbols that are predicted behind a context are those that
follow its longest suffix with a successor iff the context is kept. -/
theorem ppm_predict_iff [Zero F] [F32 F] (s context : List ℕ) (order : HashOrder) :
    ∃ o : CdawgOrgan F, new.extendAll 0 s = some o ∧
      (o.PredictsBehind order s context ↔ KeepsContext s context) := by
  obtain ⟨o, name, ho, hreads⟩ := (reads_new (F := F)).extendAll s
  exact ⟨o, ho, hreads.exact.predictsBehind_iff order context⟩

instance : Nonempty HashOrder := ⟨⟨fun m => m.entries.toList, fun m => m.entries.coe_toList⟩⟩

/-- The end of a context was seen, its start was not: any symbol is predicted, not only the one that
followed. -/
theorem head_unseen : ∃ o : CdawgOrgan ℚ, new.extendAll 0 [1, 2] = some o ∧
    ∃ order, ¬ o.PredictsBehind order [1, 2] [5, 1] := by
  obtain ⟨o, name, ho, hreads⟩ := (reads_new (F := ℚ)).extendAll [1, 2]
  obtain ⟨order⟩ := (inferInstance : Nonempty HashOrder)
  rw [List.nil_append] at hreads
  refine ⟨o, ho, order, fun hpredicts => ?_⟩
  rw [hreads.exact.predictsBehind_iff] at hpredicts
  have hreadsTo : ReadsTo [1, 2] [5, 1] [] := by
    refine ⟨List.nil_prefix, List.nil_infix, fun q hq hfac => ?_⟩
    rcases List.prefix_cons_iff.mp hq with rfl | ⟨q', rfl, -⟩
    · exact List.prefix_rfl
    · exact absurd (hfac.subset List.mem_cons_self) (by decide)
  have hbacks : BacksOff [1, 2] [5, 1] [1] := by
    refine ⟨⟨[5], rfl⟩, ⟨2, List.infix_rfl⟩, fun q hq hq' => ?_⟩
    rcases List.suffix_cons_iff.mp hq with rfl | hq
    · exact absurd (hq'.isInfix.subset List.mem_cons_self) (by decide)
    · exact hq
  rcases hpredicts with ⟨c, hc⟩ | hnil | ⟨-, hsame⟩
  · exact absurd (hc.subset List.mem_cons_self) (by decide)
  · cases hnil
  · have hone := (hsame [] [1] hreadsTo hbacks 1).mp ⟨[], [2], rfl⟩
    exact absurd hone (by decide)

end CdawgOrgan

end ChittaField
