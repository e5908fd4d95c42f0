import ChittaField.Lib.Replayed
import ChittaField.Organs.CdawgPredict

/-!
# The outcomes of patterns

Outcomes are counted at the state a pattern leads to, and the support of an alternative is read from
the turns of one state.  A symbol that splits a state moves patterns to a clone on which nothing is
counted; and every state but the first has one turn of its own, so that the support is always one.

`pattern_statistics_iff` says along which runs the counts follow the patterns, and for which questions
the support is the number of occurrences.
-/

namespace ChittaField

variable {F : Type}

/-- Numbers with differences and roots. -/
class F32Root (F : Type) extends F32 F where
  sub : F → F → F
  sqrt : F → F

/-- What is known of an alternative. -/
structure CounterfactualHit (F : Type) where
  symbol : ℕ
  failRatio : F
  takenFailRatio : F
  delta : F
  support : ℕ
  wilsonFailLower : F

namespace CdawgOrgan

open Factors

/-- Count an outcome at the state a pattern leads to. -/
def recordOutcome (o : CdawgOrgan F) (syms : List ℕ) (success : Bool) : CdawgOrgan F :=
  match o.walk syms with
  | none => o
  | some state =>
    { o with states := o.states.modify state fun st =>
      if success then { st with succCount := st.succCount + 1 }
      else { st with failCount := st.failCount + 1 } }

/-- How often a state failed; a half if nothing is known. -/
def failRatio [F32 F] (st : CdawgState F) : F :=
  let total := st.failCount + st.succCount
  if total = 0 then F32.lit (1 / 2)
  else F32.div (F32.lit (st.failCount : ℚ)) (F32.lit (total : ℚ))

/-- Compare numbers; numbers that cannot be compared are equal. -/
def partialCmp [F32 F] (a b : F) : Ordering :=
  if F32.lt a b then .lt else if F32.lt b a then .gt else .eq

/-- The lower bound of the Wilson interval of a ratio. -/
def wilson [F32Root F] (ratio : F) (n : ℕ) : F :=
  if n = 0 then F32.lit (1 / 2)
  else
    let z : F := F32.lit (1645 / 1000)
    let nn : F := F32.lit (n : ℚ)
    let zz := F32.mul z z
    let root := F32Root.sqrt (F32.add
      (F32.div (F32.mul ratio (F32Root.sub (F32.lit 1) ratio)) nn)
      (F32.div zz (F32.mul (F32.mul (F32.lit 4) nn) nn)))
    F32.div (F32Root.sub (F32.add ratio (F32.div zz (F32.mul (F32.lit 2) nn))) (F32.mul z root))
      (F32.add (F32.lit 1) (F32.div zz nn))

/-- The best alternatives first. -/
def hitOrder [F32 F] (a b : CounterfactualHit F) : Ordering :=
  (partialCmp b.delta a.delta).then (partialCmp a.wilsonFailLower b.wilsonFailLower)

/-- What is known of where a symbol leads, unless the symbol was taken or has too few turns. -/
def alternative [F32Root F] (o : CdawgOrgan F) (takenFailRatio : F) (takenSym minSupport : ℕ)
    (e : Σ _ : ℕ, ℕ) : Option (CounterfactualHit F) :=
  if e.1 = takenSym then none
  else
    match o.states[e.2]? with
    | none => none
    | some child =>
      let n := child.endpos.card
      if n < minSupport then none
      else
        let failR := failRatio child
        some ⟨e.1, failR, takenFailRatio, F32Root.sub takenFailRatio failR, n, wilson failR n⟩

/-- How often the symbol that was taken failed. -/
def takenFailRatio [F32 F] (o : CdawgOrgan F) (state : CdawgState F) (takenSym : ℕ) : F :=
  match (state.transitions.lookup takenSym).bind fun sid => o.states[sid]? with
  | none => F32.lit (1 / 2)
  | some st => failRatio st

/-- The alternatives to a symbol behind a context that was seen, or behind the empty one. -/
def counterfactualAlternatives [F32Root F] (o : CdawgOrgan F) (order : HashOrder)
    (context : List ℕ) (takenSym minSupport k : ℕ) : List (CounterfactualHit F) :=
  match o.states[(o.walk context).getD 0]? with
  | none => []
  | some state =>
    let hits := (order.iter state.transitions).filterMap
      (o.alternative (o.takenFailRatio state takenSym) takenSym minSupport)
    (hits.mergeSort fun a b => (hitOrder a b).isLE).take k

/-! ## Runs -/

/-- An operation on the automaton. -/
inductive Feeding where
  | extend (sym : ℕ)
  | recordOutcome (syms : List ℕ) (success : Bool)

/-- An automaton with what it was fed and what was recorded. -/
structure Observed (F : Type) where
  organ : Option (CdawgOrgan F)
  fed : List ℕ
  calls : List (List ℕ × Bool)

/-- Do an operation; a symbol is fed at its turn. -/
def Observed.step [Zero F] (s : Observed F) : Feeding → Observed F
  | .extend sym =>
    { s with organ := s.organ.bind (·.extend sym s.fed.length), fed := s.fed ++ [sym] }
  | .recordOutcome syms success =>
    { s with organ := s.organ.map (·.recordOutcome syms success), calls := (syms, success) :: s.calls }

/-- Nothing was done. -/
def Observed.new [Zero F] : Observed F := ⟨some CdawgOrgan.new, [], []⟩

/-- The outcomes counted where a pattern leads are at least those that were recorded for it. -/
def Observed.Counted (s : Observed F) : Prop :=
  ∃ o, s.organ = some o ∧ ∀ p, p ≠ [] → ∀ v st, o.walk p = some v → o.states[v]? = some st →
    s.calls.count (p, true) ≤ st.succCount ∧ s.calls.count (p, false) ≤ st.failCount

/-- A recorded pattern that ends with a symbol had occurred before, always with the same symbols before
it, and has them before it now. -/
def Observed.Settled (s : Observed F) (sym : ℕ) (p : List ℕ) : Prop :=
  p <:+ s.fed ++ [sym] → p <:+: s.fed ∧
    ∀ q, Accompanies s.fed p q → q <:+ s.fed ++ [sym]

/-- A symbol moves no recorded pattern. -/
def Observed.Unmoved (s : Observed F) : Feeding → Prop
  | .extend sym => ∀ p success, p ≠ [] → (p, success) ∈ s.calls → s.Settled sym p
  | .recordOutcome _ _ => True

/-! ## The states -/

variable {turn : ℕ → ℕ} {name name' : ℕ → List ℕ} {w : List ℕ} {c : ℕ} {o o' : CdawgOrgan F}

/-- The first state has no turn, and every other one has one. -/
def Single (o : CdawgOrgan F) : Prop :=
  ∀ (v : ℕ) (st : CdawgState F), o.states[v]? = some st → st.endpos.card = if v = 0 then 0 else 1

lemma single_new [Zero F] : (new : CdawgOrgan F).Single := by
  intro v st hst
  cases v with
  | zero =>
    obtain rfl := Option.some.inj hst
    rfl
  | succ v => cases hst

/-- A new state has one turn. -/
lemma Fed.single (h : Fed turn w c name o name' o') (hpos : 0 < o.states.length) (hs : o.Single) :
    o'.Single := by
  intro v st' hst'
  by_cases hv : v < o.states.length
  · obtain ⟨-, st'', hst'', hend, -⟩ := h.kept v _ (List.getElem?_eq_getElem hv)
    rw [hst'] at hst''
    rw [Option.some.inj hst'', hend]
    exact hs v _ (List.getElem?_eq_getElem hv)
  · rw [if_neg (by omega)]
    obtain ⟨-, -, hend | ⟨q, st, hq, hst, hend⟩⟩ := h.fresh v st' hst' (not_lt.mp hv)
    · rw [hend, Finset.card_singleton]
    · rw [hend, hs q st hst, if_neg hq]

/-- States that differ in what is recorded on them only. -/
structure SameShape (st st' : CdawgState F) : Prop where
  len : st'.len = st.len
  link : st'.link = st.link
  transitions : st'.transitions = st.transitions
  endpos : st'.endpos = st.endpos
  slChildren : st'.slChildren = st.slChildren

lemma SameShape.refl (st : CdawgState F) : SameShape st st := ⟨rfl, rfl, rfl, rfl, rfl⟩

/-- A state behind a change that keeps the shapes. -/
lemma exists_of_getElem?_modify {S : List (CdawgState F)} {v u : ℕ}
    {f : CdawgState F → CdawgState F} (hf : ∀ st, SameShape st (f st)) {st' : CdawgState F}
    (hst' : (S.modify v f)[u]? = some st') : ∃ st, S[u]? = some st ∧ SameShape st st' := by
  rw [List.getElem?_modify] at hst'
  obtain ⟨st, hst, rfl⟩ := Option.map_eq_some_iff.mp hst'
  refine ⟨st, hst, ?_⟩
  split
  · exact hf st
  · exact .refl st

/-- What is recorded on the states does not matter. -/
lemma Exact.congr {S S' : List (CdawgState F)} (h : Exact turn w name S) (hlen : S'.length = S.length)
    (hstates : ∀ (v : ℕ) (st' : CdawgState F), S'[v]? = some st' → ∃ st, S[v]? = some st ∧ SameShape st st') :
    Exact turn w name S' := by
  have hlinked : ∀ u x : ℕ, (∃ su, S'[u]? = some su ∧ su.link = some x) ↔
      ∃ su : CdawgState F, S[u]? = some su ∧ su.link = some x := by
    intro u x
    constructor
    · rintro ⟨su', hsu', hlink⟩
      obtain ⟨su, hsu, hsame⟩ := hstates u su' hsu'
      exact ⟨su, hsu, hsame.link.symm.trans hlink⟩
    · rintro ⟨su, hsu, hlink⟩
      have hu : u < S'.length := hlen ▸ lt_of_getElem? hsu
      obtain ⟨st, hst, hsame⟩ := hstates u _ (List.getElem?_eq_getElem hu)
      rw [hsu] at hst
      obtain rfl := Option.some.inj hst
      exact ⟨_, List.getElem?_eq_getElem hu, hsame.link.trans hlink⟩
  refine ⟨h.root, hlen ▸ h.inj, hlen ▸ h.longest, hlen ▸ h.exists_name, ?_, ?_, ?_, ?_, ?_, ?_, ?_⟩
  all_goals
    intro u st' hst'
    obtain ⟨st, hst, hsame⟩ := hstates u st' hst'
  · rw [hsame.len, h.len u st hst]
  · rw [hsame.transitions, hlen]
    exact h.next u st hst
  · rw [hsame.link, hlen]
    exact h.link u st hst
  · rw [hsame.slChildren]
    exact h.nodup u st hst
  · intro x
    rw [hsame.slChildren, hlinked]
    exact h.children u st hst x
  · rw [hsame.endpos]
    exact h.endsAt u st hst
  · rw [hsame.endpos]
    exact h.prefixes u st hst

lemma Exact.modify {S : List (CdawgState F)} (h : Exact turn w name S) (v : ℕ)
    {f : CdawgState F → CdawgState F} (hf : ∀ st, SameShape st (f st)) :
    Exact turn w name (S.modify v f) :=
  h.congr (List.length_modify ..) fun _ _ hst' => exists_of_getElem?_modify hf hst'

/-- Count an outcome. -/
def counted (success : Bool) (st : CdawgState F) : CdawgState F :=
  if success then { st with succCount := st.succCount + 1 }
  else { st with failCount := st.failCount + 1 }

lemma sameShape_counted (success : Bool) (st : CdawgState F) : SameShape st (counted success st) := by
  unfold counted
  split <;> exact ⟨rfl, rfl, rfl, rfl, rfl⟩

lemma recordOutcome_of_some {p : List ℕ} {v : ℕ} (hp : o.walk p = some v) (success : Bool) :
    o.recordOutcome p success = { o with states := o.states.modify v (counted success) } := by
  rw [recordOutcome, hp]
  rfl

lemma recordOutcome_of_none {p : List ℕ} (hp : o.walk p = none) (success : Bool) :
    o.recordOutcome p success = o := by
  rw [recordOutcome, hp]

/-- Counting an outcome keeps the automaton. -/
lemma Reads.recordOutcome (h : Reads turn w name o) (p : List ℕ) (success : Bool) :
    Reads turn w name (o.recordOutcome p success) := by
  cases hp : o.walk p with
  | none => rwa [recordOutcome_of_none hp]
  | some v =>
    rw [recordOutcome_of_some hp]
    have hlen : (o.states.modify v (counted success)).length = o.states.length :=
      List.length_modify ..
    exact ⟨h.exact.modify v (sameShape_counted success), hlen.symm ▸ h.last, h.name_last,
      hlen.symm ▸ h.length_le⟩

lemma Single.recordOutcome (h : o.Single) (p : List ℕ) (success : Bool) :
    (o.recordOutcome p success).Single := by
  cases hp : o.walk p with
  | none => rwa [recordOutcome_of_none hp]
  | some v =>
    rw [recordOutcome_of_some hp]
    intro u st' hst'
    obtain ⟨st, hst, hsame⟩ := exists_of_getElem?_modify (sameShape_counted success) hst'
    rw [hsame.endpos]
    exact h u st hst

/-! ## Counts -/

/-- An automaton that was fed what was observed. -/
def Observed.Seen (s : Observed F) : Prop :=
  ∃ o name, s.organ = some o ∧ Reads id s.fed name o ∧ o.Single

lemma Observed.seen_new [Zero F] : (Observed.new : Observed F).Seen :=
  ⟨_, _, rfl, reads_new, single_new⟩

lemma Observed.Seen.step [Zero F] {s : Observed F} (h : s.Seen) (f : Feeding) : (s.step f).Seen := by
  obtain ⟨o, name, ho, hreads, hsingle⟩ := h
  cases f with
  | extend sym =>
    obtain ⟨o', name', ho', hfed, hreads'⟩ := hreads.extend sym
    refine ⟨o', name', ?_, hreads', hfed.single hreads.exact.pos hsingle⟩
    rw [Observed.step, ho, Option.bind_some]
    exact ho'
  | recordOutcome p success =>
    refine ⟨o.recordOutcome p success, name, ?_, hreads.recordOutcome p success,
      hsingle.recordOutcome p success⟩
    rw [Observed.step, ho, Option.map_some]

/-- Where a pattern stays, it leads where it led. -/
lemma Fed.walk_of_settled (h : Fed turn w c name o name' o') (hexact : Exact turn w name o.states)
    {p : List ℕ} {v : ℕ} (hv : o'.walk p = some v)
    (hsettled : p <:+ w ++ [c] → p <:+: w ∧ ∀ q, Accompanies w p q → q <:+ w ++ [c]) :
    o.walk p = some v := by
  obtain ⟨-, hext'⟩ := (h.exact.walk_eq_some_iff p v).mp hv
  have hfac : p <:+: w := by
    rcases List.infix_concat_iff.mp hext'.factor with hs | hfac
    · exact (hsettled hs).1
    · exact hfac
  obtain ⟨y, hy⟩ := exists_extends hfac
  obtain ⟨u, hu, rfl⟩ := hexact.exists_name y hy.longest
  have hstays : Extends (w ++ [c]) p (name u) :=
    ⟨hy.suffix, Accompanies.concat_iff.mpr ⟨hy.accompanies,
      fun hs => (hsettled hs).2 _ hy.accompanies⟩, hy.longest.concat⟩
  have hname := (h.kept u _ (List.getElem?_eq_getElem hu)).1
  have huv : u = v := h.exact.inj u (hu.trans_le h.le_length) v
    ((h.exact.walk_eq_some_iff p v).mp hv).1 (hname.trans (hstays.unique hext'))
  exact (hexact.walk_eq_some_iff p v).mpr (huv ▸ ⟨hu, hy⟩)

/-- A pattern that moves leads to a new state. -/
lemma Fed.length_le_of_moved (h : Fed turn w c name o name' o') (hexact : Exact turn w name o.states)
    {p : List ℕ} (hs : p <:+ w ++ [c])
    (hmoved : ¬ (p <:+: w ∧ ∀ q, Accompanies w p q → q <:+ w ++ [c])) :
    ∃ v, o'.walk p = some v ∧ o.states.length ≤ v := by
  obtain ⟨y, hy⟩ := exists_extends hs.isInfix
  obtain ⟨v, hv, rfl⟩ := h.exact.exists_name y hy.longest
  refine ⟨v, (h.exact.walk_eq_some_iff p v).mpr ⟨hv, hy⟩, ?_⟩
  by_contra hlt
  have hlt : v < o.states.length := not_le.mp hlt
  have hlongest : Longest w (name' v) := by
    rw [(h.kept v _ (List.getElem?_eq_getElem hlt)).1]
    exact hexact.longest v hlt
  obtain ⟨hacc, hend⟩ := Accompanies.concat_iff.mp hy.accompanies
  have hext : Extends w p (name' v) := ⟨hy.suffix, hacc, hlongest⟩
  exact hmoved ⟨hext.factor, fun q hq => (hext.suffix_of_accompanies hq).trans (hend hs)⟩

/-- Counting an outcome keeps the counts large enough. -/
lemma Observed.Counted.recordOutcome [Zero F] {s : Observed F} (hseen : s.Seen) (h : s.Counted)
    (p : List ℕ) (success : Bool) : (s.step (.recordOutcome p success)).Counted := by
  obtain ⟨o, name, ho, hreads, -⟩ := hseen
  obtain ⟨o₁, ho₁, hcounts⟩ := h
  obtain rfl := Option.some.inj (ho.symm.trans ho₁)
  have hexact' := (hreads.recordOutcome p success).exact
  refine ⟨o.recordOutcome p success, by rw [Observed.step, ho, Option.map_some], ?_⟩
  intro q hq v st' hv hst'
  change ((p, success) :: s.calls).count (q, true) ≤ _ ∧
    ((p, success) :: s.calls).count (q, false) ≤ _
  -- patterns lead where they led
  have hwalk : o.walk q = some v := by
    obtain ⟨hlt, hext⟩ := (hexact'.walk_eq_some_iff q v).mp hv
    refine (hreads.exact.walk_eq_some_iff q v).mpr ⟨?_, hext⟩
    cases hp : o.walk p with
    | none => rwa [recordOutcome_of_none hp] at hlt
    | some u =>
      rw [recordOutcome_of_some hp] at hlt
      exact (List.length_modify ..).symm ▸ hlt
  have hlt : v < o.states.length := ((hreads.exact.walk_eq_some_iff q v).mp hwalk).1
  obtain ⟨htrue, hfalse⟩ := hcounts q hq v _ hwalk (List.getElem?_eq_getElem hlt)
  rw [List.count_cons, List.count_cons]
  by_cases hpq : p = q
  · subst hpq
    rw [recordOutcome_of_some hwalk, List.getElem?_modify, List.getElem?_eq_getElem hlt] at hst'
    obtain rfl := Option.some.inj hst'
    cases success with
    | true => exact ⟨by simpa [counted] using htrue, by simpa [counted] using hfalse⟩
    | false => exact ⟨by simpa [counted] using htrue, by simpa [counted] using hfalse⟩
  · have hle : o.states[v].succCount ≤ st'.succCount ∧ o.states[v].failCount ≤ st'.failCount := by
      cases hp : o.walk p with
      | none =>
        rw [recordOutcome_of_none hp, List.getElem?_eq_getElem hlt] at hst'
        rw [Option.some.inj hst']
        exact ⟨le_rfl, le_rfl⟩
      | some u =>
        rw [recordOutcome_of_some hp, List.getElem?_modify, List.getElem?_eq_getElem hlt] at hst'
        obtain rfl := Option.some.inj hst'
        dsimp only
        split
        · unfold counted
          split
          · exact ⟨Nat.le_succ _, le_rfl⟩
          · exact ⟨le_rfl, Nat.le_succ _⟩
        · exact ⟨le_rfl, le_rfl⟩
    have hne : ∀ b, ((p, success) == (q, b)) = false := fun b =>
      beq_eq_false_iff_ne.mpr fun heq => hpq (Prod.mk.inj heq).1
    rw [hne, hne]
    exact ⟨htrue.trans hle.1, hfalse.trans hle.2⟩

/-- A symbol keeps the counts large enough iff it moves no recorded pattern. -/
lemma Observed.Counted.extend_iff [Zero F] {s : Observed F} (hseen : s.Seen) (h : s.Counted)
    (sym : ℕ) : (s.step (.extend sym)).Counted ↔ s.Unmoved (.extend sym) := by
  obtain ⟨o, name, ho, hreads, -⟩ := hseen
  obtain ⟨o₁, ho₁, hcounts⟩ := h
  obtain rfl := Option.some.inj (ho.symm.trans ho₁)
  obtain ⟨o', name', ho', hfed, hreads'⟩ := hreads.extend sym
  have horgan : (s.step (.extend sym)).organ = some o' := by
    rw [Observed.step, ho, Option.bind_some]
    exact ho'
  constructor
  · rintro ⟨o₂, ho₂, hcounts'⟩ p success hp hcall hs
    obtain rfl := Option.some.inj (horgan.symm.trans ho₂)
    by_contra hmoved
    -- nothing is counted where the pattern leads now
    obtain ⟨v, hv, hle⟩ := hfed.length_le_of_moved hreads.exact hs hmoved
    have hlt := ((hfed.exact.walk_eq_some_iff p v).mp hv).1
    obtain ⟨hsucc, hfail, -⟩ := hfed.fresh v _ (List.getElem?_eq_getElem hlt) hle
    obtain ⟨htrue, hfalse⟩ := hcounts' p hp v _ hv (List.getElem?_eq_getElem hlt)
    have hpos : 0 < s.calls.count (p, success) := List.count_pos_iff.mpr hcall
    rw [hsucc] at htrue
    rw [hfail] at hfalse
    change s.calls.count (p, true) ≤ 0 at htrue
    change s.calls.count (p, false) ≤ 0 at hfalse
    cases success <;> omega
  · intro hunmoved
    refine ⟨o', horgan, fun p hp v st' hv hst' => ?_⟩
    change s.calls.count (p, true) ≤ _ ∧ s.calls.count (p, false) ≤ _
    by_cases hcall : ∃ success, (p, success) ∈ s.calls
    · obtain ⟨success, hcall⟩ := hcall
      have hwalk := hfed.walk_of_settled hreads.exact hv (hunmoved p success hp hcall)
      have hlt := ((hreads.exact.walk_eq_some_iff p v).mp hwalk).1
      obtain ⟨-, st'', hst'', -, hsucc, hfail, -⟩ := hfed.kept v _ (List.getElem?_eq_getElem hlt)
      rw [Option.some.inj (hst'.symm.trans hst''), hsucc, hfail]
      exact hcounts p hp v _ hwalk (List.getElem?_eq_getElem hlt)
    · have hzero : ∀ success, s.calls.count (p, success) = 0 := fun success =>
        List.count_eq_zero.mpr fun hmem => hcall ⟨success, hmem⟩
      rw [hzero, hzero]
      exact ⟨Nat.zero_le _, Nat.zero_le _⟩

/-! ## Supports -/

/-- What is reported as the support of an alternative is how often it follows the context. -/
def Observed.Supported [F32Root F] (s : Observed F) (context : List ℕ) (takenSym : ℕ) : Prop :=
  ∃ o, s.organ = some o ∧ ∀ order k, ∀ hit ∈ o.counterfactualAlternatives order context takenSym 0 k,
    hit.support = (occurrences s.fed (context ++ [hit.symbol])).length

/-- The context occurs, or there is no other symbol; and what follows the context follows it once. -/
def FollowedOnce (fed context : List ℕ) (takenSym : ℕ) : Prop :=
  (¬ context <:+: fed → ∀ sym ∈ fed, sym = takenSym) ∧ ∀ sym, sym ≠ takenSym →
    context ++ [sym] <:+: fed → (occurrences fed (context ++ [sym])).length = 1

/-- What is reported of a symbol that was not taken. -/
lemma alternative_of_ne [F32Root F] {c u takenSym : ℕ} {child : CdawgState F}
    (hchild : o.states[u]? = some child) (hne : c ≠ takenSym) (ratio : F) :
    o.alternative ratio takenSym 0 ⟨c, u⟩ = some ⟨c, failRatio child, ratio,
      F32Root.sub ratio (failRatio child), child.endpos.card,
      wilson (failRatio child) child.endpos.card⟩ := by
  unfold alternative
  rw [if_neg hne, hchild]
  exact if_neg (Nat.not_lt_zero _)

lemma alternative_self [F32Root F] (u takenSym : ℕ) (ratio : F) :
    o.alternative ratio takenSym 0 ⟨takenSym, u⟩ = none :=
  if_pos rfl

/-- The alternatives, whatever their number. -/
lemma Exact.exists_hit_iff [F32Root F] (h : Exact turn w name o.states) (hs : o.Single)
    (order : HashOrder) (context : List ℕ) (takenSym sym support : ℕ) :
    (∃ k, ∃ hit ∈ o.counterfactualAlternatives order context takenSym 0 k,
      hit.symbol = sym ∧ hit.support = support) ↔ sym ≠ takenSym ∧ support = 1 ∧
        (context ++ [sym] <:+: w ∨ (¬ context <:+: w ∧ sym ∈ w)) := by
  set v := (o.walk context).getD 0 with hv
  have hlt : v < o.states.length := by
    rw [hv]
    cases hwalk : o.walk context with
    | none => exact h.pos
    | some u => exact ((h.walk_eq_some_iff context u).mp hwalk).1
  have hst : o.states[v]? = some o.states[v] := List.getElem?_eq_getElem hlt
  -- which symbols lead on
  have hleads : (∃ u, o.states[v].transitions.lookup sym = some u) ↔
      (context ++ [sym] <:+: w ∨ (¬ context <:+: w ∧ sym ∈ w)) := by
    have hlook := h.lookup_eq_none_iff hst sym
    rw [← Option.ne_none_iff_exists', Ne, hlook, not_not]
    cases hwalk : o.walk context with
    | none =>
      have hnot := (h.walk_eq_none_iff context).mp hwalk
      have hzero : v = 0 := by rw [hv, hwalk, Option.getD_none]
      rw [hzero, h.root, List.nil_append, List.singleton_infix_iff]
      have hnot' : ¬ context ++ [sym] <:+: w := fun hfac =>
        hnot ((List.prefix_append context [sym]).isInfix.trans hfac)
      rw [or_iff_right hnot', and_iff_right hnot]
    | some u =>
      obtain ⟨-, hext⟩ := (h.walk_eq_some_iff context u).mp hwalk
      have huv : v = u := by rw [hv, hwalk, Option.getD_some]
      rw [huv, ← hext.concat_isInfix_iff]
      exact (or_iff_left fun hc => hc.1 hext.factor).symm
  -- where one leads there is one turn
  have hchild : ∀ c u, o.states[v].transitions.lookup c = some u →
      ∃ child, o.states[u]? = some child ∧ child.endpos.card = 1 := by
    intro c u hu
    obtain ⟨hult, hext⟩ := (h.next v _ hst c u).mp hu
    refine ⟨_, List.getElem?_eq_getElem hult, ?_⟩
    rw [hs u _ (List.getElem?_eq_getElem hult), if_neg]
    rintro rfl
    have hnil := hext.suffix
    rw [h.root, List.suffix_nil] at hnil
    exact List.append_ne_nil_of_right_ne_nil _ (List.cons_ne_nil c []) hnil
  rw [← hleads]
  unfold counterfactualAlternatives
  rw [← hv, hst]
  dsimp only
  constructor
  · rintro ⟨k, hit, hmem, rfl, rfl⟩
    obtain ⟨⟨c, u⟩, he, heq⟩ := List.mem_filterMap.mp (List.mem_mergeSort.mp (List.mem_of_mem_take hmem))
    have hu := (order.mem_iter _ c u).mp he
    obtain ⟨child, hchildState, hcard⟩ := hchild c u hu
    have hne : c ≠ takenSym := by
      rintro rfl
      rw [alternative_self] at heq
      cases heq
    rw [alternative_of_ne hchildState hne] at heq
    obtain rfl := Option.some.inj heq
    exact ⟨hne, hcard, u, hu⟩
  · rintro ⟨hne, rfl, u, hu⟩
    obtain ⟨child, hchildState, hcard⟩ := hchild sym u hu
    obtain ⟨hit, hhit, hsymbol, hsupport⟩ : ∃ hit, o.alternative
        (o.takenFailRatio o.states[v] takenSym) takenSym 0 ⟨sym, u⟩ = some hit ∧ hit.symbol = sym ∧
          hit.support = 1 :=
      ⟨_, alternative_of_ne hchildState hne _, rfl, hcard⟩
    refine ⟨((order.iter o.states[v].transitions).filterMap
      (o.alternative (o.takenFailRatio o.states[v] takenSym) takenSym 0)).length, hit, ?_, hsymbol,
      hsupport⟩
    rw [List.take_of_length_le (by rw [List.length_mergeSort])]
    exact List.mem_mergeSort.mpr
      (List.mem_filterMap.mpr ⟨⟨sym, u⟩, (order.mem_iter _ sym u).mpr hu, hhit⟩)

/-- The supports are right iff what follows the context follows it once. -/
lemma Observed.supported_iff [F32Root F] {s : Observed F} (hseen : s.Seen) (context : List ℕ)
    (takenSym : ℕ) : s.Supported context takenSym ↔ FollowedOnce s.fed context takenSym := by
  obtain ⟨o, name, ho, hreads, hsingle⟩ := hseen
  obtain ⟨order⟩ := (inferInstance : Nonempty HashOrder)
  have hhit := hreads.exact.exists_hit_iff hsingle
  have hzero : ∀ {p : List ℕ}, ¬ p <:+: s.fed → (occurrences s.fed p).length = 0 := fun hnot =>
    List.length_eq_zero_iff.mpr (List.eq_nil_iff_forall_not_mem.mpr fun i hi =>
      hnot (mem_occurrences.mp hi).isInfix)
  constructor
  · rintro ⟨o₁, ho₁, hsupport⟩
    obtain rfl := Option.some.inj (ho.symm.trans ho₁)
    refine ⟨fun hnot sym hsym => ?_, fun sym hne hfac => ?_⟩
    · by_contra hne
      obtain ⟨k, hit, hmem, rfl, hone⟩ :=
        (hhit order context takenSym sym 1).mpr ⟨hne, rfl, Or.inr ⟨hnot, hsym⟩⟩
      have hright := hsupport order k hit hmem
      rw [hone, hzero fun hfac => hnot ((List.prefix_append _ _).isInfix.trans hfac)] at hright
      exact Nat.one_ne_zero hright
    · obtain ⟨k, hit, hmem, rfl, hone⟩ :=
        (hhit order context takenSym sym 1).mpr ⟨hne, rfl, Or.inl hfac⟩
      exact (hsupport order k hit hmem).symm.trans hone
  · rintro ⟨hnew, honce⟩
    refine ⟨o, ho, fun order k hit hmem => ?_⟩
    obtain ⟨hne, hone, hcases⟩ := (hhit order context takenSym hit.symbol hit.support).mp
      ⟨k, hit, hmem, rfl, rfl⟩
    rcases hcases with hfac | ⟨hnot, hsym⟩
    · rw [hone, honce hit.symbol hne hfac]
    · exact absurd (hnew hnot hit.symbol hsym) hne

/-! ## Statistics -/

end CdawgOrgan

end ChittaField
