import ChittaField.Organs.Cdawg

/-!
# Feeding the suffix automaton

Each state is named by the longest pattern it stands for.  `Exact` says that the names are the longest
factors of what was fed, and that the transitions, the links, the children and the turns are those of
the factors.  A symbol that is fed keeps this; the walks up the links are read off the names.
-/

namespace ChittaField.CdawgOrgan

open Factors

variable {F : Type} {turn : ℕ → ℕ} {name : ℕ → List ℕ} {n : ℕ} {S : List (CdawgState F)} {x w : List ℕ}

/-! ## Walking up the links -/

/-- Below a word the links lead from each state to the next shorter one. -/
structure Chained (name : ℕ → List ℕ) (n : ℕ) (S : List (CdawgState F)) (x : List ℕ) : Prop where
  le_length : n ≤ S.length
  inj : ∀ u < n, ∀ v < n, name u = name v → u = v
  root : ∀ v < n, ∀ st, S[v]? = some st → name v <:+ x → st.link = none → name v = []
  link : ∀ v < n, ∀ st u, S[v]? = some st → name v <:+ x → st.link = some u →
    u < n ∧ name u <:+ name v ∧ name u ≠ name v ∧
      ∀ z < n, name z <:+ name v → name z ≠ name v → name z <:+ name u

/-- Where a walk stops. -/
def StopsAt (name : ℕ → List ℕ) (n : ℕ) (S : List (CdawgState F)) (x : List ℕ)
    (cond : CdawgState F → Bool) : Option ℕ → Prop
  | none => ∀ v < n, ∀ sv, S[v]? = some sv → name v <:+ x → cond sv = true
  | some p => p < n ∧ name p <:+ x ∧ (∃ sp, S[p]? = some sp ∧ cond sp = false) ∧
    ∀ v < n, ∀ sv, S[v]? = some sv → name v <:+ x → cond sv = false → name v <:+ name p

/-- What a walk does: the states that meet the condition and whose names are suffixes of a word are
changed. -/
structure Climbed (cond : CdawgState F → Bool) (change : CdawgState F → CdawgState F)
    (name : ℕ → List ℕ) (n : ℕ) (S : List (CdawgState F)) (x : List ℕ) (S' : List (CdawgState F))
    (r : Option ℕ) : Prop where
  length_eq : S'.length = S.length
  changed : ∀ v st, S[v]? = some st → v < n ∧ name v <:+ x ∧ cond st = true → S'[v]? = some (change st)
  kept : ∀ v st, S[v]? = some st → ¬ (v < n ∧ name v <:+ x ∧ cond st = true) → S'[v]? = some st
  stops : StopsAt name n S x cond r

/-- A walk from a state ends where each link is shorter; the word is the name of the first state. -/
lemma exists_climbed (cond : CdawgState F → Bool) (change : CdawgState F → CdawgState F)
    {fuel p : ℕ} (h : Chained name n S (name p)) (hp : p < n) (hfuel : (name p).length < fuel)
    (hmono : ∀ u < n, ∀ v < n, ∀ su sv, S[u]? = some su → S[v]? = some sv → name u <:+ name p →
      name v <:+ name u → cond sv = true → cond su = true) :
    ∃ S' r, climb cond change fuel S p = some (S', r) ∧
      Climbed cond change name n S (name p) S' r := by
  induction fuel generalizing S p with
  | zero => omega
  | succ fuel ih =>
    obtain ⟨st, hst⟩ : ∃ st, S[p]? = some st := ⟨_, List.getElem?_eq_getElem (hp.trans_le h.le_length)⟩
    have hat : ∀ {sv}, S[p]? = some sv → sv = st := fun hsv => Option.some.inj (hsv.symm.trans hst)
    rw [climb, hst]
    dsimp only
    cases hcond : cond st with
    | false =>
      -- no shorter state meets the condition either
      have hnone : ∀ v < n, ∀ sv, S[v]? = some sv → name v <:+ name p → ¬ cond sv = true := by
        intro v hv sv hsv hs htrue
        have hst' := hmono p hp v hv st sv hst hsv List.suffix_rfl hs htrue
        rw [hcond] at hst'
        exact Bool.false_ne_true hst'
      rw [if_neg Bool.false_ne_true]
      exact ⟨S, some p, rfl, rfl, fun v sv hsv hc => absurd hc.2.2 (hnone v hc.1 sv hsv hc.2.1),
        fun _ _ hsv _ => hsv, hp, List.suffix_rfl, ⟨st, hst, hcond⟩, fun _ _ _ _ hs _ => hs⟩
    | true =>
      rw [if_pos rfl]
      have hfirst : (S.modify p change)[p]? = some (change st) := by
        rw [List.getElem?_modify_eq, hst]
        rfl
      have hother : ∀ {v}, v ≠ p → (S.modify p change)[v]? = S[v]? := fun hv =>
        List.getElem?_modify_ne change S hv.symm
      cases hlink : st.link with
      | none =>
        -- the first state has the empty name, and no other has
        have hnil := h.root p hp st hst List.suffix_rfl hlink
        have honly : ∀ v < n, name v <:+ name p → v = p := by
          intro v hv hs
          rw [hnil] at hs
          exact h.inj v hv p hp ((List.suffix_nil.mp hs).trans hnil.symm)
        refine ⟨_, none, rfl, List.length_modify .., fun v sv hsv hc => ?_, fun v sv hsv hc => ?_,
          fun v hv sv hsv hs => ?_⟩
        · obtain rfl := honly v hc.1 hc.2.1
          rw [hat hsv]
          exact hfirst
        · refine (hother ?_).trans hsv
          rintro rfl
          exact hc ⟨hp, List.suffix_rfl, hat hsv ▸ hcond⟩
        · obtain rfl := honly v hv hs
          exact hat hsv ▸ hcond
      | some link =>
        obtain ⟨hlinkn, hsuffix, hne, hbelow⟩ := h.link p hp st link hst List.suffix_rfl hlink
        have hshort : (name link).length < (name p).length :=
          lt_of_le_of_ne hsuffix.length_le fun heq => hne (hsuffix.eq_of_length heq)
        -- what is below the first state is below its link
        have hdown : ∀ v < n, v ≠ p → name v <:+ name p → name v <:+ name link := fun v hv hvp hs =>
          hbelow v hv hs fun heq => hvp (h.inj v hv p hp heq)
        have hnot : ∀ {v}, name v <:+ name link → v ≠ p := by
          rintro v hs rfl
          have := hs.length_le
          omega
        have hchained : Chained name n (S.modify p change) (name link) := by
          refine ⟨by rw [List.length_modify]; exact h.le_length, h.inj, ?_, ?_⟩
          · intro v hv sv hsv hs
            rw [hother (hnot hs)] at hsv
            exact h.root v hv sv hsv (hs.trans hsuffix)
          · intro v hv sv u hsv hs
            rw [hother (hnot hs)] at hsv
            exact h.link v hv sv u hsv (hs.trans hsuffix)
        obtain ⟨S', r, hr, hrest⟩ := ih hchained hlinkn (by omega) (by
          intro u hu v hv su sv hsu hsv hs hvu
          rw [hother (hnot hs)] at hsu
          rw [hother (hnot (hvu.trans hs))] at hsv
          exact hmono u hu v hv su sv hsu hsv (hs.trans hsuffix) hvu)
        refine ⟨S', r, hr, hrest.length_eq.trans (List.length_modify ..), fun v sv hsv hc => ?_,
          fun v sv hsv hc => ?_, ?_⟩
        · by_cases hv : v = p
          · subst hv
            rw [hat hsv]
            exact hrest.kept v _ hfirst fun hc' => hnot hc'.2.1 rfl
          · exact hrest.changed v sv ((hother hv).trans hsv) ⟨hc.1, hdown v hc.1 hv hc.2.1, hc.2.2⟩
        · have hv : v ≠ p := by
            rintro rfl
            exact hc ⟨hp, List.suffix_rfl, hat hsv ▸ hcond⟩
          exact hrest.kept v sv ((hother hv).trans hsv) fun hc' =>
            hc ⟨hc'.1, hc'.2.1.trans hsuffix, hc'.2.2⟩
        · have hstops := hrest.stops
          cases r with
          | none =>
            intro v hv sv hsv hs
            by_cases hvp : v = p
            · subst hvp
              exact hat hsv ▸ hcond
            · exact hstops v hv sv ((hother hvp).trans hsv) (hdown v hv hvp hs)
          | some p' =>
            obtain ⟨hp', hs', ⟨sp, hsp, hfalse⟩, hlongest⟩ := hstops
            refine ⟨hp', hs'.trans hsuffix, ⟨sp, (hother (hnot hs')).symm.trans hsp, hfalse⟩,
              fun v hv sv hsv hs hc => ?_⟩
            have hvp : v ≠ p := by
              rintro rfl
              rw [hat hsv, hcond] at hc
              exact Bool.noConfusion hc
            exact hlongest v hv sv ((hother hvp).trans hsv) (hdown v hv hvp hs) hc

/-! ## What the states say -/

/-- The states are those of the suffix automaton of a word, of which each position has a turn; each has
the longest pattern it stands for as its name. -/
structure Exact (turn : ℕ → ℕ) (w : List ℕ) (name : ℕ → List ℕ) (S : List (CdawgState F)) : Prop where
  root : name 0 = []
  inj : ∀ u < S.length, ∀ v < S.length, name u = name v → u = v
  longest : ∀ v < S.length, Longest w (name v)
  exists_name : ∀ x, Longest w x → ∃ v < S.length, name v = x
  len : ∀ (v : ℕ) (st : CdawgState F), S[v]? = some st → st.len = (name v).length
  next : ∀ (v : ℕ) (st : CdawgState F), S[v]? = some st → ∀ c u,
    st.transitions.lookup c = some u ↔ u < S.length ∧ Extends w (name v ++ [c]) (name u)
  link : ∀ (v : ℕ) (st : CdawgState F), S[v]? = some st → ∀ u : ℕ,
    st.link = some u ↔ u < S.length ∧ IsLink w (name v) (name u)
  nodup : ∀ (v : ℕ) (st : CdawgState F), S[v]? = some st → st.slChildren.Nodup
  children : ∀ (v : ℕ) (st : CdawgState F), S[v]? = some st → ∀ u : ℕ,
    u ∈ st.slChildren ↔ ∃ su : CdawgState F, S[u]? = some su ∧ su.link = some v
  /-- A state has only turns of positions at which it ends. -/
  endsAt : ∀ (v : ℕ) (st : CdawgState F), S[v]? = some st →
    ∀ i ∈ st.endpos, ∃ j, turn j = i ∧ EndsAt w (name v) (j + 1)
  /-- The state of all that was fed then has the turn. -/
  prefixes : ∀ (v : ℕ) (st : CdawgState F), S[v]? = some st →
    ∀ j < w.length, name v = w.take (j + 1) → turn j ∈ st.endpos

variable {st : CdawgState F} {v : ℕ}

lemma lt_of_getElem? (h : S[v]? = some st) : v < S.length :=
  (List.getElem?_eq_some_iff.mp h).1

lemma Exact.pos (h : Exact turn w name S) : 0 < S.length := by
  obtain ⟨v, hv, -⟩ := h.exists_name [] longest_nil
  omega

/-- Only the first state has the empty name. -/
lemma Exact.eq_zero (h : Exact turn w name S) (hv : v < S.length) (hname : name v = []) : v = 0 :=
  h.inj v hv 0 h.pos (hname.trans h.root.symm)

/-- A symbol leads somewhere if it has followed the name. -/
lemma Exact.lookup_eq_none_iff (h : Exact turn w name S) (hst : S[v]? = some st) (c : ℕ) :
    st.transitions.lookup c = none ↔ ¬ name v ++ [c] <:+: w := by
  rw [Option.eq_none_iff_forall_ne_some, ← not_exists, not_iff_not]
  constructor
  · rintro ⟨u, hu⟩
    exact ((h.next v st hst c u).mp hu).2.factor
  · intro hfac
    obtain ⟨y, hy⟩ := exists_extends hfac
    obtain ⟨u, hu, rfl⟩ := h.exists_name y hy.longest
    exact ⟨u, (h.next v st hst c u).mpr ⟨hu, hy⟩⟩

lemma Exact.link_eq_none_iff (h : Exact turn w name S) (hst : S[v]? = some st) :
    st.link = none ↔ name v = [] := by
  constructor
  · intro hnone
    by_contra hne
    obtain ⟨y, hy⟩ := exists_isLink (w := w) hne
    obtain ⟨u, hu, rfl⟩ := h.exists_name y hy.longest
    rw [(h.link v st hst u).mpr ⟨hu, hy⟩] at hnone
    cases hnone
  · intro hnil
    rw [Option.eq_none_iff_forall_ne_some]
    intro u hu
    have hlink := ((h.link v st hst u).mp hu).2
    rw [hnil] at hlink
    exact not_isLink_nil hlink

/-- Links lead from each state to the next shorter one, also where other states have changed. -/
lemma Exact.chained (h : Exact turn w name S) {S' : List (CdawgState F)} (hlen : S.length ≤ S'.length)
    (hsame : ∀ v st', v < S.length → name v <:+ x → S'[v]? = some st' →
      ∃ st, S[v]? = some st ∧ st'.link = st.link) : Chained name S.length S' x where
  le_length := hlen
  inj := h.inj
  root v hv st' hst' hs hnone := by
    obtain ⟨st, hst, hlink⟩ := hsame v st' hv hs hst'
    exact (h.link_eq_none_iff hst).mp (hlink.symm.trans hnone)
  link v hv st' u hst' hs hu := by
    obtain ⟨st, hst, hlink⟩ := hsame v st' hv hs hst'
    obtain ⟨hlt, hl⟩ := (h.link v st hst u).mp (hlink.symm.trans hu)
    exact ⟨hlt, hl.suffix, hl.ne, fun z hz hs hne => hl.le _ (h.longest z hz) hs hne⟩

/-! ## From one state to all -/

/-- A partial map and a relation that is functional agree where the map is defined and the relation
is total only there. -/
lemma some_iff {o : Option ℕ} {r : ℕ → Prop} (hunique : ∀ u v, r u → r v → u = v)
    (hsome : ∀ u, o = some u → r u) (hnone : o = none → ∀ u, ¬ r u) (u : ℕ) : o = some u ↔ r u := by
  refine ⟨hsome u, fun hu => ?_⟩
  cases ho : o with
  | none => exact absurd hu (hnone ho u)
  | some v => rw [hunique v u (hsome v ho) hu]

/-- The names of the first `n` states, none of them twice, are the words with a property. -/
structure Names (name : ℕ → List ℕ) (n : ℕ) (P : List ℕ → Prop) : Prop where
  inj : ∀ u < n, ∀ v < n, name u = name v → u = v
  exists_iff : ∀ x, P x ↔ ∃ v < n, name v = x

lemma Exact.names (h : Exact turn w name S) : Names name S.length (Longest w) := by
  refine ⟨h.inj, fun x => ⟨h.exists_name x, ?_⟩⟩
  rintro ⟨v, hv, rfl⟩
  exact h.longest v hv

/-- A new name goes to the next state. -/
lemma Names.push {P Q : List ℕ → Prop} (h : Names name n P) (hx : ¬ P x)
    (hQ : ∀ y, Q y ↔ P y ∨ y = x) : Names (Function.update name n x) (n + 1) Q := by
  have hold : ∀ v < n, Function.update name n x v = name v := fun v hv => Function.update_of_ne hv.ne ..
  have hnew : Function.update name n x n = x := Function.update_self ..
  have hne : ∀ v < n, name v ≠ x := fun v hv heq => hx ((h.exists_iff x).mpr ⟨v, hv, heq⟩)
  refine ⟨fun u hu v hv heq => ?_, fun y => ?_⟩
  · rcases Nat.lt_succ_iff_lt_or_eq.mp hu with hu | hu <;>
      rcases Nat.lt_succ_iff_lt_or_eq.mp hv with hv | hv
    · rw [hold u hu, hold v hv] at heq
      exact h.inj u hu v hv heq
    · rw [hold u hu, hv, hnew] at heq
      exact absurd heq (hne u hu)
    · rw [hold v hv, hu, hnew] at heq
      exact absurd heq.symm (hne v hv)
    · exact hu.trans hv.symm
  · rw [hQ, h.exists_iff]
    constructor
    · rintro (⟨v, hv, rfl⟩ | rfl)
      · exact ⟨v, hv.trans n.lt_succ_self, hold v hv⟩
      · exact ⟨n, n.lt_succ_self, hnew⟩
    · rintro ⟨v, hv, rfl⟩
      rcases Nat.lt_succ_iff_lt_or_eq.mp hv with hv | rfl
      · exact Or.inl ⟨v, hv, (hold v hv).symm⟩
      · exact Or.inr hnew

/-- What one state says where the names are known.  What it does not say follows, as a factor extends
to one longest factor, and a name has one link. -/
structure Says (turn : ℕ → ℕ) (w : List ℕ) (name : ℕ → List ℕ) (S : List (CdawgState F)) (v : ℕ)
    (st : CdawgState F) : Prop where
  len : st.len = (name v).length
  next : ∀ c u, st.transitions.lookup c = some u →
    u < S.length ∧ Extends w (name v ++ [c]) (name u)
  next_none : ∀ c, st.transitions.lookup c = none → ¬ name v ++ [c] <:+: w
  link : ∀ u, st.link = some u → u < S.length ∧ IsLink w (name v) (name u)
  link_none : st.link = none → name v = []
  nodup : st.slChildren.Nodup
  children : ∀ u, u ∈ st.slChildren ↔ ∃ su : CdawgState F, S[u]? = some su ∧ su.link = some v
  endsAt : ∀ i ∈ st.endpos, ∃ j, turn j = i ∧ EndsAt w (name v) (j + 1)
  prefixes : ∀ j < w.length, name v = w.take (j + 1) → turn j ∈ st.endpos

lemma exact_of_says (hroot : name 0 = []) (hnames : Names name S.length (Longest w))
    (htold : ∀ v st, S[v]? = some st → Says turn w name S v st) : Exact turn w name S := by
  refine ⟨hroot, hnames.inj, fun v hv => (hnames.exists_iff _).mpr ⟨v, hv, rfl⟩,
    fun x => (hnames.exists_iff x).mp, fun v st hst => (htold v st hst).len, fun v st hst c => ?_,
    fun v st hst => ?_, fun v st hst => (htold v st hst).nodup,
    fun v st hst => (htold v st hst).children, fun v st hst => (htold v st hst).endsAt,
    fun v st hst => (htold v st hst).prefixes⟩
  · exact some_iff (fun u u' hu hu' => hnames.inj u hu.1 u' hu'.1 (hu.2.unique hu'.2))
      ((htold v st hst).next c) fun hnone u hu => (htold v st hst).next_none c hnone hu.2.factor
  · refine some_iff (fun u u' hu hu' => hnames.inj u hu.1 u' hu'.1 (hu.2.unique hu'.2))
      (htold v st hst).link fun hnone u hu => ?_
    rw [(htold v st hst).link_none hnone] at hu
    exact not_isLink_nil hu.2

lemma exact_new [Zero F] : Exact turn [] (fun _ => []) (new : CdawgOrgan F).states := by
  refine exact_of_says rfl ⟨fun u hu v hv _ => ?_, fun x => ⟨fun hx => ?_, ?_⟩⟩ fun v st hst => ?_
  · rw [new, List.length_singleton] at hu hv
    omega
  · exact ⟨0, Nat.one_pos, (List.infix_nil.mp hx.factor).symm⟩
  · rintro ⟨-, -, rfl⟩
    exact longest_nil
  · rw [new, List.getElem?_singleton] at hst
    split at hst
    case isFalse => cases hst
    case isTrue hv =>
      obtain rfl := Option.some.inj hst
      refine ⟨rfl, fun c u hu => ?_, fun c _ hfac => ?_, fun u hu => ?_, fun _ => rfl, List.nodup_nil,
        fun u => iff_of_false List.not_mem_nil ?_, fun i hi => ?_, fun j hj => ?_⟩
      · simp [CdawgState.new] at hu
      · simpa using hfac.length_le
      · cases hu
      · rintro ⟨su, hsu, hlink⟩
        rw [new, List.getElem?_singleton] at hsu
        split at hsu
        · rw [← Option.some.inj hsu] at hlink
          cases hlink
        · cases hsu
      · cases hi
      · cases hj

/-! ## What a symbol does to a state -/

variable {c q : ℕ}

/-- A transition to the new state is added where the name is at the end and has not been followed by
the symbol. -/
def led (name : ℕ → List ℕ) (w : List ℕ) (c cur v : ℕ) (st : CdawgState F) : CdawgState F :=
  if name v <:+ w ∧ st.transitions.lookup c = none then st.lead c cur else st

@[simp] lemma led_len (v : ℕ) (st : CdawgState F) : (led name w c n v st).len = st.len := by
  unfold led
  split <;> rfl

@[simp] lemma led_link (v : ℕ) (st : CdawgState F) : (led name w c n v st).link = st.link := by
  unfold led
  split <;> rfl

@[simp] lemma led_endpos (v : ℕ) (st : CdawgState F) :
    (led name w c n v st).endpos = st.endpos := by
  unfold led
  split <;> rfl

@[simp] lemma led_slChildren (v : ℕ) (st : CdawgState F) :
    (led name w c n v st).slChildren = st.slChildren := by
  unfold led
  split <;> rfl

lemma lookup_lead (st : CdawgState F) (sym target c : ℕ) :
    (st.lead sym target).transitions.lookup c =
      if c = sym then some target else st.transitions.lookup c := by
  unfold CdawgState.lead
  split
  case isTrue h => rw [h, Finmap.lookup_insert]
  case isFalse h => rw [Finmap.lookup_insert_of_ne _ h]

/-- A symbol leads to the new state, or to where it led. -/
lemma Exact.lookup_led (h : Exact turn w name S) (hst : S[v]? = some st) {c' u : ℕ}
    (hu : (led name w c S.length v st).transitions.lookup c' = some u) :
    (u = S.length ∧ name v ++ [c'] <:+ w ++ [c] ∧ ¬ name v ++ [c'] <:+: w) ∨
      (u < S.length ∧ Extends w (name v ++ [c']) (name u)) := by
  unfold led at hu
  split at hu
  case isTrue hcond =>
    rw [lookup_lead] at hu
    split at hu
    case isTrue hc =>
      subst hc
      exact Or.inl ⟨(Option.some.inj hu).symm, List.suffix_append_self_iff.mpr hcond.1,
        (h.lookup_eq_none_iff hst c').mp hcond.2⟩
    case isFalse => exact Or.inr ((h.next v st hst c' u).mp hu)
  case isFalse => exact Or.inr ((h.next v st hst c' u).mp hu)

/-- A symbol that leads nowhere does not follow the name. -/
lemma Exact.lookup_led_eq_none (h : Exact turn w name S) (hst : S[v]? = some st) {c' : ℕ}
    (hnone : (led name w c S.length v st).transitions.lookup c' = none) :
    ¬ name v ++ [c'] <:+: w ++ [c] := by
  have hold : st.transitions.lookup c' = none := by
    unfold led at hnone
    split at hnone
    · rw [lookup_lead] at hnone
      split at hnone
      · cases hnone
      · exact hnone
    · exact hnone
  intro hfac
  rcases List.infix_concat_iff.mp hfac with hs | hw
  · obtain ⟨hvw, hc⟩ := concat_suffix_concat.mp hs
    subst hc
    rw [led, if_pos ⟨hvw, hold⟩, lookup_lead, if_pos rfl] at hnone
    cases hnone
  · exact (h.lookup_eq_none_iff hst c').mp hold hw

/-! ## Nothing is split -/

/-- A prefix with one more symbol is a prefix of the word, or the whole. -/
lemma take_concat_cases {j : ℕ} (hj : j < (w ++ [c]).length) :
    (j < w.length ∧ (w ++ [c]).take (j + 1) = w.take (j + 1)) ∨
      (j = w.length ∧ (w ++ [c]).take (j + 1) = w ++ [c]) := by
  rw [List.length_append, List.length_singleton] at hj
  rcases Nat.lt_succ_iff_lt_or_eq.mp hj with hj | rfl
  · exact Or.inl ⟨hj, List.take_append_of_le_length hj⟩
  · exact Or.inr ⟨rfl, List.take_of_length_le (by simp)⟩

lemma Exact.ne_concat (h : Exact turn w name S) (hst : S[v]? = some st) : name v ≠ w ++ [c] :=
  ne_concat_of_isInfix (h.longest v (lt_of_getElem? hst)).factor

/-- The turns of a state are still those of positions at which it ends. -/
lemma Exact.endsAt_concat (h : Exact turn w name S) (hst : S[v]? = some st) :
    ∀ i ∈ st.endpos, ∃ j, turn j = i ∧ EndsAt (w ++ [c]) (name v) (j + 1) := by
  intro i hi
  obtain ⟨j, hj, hend⟩ := h.endsAt v st hst i hi
  exact ⟨j, hj, hend.concat⟩

lemma Exact.prefixes_concat (h : Exact turn w name S) (hst : S[v]? = some st) :
    ∀ j < (w ++ [c]).length, name v = (w ++ [c]).take (j + 1) → turn j ∈ st.endpos := by
  intro j hj heq
  rcases take_concat_cases hj with ⟨hj, htake⟩ | ⟨-, htake⟩
  · exact h.prefixes v st hst j hj (heq.trans htake)
  · exact absurd (heq.trans htake) (h.ne_concat hst)

/-- The new state, for the whole word. -/
def wholeState [Zero F] (turn : ℕ → ℕ) (w : List ℕ) (link : Option ℕ) : CdawgState F :=
  { CdawgState.new (w.length + 1) link with endpos := {turn w.length} }

/-- A state that was there, when the new one is linked to `q`. -/
def joined (name : ℕ → List ℕ) (w : List ℕ) (c q cur v : ℕ) (st : CdawgState F) : CdawgState F :=
  { led name w c cur v st with
    slChildren := if v = q then st.slChildren ++ [cur] else st.slChildren }

section Names

variable {name' : ℕ → List ℕ} {t : List ℕ}

/-- The new state is linked to what recurs. -/
lemma says_new [Zero F] (hrec : Recurs w c t) (hcur : name' n = w ++ [c]) (hq : q < S.length)
    (hname : name' q = t) (hfree : ∀ (u : ℕ) (su : CdawgState F), S[u]? = some su → su.link ≠ some n) :
    Says turn (w ++ [c]) name' S n (wholeState turn w (some q)) := by
  refine ⟨?_, fun c' u hu => ?_, fun c' _ => ?_, ?_, fun hnone => ?_, List.nodup_nil,
    fun u => iff_of_false List.not_mem_nil fun ⟨su, hsu, hlink⟩ => hfree u su hsu hlink,
    fun i hi => ?_, fun j hj heq => ?_⟩
  · rw [hcur, List.length_append, List.length_singleton]
    rfl
  · simp [wholeState, CdawgState.new] at hu
  · rw [hcur]
    exact not_isInfix_concat_self
  · rintro u ⟨⟩
    rw [hcur, hname]
    exact ⟨hq, hrec.isLink⟩
  · cases hnone
  · rw [hcur]
    exact ⟨w.length, (Finset.mem_singleton.mp hi).symm,
      endsAt_concat_iff.mpr (Or.inr ⟨rfl, List.suffix_rfl⟩)⟩
  · rcases take_concat_cases hj with ⟨-, htake⟩ | ⟨rfl, -⟩
    · exact absurd (htake.symm.trans (heq.symm.trans hcur))
        (ne_concat_of_isInfix (List.take_prefix ..).isInfix)
    · exact Finset.mem_singleton_self _

/-- A state where the symbol is linked to a state that is there. -/
lemma Exact.says_led (h : Exact turn w name S) {S' : List (CdawgState F)}
    (hlen : S'.length = S.length + 1) (hrec : Recurs w c t) (hlongest : Longest w t)
    (hname : ∀ v < S.length, name' v = name v) (hcur : name' S.length = w ++ [c])
    (hst : S[v]? = some st) {children : List ℕ} (hnodup : children.Nodup)
    (hchildren : ∀ u, u ∈ children ↔ ∃ su : CdawgState F, S'[u]? = some su ∧ su.link = some v) :
    Says turn (w ++ [c]) name' S' v { led name w c S.length v st with slChildren := children } := by
  have hv := lt_of_getElem? hst
  refine ⟨?_, fun c' u hu => ?_, fun c' hnone => ?_, fun u hu => ?_, fun hnone => ?_, hnodup, hchildren,
    ?_, ?_⟩ <;> rw [hname v hv]
  · exact (led_len v st).trans (h.len v st hst)
  · rcases h.lookup_led hst hu with ⟨rfl, hs, hnot⟩ | ⟨hult, hext⟩
    · rw [hcur]
      exact ⟨by omega, extends_of_new hs hnot⟩
    · rw [hname u hult]
      exact ⟨by omega, hext.concat_of_longest hrec hlongest⟩
  · exact h.lookup_led_eq_none hst hnone
  · obtain ⟨hult, hlink⟩ := (h.link v st hst u).mp ((led_link v st).symm.trans hu)
    rw [hname u hult]
    exact ⟨by omega, hlink.concat_of_longest hrec hlongest (h.longest v hv)⟩
  · exact (h.link_eq_none_iff hst).mp ((led_link v st).symm.trans hnone)
  · exact (led_endpos v st).symm ▸ h.endsAt_concat hst
  · exact (led_endpos v st).symm ▸ h.prefixes_concat hst

end Names

lemma not_longest_concat : ¬ Longest w (w ++ [c]) := fun hl => not_isInfix_concat_self hl.factor

/-- A symbol is fed that links the new state to a state that is there. -/
lemma Exact.attach [Zero F] (h : Exact turn w name S) {S' : List (CdawgState F)} (hq : q < S.length)
    (hrec : Recurs w c (name q)) (hlen : S'.length = S.length + 1)
    (hold : ∀ v st, S[v]? = some st → S'[v]? = some (joined name w c q S.length v st))
    (hcur : S'[S.length]? = some (wholeState turn w (some q))) :
    Exact turn (w ++ [c]) (Function.update name S.length (w ++ [c])) S' := by
  set name' := Function.update name S.length (w ++ [c])
  have hnameCur : name' S.length = w ++ [c] := Function.update_self ..
  have hname : ∀ v < S.length, name' v = name v := fun v hv => Function.update_of_ne hv.ne ..
  -- a state is an old one, which the symbol has changed, or the new one
  have hstate : ∀ v st', S'[v]? = some st' →
      (∃ st, S[v]? = some st ∧ st' = joined name w c q S.length v st) ∨
      (v = S.length ∧ st' = wholeState turn w (some q)) := by
    intro v st' hst'
    have hv' := lt_of_getElem? hst'
    rcases (by omega : v < S.length ∨ v = S.length) with hv | rfl
    · have hst : S[v]? = some S[v] := List.getElem?_eq_getElem hv
      exact Or.inl ⟨_, hst, Option.some.inj (hst'.symm.trans (hold v _ hst))⟩
    · exact Or.inr ⟨rfl, Option.some.inj (hst'.symm.trans hcur)⟩
  have hlinked : ∀ u v : ℕ, (∃ su : CdawgState F, S'[u]? = some su ∧ su.link = some v) ↔
      (∃ su, S[u]? = some su ∧ su.link = some v) ∨ (u = S.length ∧ v = q) := by
    intro u v
    constructor
    · rintro ⟨su', hsu', hlink⟩
      rcases hstate u su' hsu' with ⟨su, hsu, rfl⟩ | ⟨rfl, rfl⟩
      · exact Or.inl ⟨su, hsu, (led_link u su).symm.trans hlink⟩
      · exact Or.inr ⟨rfl, (Option.some.inj hlink).symm⟩
    · rintro (⟨su, hsu, hlink⟩ | ⟨rfl, rfl⟩)
      · exact ⟨_, hold u su hsu, (led_link u su).trans hlink⟩
      · exact ⟨_, hcur, rfl⟩
  refine exact_of_says ((hname 0 h.pos).trans h.root) ?_ fun v st' hst' => ?_
  · rw [hlen]
    refine h.names.push not_longest_concat fun y => ?_
    rw [longest_concat_iff hrec, ← or_assoc]
    exact or_iff_left_of_imp fun hy => Or.inl (hy ▸ h.longest q hq)
  · rcases hstate v st' hst' with ⟨st, hst, rfl⟩ | ⟨rfl, rfl⟩
    · refine h.says_led hlen hrec (h.longest q hq) hname hnameCur hst ?_ fun u => ?_
      · split
        · refine List.nodup_append.mpr ⟨h.nodup v st hst, List.nodup_singleton _, ?_⟩
          rintro a ha b hb rfl
          obtain ⟨su, hsu, -⟩ := (h.children v st hst a).mp ha
          exact (lt_of_getElem? hsu).ne (List.mem_singleton.mp hb)
        · exact h.nodup v st hst
      · rw [hlinked, ← h.children v st hst u]
        split
        case isTrue hvq => rw [List.mem_append, List.mem_singleton, and_iff_left hvq]
        case isFalse hvq => exact (or_iff_left fun hc => hvq hc.2).symm
    · refine says_new hrec hnameCur (by omega) (hname q hq) fun u su hsu hlink => ?_
      rcases (hlinked u _).mp ⟨su, hsu, hlink⟩ with ⟨su, hsu, hlink⟩ | ⟨-, hc⟩
      · exact lt_irrefl _ ((h.link u su hsu _).mp hlink).1
      · exact hq.ne' hc

/-! ## A state is split -/

/-- A transition to `q` is redirected to the clone where the name is a suffix of a pattern. -/
def redirected (name : ℕ → List ℕ) (x : List ℕ) (c q clone v : ℕ) (st : CdawgState F) :
    CdawgState F :=
  if name v <:+ x ∧ st.transitions.lookup c = some q then st.lead c clone else st

/-- A state that was there, when the new one and `q` are linked to a copy of `q`. -/
def splitOff (name : ℕ → List ℕ) (w x : List ℕ) (c q : ℕ) (qState : CdawgState F) (cur v : ℕ)
    (st : CdawgState F) : CdawgState F :=
  { redirected name x c q (cur + 1) v (led name w c cur v st) with
    link := if v = q then some (cur + 1) else st.link
    slChildren := if qState.link = some v then replaceChild st.slChildren q (cur + 1)
      else st.slChildren }

@[simp] lemma redirected_len (v : ℕ) (st : CdawgState F) :
    (redirected name x c q n v st).len = st.len := by
  unfold redirected
  split <;> rfl

@[simp] lemma redirected_endpos (v : ℕ) (st : CdawgState F) :
    (redirected name x c q n v st).endpos = st.endpos := by
  unfold redirected
  split <;> rfl

/-- Where a symbol leads behind a redirection. -/
lemma lookup_redirected {c' u : ℕ}
    (hu : (redirected name x c q n v st).transitions.lookup c' = some u) :
    (u = n ∧ c' = c ∧ name v <:+ x ∧ st.transitions.lookup c = some q) ∨
      (st.transitions.lookup c' = some u ∧ (c' = c → name v <:+ x → u ≠ q)) := by
  unfold redirected at hu
  split at hu
  case isTrue hcond =>
    rw [lookup_lead] at hu
    split at hu
    case isTrue hc => exact Or.inl ⟨(Option.some.inj hu).symm, hc, hcond⟩
    case isFalse hc => exact Or.inr ⟨hu, fun hc' => absurd hc' hc⟩
  case isFalse hcond =>
    refine Or.inr ⟨hu, ?_⟩
    rintro rfl hs rfl
    exact hcond ⟨hs, hu⟩

lemma lookup_redirected_eq_none {c' : ℕ}
    (hnone : (redirected name x c q n v st).transitions.lookup c' = none) :
    st.transitions.lookup c' = none := by
  unfold redirected at hnone
  split at hnone
  · rw [lookup_lead] at hnone
    split at hnone
    · cases hnone
    · exact hnone
  · exact hnone

/-- The child that is replaced. -/
lemma replaceChild_eq {l₁ l₂ : List ℕ} {q clone : ℕ} (hq : q ∉ l₁) :
    replaceChild (l₁ ++ q :: l₂) q clone = l₁ ++ clone :: l₂ := by
  have hfind : (l₁ ++ q :: l₂).findIdx? (fun x => x = q) = some l₁.length := by
    rw [List.findIdx?_append, List.findIdx?_eq_none_iff.mpr]
    · simp [List.findIdx?_cons]
    · intro x hx
      exact decide_eq_false fun heq => hq (heq ▸ hx)
  rw [replaceChild, hfind]
  simp

lemma mem_replaceChild {l : List ℕ} (hl : l.Nodup) {q clone : ℕ} (hq : q ∈ l) (u : ℕ) :
    u ∈ replaceChild l q clone ↔ u = clone ∨ (u ∈ l ∧ u ≠ q) := by
  obtain ⟨l₁, l₂, rfl⟩ := List.append_of_mem hq
  obtain ⟨hl₁, hl₂⟩ : q ∉ l₁ ∧ q ∉ l₂ := by
    have hcons := (List.nodup_middle.mp hl)
    simpa [not_or] using (List.nodup_cons.mp hcons).1
  rw [replaceChild_eq hl₁]
  simp only [List.mem_append, List.mem_cons]
  constructor
  · rintro (hu | hu | hu)
    · exact Or.inr ⟨Or.inl hu, fun heq => hl₁ (heq ▸ hu)⟩
    · exact Or.inl hu
    · exact Or.inr ⟨Or.inr (Or.inr hu), fun heq => hl₂ (heq ▸ hu)⟩
  · rintro (hu | ⟨hu | hu | hu, hne⟩)
    · exact Or.inr (Or.inl hu)
    · exact Or.inl hu
    · exact absurd hu hne
    · exact Or.inr (Or.inr hu)

lemma nodup_replaceChild {l : List ℕ} (hl : l.Nodup) {q clone : ℕ} (hq : q ∈ l)
    (hclone : clone ∉ l) : (replaceChild l q clone).Nodup := by
  obtain ⟨l₁, l₂, rfl⟩ := List.append_of_mem hq
  have hcons := List.nodup_cons.mp (List.nodup_middle.mp hl)
  have hl₁ : q ∉ l₁ := fun hmem => hcons.1 (List.mem_append_left _ hmem)
  rw [replaceChild_eq hl₁]
  refine List.nodup_middle.mpr (List.nodup_cons.mpr ⟨fun hmem => hclone ?_, hcons.2⟩)
  rcases List.mem_append.mp hmem with hmem | hmem
  · exact List.mem_append_left _ hmem
  · exact List.mem_append_right _ (List.mem_cons_of_mem q hmem)

section Names

variable {name' : ℕ → List ℕ} {t : List ℕ} {S' : List (CdawgState F)} {qState : CdawgState F}

/-- Where the symbol leads from a state behind the split: what led to `q` within what recurs leads to
the clone. -/
lemma Exact.next_redirected (h : Exact turn w name S) (ht : t = x ++ [c]) (hq : q < S.length)
    (hrec : Recurs w c t) (hext : Extends w t (name q)) (hname : ∀ v < S.length, name' v = name v)
    (hcur : name' S.length = w ++ [c]) (hclone : name' (S.length + 1) = t) (hst : S[v]? = some st)
    {c' u : ℕ} (hu : (redirected name x c q (S.length + 1) v
      (led name w c S.length v st)).transitions.lookup c' = some u) :
    u < S.length + 2 ∧ Extends (w ++ [c]) (name v ++ [c']) (name' u) := by
  rcases lookup_redirected hu with ⟨rfl, rfl, hs, hlook⟩ | ⟨hlook, hkeep⟩
  · rw [hclone]
    have hvt : name v ++ [c'] <:+ t := ht ▸ List.suffix_append_self_iff.mpr hs
    rcases h.lookup_led hst hlook with ⟨rfl, -⟩ | ⟨-, hv'⟩
    · exact absurd hq (lt_irrefl _)
    · exact ⟨by omega, hv'.concat_of_split hrec hvt hext.suffix⟩
  · rcases h.lookup_led hst hlook with ⟨rfl, hs, hnot⟩ | ⟨hult, hv'⟩
    · rw [hcur]
      exact ⟨by omega, extends_of_new hs hnot⟩
    · rw [hname u hult]
      refine ⟨by omega, hv'.concat_of_not_split hrec fun hvt htu => ?_⟩
      -- a transition that ends within what recurs leads to `q`, and was redirected
      rw [ht, concat_suffix_concat] at hvt
      have huq : u = q := h.inj u hult q hq (eq_of_suffix
        (hv'.suffix_of_longest (h.longest q hq) ((List.suffix_append_self_iff.mpr hvt.1).trans
          (hvt.2 ▸ ht ▸ hext.suffix)))
        (hext.suffix_of_longest (h.longest u hult) htu))
      exact hkeep hvt.2 hvt.1 huq

/-- A state where the new state and `q` are linked to a copy of `q`. -/
lemma Exact.says_redirected (h : Exact turn w name S) (hlen : S'.length = S.length + 2)
    (ht : t = x ++ [c]) (hq : q < S.length) (hrec : Recurs w c t) (hext : Extends w t (name q))
    (hne : t ≠ name q) (hname : ∀ v < S.length, name' v = name v) (hcur : name' S.length = w ++ [c])
    (hclone : name' (S.length + 1) = t) (hst : S[v]? = some st) {children : List ℕ}
    (hnodup : children.Nodup)
    (hchildren : ∀ u, u ∈ children ↔ ∃ su : CdawgState F, S'[u]? = some su ∧ su.link = some v) :
    Says turn (w ++ [c]) name' S' v
      { redirected name x c q (S.length + 1) v (led name w c S.length v st) with
        link := if v = q then some (S.length + 1) else st.link
        slChildren := children } := by
  have hv := lt_of_getElem? hst
  refine ⟨?_, fun c' u hu => ?_, fun c' hnone => ?_, fun u hu => ?_, fun hnone => ?_, hnodup, hchildren,
    ?_, ?_⟩ <;> rw [hname v hv]
  · rw [← h.len v st hst]
    simp
  · exact hlen ▸ h.next_redirected ht hq hrec hext hname hcur hclone hst hu
  · exact h.lookup_led_eq_none hst (lookup_redirected_eq_none hnone)
  · dsimp only at hu
    split at hu
    case isTrue hvq =>
      obtain rfl := Option.some.inj hu
      rw [hclone, hvq]
      exact ⟨by omega, hext.isLink_split hrec hne⟩
    case isFalse hvq =>
      obtain ⟨hult, hlink⟩ := (h.link v st hst u).mp hu
      rw [hname u hult]
      exact ⟨by omega, hlink.concat_of_ne hext hrec (h.longest v hv) fun heq =>
        hvq (h.inj v hv q hq heq)⟩
  · dsimp only at hnone
    split at hnone
    · cases hnone
    · exact (h.link_eq_none_iff hst).mp hnone
  · dsimp only
    rw [redirected_endpos, led_endpos]
    exact h.endsAt_concat hst
  · dsimp only
    rw [redirected_endpos, led_endpos]
    exact h.prefixes_concat hst

/-- The copy of `q` stands for what recurs; it leads where `q` leads. -/
lemma Exact.says_clone [Zero F] (h : Exact turn w name S) (hlen : S'.length = S.length + 2)
    (hrec : Recurs w c t) (hext : Extends w t (name q)) (hne : t ≠ name q)
    (hname : ∀ v < S.length, name' v = name v) (hcur : name' S.length = w ++ [c])
    (hclone : name' (S.length + 1) = t) (hqState : S[q]? = some qState) {children : List ℕ}
    (hnodup : children.Nodup) (hchildren : ∀ u, u ∈ children ↔
      ∃ su : CdawgState F, S'[u]? = some su ∧ su.link = some (S.length + 1)) :
    Says turn (w ++ [c]) name' S' (S.length + 1)
      { cloneState (led name w c S.length q qState) t.length with slChildren := children } := by
  refine ⟨?_, fun c' u hu => ?_, fun c' hnone => ?_, fun u hu => ?_, fun hnone => ?_, hnodup, hchildren,
    fun i hi => ?_, fun j hj heq => ?_⟩ <;> rw [hclone] at *
  · rfl
  · rcases h.lookup_led hqState hu with ⟨rfl, hs, hnot⟩ | ⟨hult, hq'⟩
    · rw [hcur]
      refine ⟨by omega, extends_of_new ?_ ?_⟩
      · exact (List.suffix_append_self_iff.mpr hext.suffix).trans hs
      · intro hfac
        obtain ⟨i, hi⟩ := isInfix_iff.mp hfac
        exact hnot (hext.accompanies.concat c' i hi).isInfix
    · rw [hname u hult]
      refine ⟨by omega, (hext.concat_iff.mpr hq').concat_of_not_split hrec fun htt => ?_⟩
      simpa using htt.length_le
  · intro hfac
    refine h.lookup_led_eq_none hqState hnone ?_
    rcases List.infix_concat_iff.mp hfac with hs | hw
    · obtain ⟨htw, rfl⟩ := concat_suffix_concat.mp hs
      have hqw := endsAt_length.mp (hext.accompanies _ (endsAt_length.mpr htw))
      exact (List.suffix_append_self_iff.mpr hqw).isInfix
    · obtain ⟨i, hi⟩ := isInfix_iff.mp hw
      exact isInfix_concat (hext.accompanies.concat c' i hi).isInfix
  · obtain ⟨hult, hlink⟩ := (h.link q qState hqState u).mp ((led_link q qState).symm.trans hu)
    rw [hname u hult]
    exact ⟨by omega, hlink.split hext hrec hne⟩
  · have hnil := (h.link_eq_none_iff hqState).mp ((led_link q qState).symm.trans hnone)
    exact List.suffix_nil.mp (hnil ▸ hext.suffix)
  · obtain ⟨j, hj, hend⟩ := h.endsAt q qState hqState i (led_endpos q qState ▸ hi)
    exact ⟨j, hj, (hend.of_suffix hext.suffix).concat⟩
  · rcases take_concat_cases hj with ⟨hj, htake⟩ | ⟨-, htake⟩
    · exact absurd (hext.eq_self ((heq.trans htake) ▸ longest_take hj)).symm hne
    · exact absurd (heq.trans htake) (ne_concat_of_isInfix hrec.factor)

/-- A symbol is fed that links the new state, and `q`, to a copy of `q`. -/
lemma Exact.split [Zero F] (h : Exact turn w name S) (ht : t = x ++ [c]) (hq : q < S.length)
    (hrec : Recurs w c t) (hext : Extends w t (name q)) (hne : t ≠ name q)
    (hlen : S'.length = S.length + 2) (hqState : S[q]? = some qState)
    (hold : ∀ v st, S[v]? = some st → S'[v]? = some (splitOff name w x c q qState S.length v st))
    (hcur : S'[S.length]? = some (wholeState turn w (some (S.length + 1))))
    (hclone : S'[S.length + 1]? = some
      { cloneState (led name w c S.length q qState) t.length with slChildren := [q, S.length] }) :
    Exact turn (w ++ [c])
      (Function.update (Function.update name S.length (w ++ [c])) (S.length + 1) t) S' := by
  set name' := Function.update (Function.update name S.length (w ++ [c])) (S.length + 1) t with hname'
  have hnameClone : name' (S.length + 1) = t := Function.update_self ..
  have hnameCur : name' S.length = w ++ [c] := by
    rw [hname', Function.update_of_ne (by omega), Function.update_self]
  have hname : ∀ v < S.length, name' v = name v := fun v hv => by
    rw [hname', Function.update_of_ne (by omega), Function.update_of_ne (by omega)]
  -- a state is an old one, which the symbol has changed, the new one, or the clone
  have hstate : ∀ v st', S'[v]? = some st' →
      (∃ st, S[v]? = some st ∧ st' = splitOff name w x c q qState S.length v st) ∨
      (v = S.length ∧ st' = wholeState turn w (some (S.length + 1))) ∨
      (v = S.length + 1 ∧ st' = { cloneState (led name w c S.length q qState) t.length with
        slChildren := [q, S.length] }) := by
    intro v st' hst'
    have hv' := lt_of_getElem? hst'
    rcases (by omega : v < S.length ∨ v = S.length ∨ v = S.length + 1) with hv | rfl | rfl
    · have hst : S[v]? = some S[v] := List.getElem?_eq_getElem hv
      exact Or.inl ⟨_, hst, Option.some.inj (hst'.symm.trans (hold v _ hst))⟩
    · exact Or.inr (Or.inl ⟨rfl, Option.some.inj (hst'.symm.trans hcur)⟩)
    · exact Or.inr (Or.inr ⟨rfl, Option.some.inj (hst'.symm.trans hclone)⟩)
  have hlinked : ∀ u v : ℕ, (∃ su : CdawgState F, S'[u]? = some su ∧ su.link = some v) ↔
      (u ≠ q ∧ ∃ su : CdawgState F, S[u]? = some su ∧ su.link = some v) ∨
        (v = S.length + 1 ∧ (u = q ∨ u = S.length)) ∨
        (u = S.length + 1 ∧ qState.link = some v) := by
    intro u v
    constructor
    · rintro ⟨su', hsu', hlink⟩
      rcases hstate u su' hsu' with ⟨su, hsu, rfl⟩ | ⟨rfl, rfl⟩ | ⟨rfl, rfl⟩
      · unfold splitOff at hlink
        split at hlink
        case isTrue huq => exact Or.inr (Or.inl ⟨(Option.some.inj hlink).symm, Or.inl huq⟩)
        case isFalse huq => exact Or.inl ⟨huq, su, hsu, hlink⟩
      · exact Or.inr (Or.inl ⟨(Option.some.inj hlink).symm, Or.inr rfl⟩)
      · exact Or.inr (Or.inr ⟨rfl, (led_link q qState).symm.trans hlink⟩)
    · rintro (⟨huq, su, hsu, hlink⟩ | ⟨rfl, rfl | rfl⟩ | ⟨rfl, hlink⟩)
      · exact ⟨_, hold u su hsu, (if_neg huq).trans hlink⟩
      · exact ⟨_, hold u qState hqState, if_pos rfl⟩
      · exact ⟨_, hcur, rfl⟩
      · exact ⟨_, hclone, (led_link q qState).trans hlink⟩
  have hlt : ∀ {u v : ℕ} {su : CdawgState F}, S[u]? = some su → su.link = some v → v < S.length :=
    fun hsu hlink => ((h.link _ _ hsu _).mp hlink).1
  have hchildq : ∀ {v : ℕ} {st : CdawgState F}, S[v]? = some st → qState.link = some v →
      q ∈ st.slChildren := fun hst hqv => (h.children _ _ hst q).mpr ⟨qState, hqState, hqv⟩
  refine exact_of_says ((hname 0 h.pos).trans h.root) ?_ fun v st' hst' => ?_
  · rw [hlen]
    refine (h.names.push (Q := fun y => Longest w y ∨ y = w ++ [c]) not_longest_concat
      fun _ => Iff.rfl).push ?_ fun y => (longest_concat_iff hrec).trans or_assoc.symm
    rintro (hl | heq)
    · exact hne (hext.eq_self hl).symm
    · exact ne_concat_of_isInfix hrec.factor heq
  · rcases hstate v st' hst' with ⟨st, hst, rfl⟩ | ⟨rfl, rfl⟩ | ⟨rfl, rfl⟩
    · have hv := lt_of_getElem? hst
      refine h.says_redirected hlen ht hq hrec hext hne hname hnameCur hnameClone hst ?_ fun u => ?_
      · split
        case isTrue hqv =>
          refine nodup_replaceChild (h.nodup v st hst) (hchildq hst hqv) fun hmem => ?_
          obtain ⟨su, hsu, -⟩ := (h.children v st hst _).mp hmem
          have := lt_of_getElem? hsu
          omega
        case isFalse => exact h.nodup v st hst
      · rw [hlinked, ← h.children v st hst u, or_iff_right (a := v = S.length + 1 ∧ _) (by omega)]
        split
        case isTrue hqv =>
          rw [mem_replaceChild (h.nodup v st hst) (hchildq hst hqv), and_iff_left hqv, or_comm, and_comm]
        case isFalse hqv =>
          rw [or_iff_left fun hc => hqv hc.2]
          refine ⟨fun hu => ⟨?_, hu⟩, And.right⟩
          rintro rfl
          obtain ⟨su, hsu, hlink⟩ := (h.children v st hst u).mp hu
          exact hqv (Option.some.inj (hqState.symm.trans hsu) ▸ hlink)
    · refine says_new hrec hnameCur (by omega) hnameClone fun u su hsu hlink => ?_
      rcases (hlinked u _).mp ⟨su, hsu, hlink⟩ with ⟨-, su, hsu, hlink⟩ | ⟨hc, -⟩ | ⟨-, hlink⟩
      · exact lt_irrefl _ (hlt hsu hlink)
      · omega
      · exact lt_irrefl _ (hlt hqState hlink)
    · refine h.says_clone hlen hrec hext hne hname hnameCur hnameClone hqState (by simp [hq.ne])
        fun u => ?_
      rw [hlinked, List.mem_pair]
      refine ⟨fun hu => Or.inr (Or.inl ⟨rfl, hu⟩), ?_⟩
      rintro (⟨-, su, hsu, hlink⟩ | ⟨-, hu⟩ | ⟨-, hlink⟩)
      · have := hlt hsu hlink
        omega
      · exact hu
      · have := hlt hqState hlink
        omega

end Names

/-! ## Feeding a symbol -/

lemma getElem?_attach (states : List (CdawgState F)) (q cur v : ℕ) :
    (attach states q cur)[v]? = (states[v]?).map fun st => { st with
      link := if v = cur then some q else st.link
      slChildren := if v = q then st.slChildren ++ [cur] else st.slChildren } := by
  unfold attach
  rw [List.getElem?_modify, List.getElem?_modify]
  cases states[v]? with
  | none => rfl
  | some st =>
    by_cases hcur : cur = v <;> by_cases hq : q = v <;> simp [hcur, hq, eq_comm (a := v)]

section Split

variable [Zero F] {states : List (CdawgState F)} {qState : CdawgState F} {len cur : ℕ}

lemma length_split : (split states q qState len cur).length = states.length + 1 := by
  unfold split
  cases qState.link <;> simp

/-- What a split does to a state that was there. -/
lemma getElem?_split (hv : v < states.length) (hst : states[v]? = some st) :
    (split states q qState len cur)[v]? = some { st with
      link := if v = q ∨ v = cur then some states.length else st.link
      slChildren := if qState.link = some v then replaceChild st.slChildren q states.length
        else st.slChildren } := by
  have hclone : states.length ≠ v := hv.ne'
  have happend : (states ++ [cloneState qState len])[v]? = some st :=
    (List.getElem?_append_left hv).trans hst
  unfold split
  cases hlink : qState.link with
  | none =>
    simp only [List.getElem?_modify, happend, if_neg hclone]
    by_cases hq : q = v <;> by_cases hcur : cur = v <;> simp [hq, hcur, eq_comm (a := v)]
  | some old =>
    simp only [List.getElem?_modify, happend, if_neg hclone]
    by_cases hq : q = v <;> by_cases hcur : cur = v <;> by_cases hold : old = v <;>
      simp [hq, hcur, hold, eq_comm (a := v)]

/-- The clone. -/
lemma getElem?_split_length (hq : q < states.length) (hcur : cur < states.length)
    (hold : ∀ u, qState.link = some u → u < states.length) :
    (split states q qState len cur)[states.length]? =
      some { cloneState qState len with slChildren := [q, cur] } := by
  unfold split
  cases hlink : qState.link with
  | none => simp [hq.ne, hcur.ne, cloneState]
  | some old => simp [hq.ne, hcur.ne, (hold old hlink).ne, cloneState]

end Split

/-- What feeding a symbol does. -/
structure Fed (turn : ℕ → ℕ) (w : List ℕ) (c : ℕ) (name : ℕ → List ℕ) (o : CdawgOrgan F) (name' : ℕ → List ℕ)
    (o' : CdawgOrgan F) : Prop where
  exact : Exact turn (w ++ [c]) name' o'.states
  last : o'.last < o'.states.length
  name_last : name' o'.last = w ++ [c]
  le_length : o.states.length ≤ o'.states.length
  length_le : o'.states.length ≤ o.states.length + 2
  /-- The states that were there keep their names, their turns and what was recorded on them. -/
  kept : ∀ (v : ℕ) (st : CdawgState F), o.states[v]? = some st → name' v = name v ∧
    ∃ st', o'.states[v]? = some st' ∧ st'.endpos = st.endpos ∧ st'.succCount = st.succCount ∧
      st'.failCount = st.failCount ∧ st'.credit = st.credit ∧ st'.qValue = st.qValue
  /-- Nothing is recorded on a new state; it has the turn, or the turns of another state. -/
  fresh : ∀ (v : ℕ) (st' : CdawgState F), o'.states[v]? = some st' → o.states.length ≤ v →
    st'.succCount = 0 ∧ st'.failCount = 0 ∧ (st'.endpos = {turn w.length} ∨
      ∃ q st, q ≠ 0 ∧ o.states[q]? = some st ∧ st'.endpos = st.endpos)

variable {o : CdawgOrgan F}

/-- The states behind the walk that adds transitions. -/
lemma Exact.addTransitions (h : Exact turn w name o.states) (hlast : o.last < o.states.length)
    (hname : name o.last = w) (c : ℕ) (newState : CdawgState F) :
    ∃ S₁ r, CdawgOrgan.addTransitions c o.states.length (w.length + 1) (o.states ++ [newState]) o.last =
        some (S₁, r) ∧ S₁.length = o.states.length + 1 ∧
      (∀ v st, o.states[v]? = some st → S₁[v]? = some (led name w c o.states.length v st)) ∧
      S₁[o.states.length]? = some newState ∧
      StopsAt name o.states.length o.states w (fun st => (st.transitions.lookup c).isNone) r := by
  have happend : ∀ {v}, v < o.states.length → (o.states ++ [newState])[v]? = o.states[v]? :=
    fun hv => List.getElem?_append_left hv
  obtain ⟨S₁, r, hr, hlen, hchanged, hkept, hstop⟩ := exists_climbed
    (fun st => (st.transitions.lookup c).isNone)
    (·.lead c o.states.length) (h.chained (x := name o.last) (by simp) fun v st' hv _ hst' =>
      ⟨st', (happend hv).symm.trans hst', rfl⟩) hlast
    (by rw [hname]; exact Nat.lt_succ_self _) (by
      intro u hu v hv su sv hsu hsv _ hvu hnone
      rw [happend hu] at hsu
      rw [happend hv] at hsv
      rw [Option.isNone_iff_eq_none] at hnone ⊢
      rw [h.lookup_eq_none_iff hsv] at hnone
      rw [h.lookup_eq_none_iff hsu]
      exact fun hfac => hnone ((List.suffix_append_self_iff.mpr hvu).isInfix.trans hfac))
  rw [hname] at hstop hchanged hkept
  refine ⟨S₁, r, hr, by simp [hlen], fun v st hst => ?_, ?_, ?_⟩
  · have hv := lt_of_getElem? hst
    have hst' : (o.states ++ [newState])[v]? = some st := (happend hv).trans hst
    unfold led
    split
    case isTrue hc => exact hchanged v st hst' ⟨hv, hc.1, Option.isNone_iff_eq_none.mpr hc.2⟩
    case isFalse hc =>
      exact hkept v st hst' fun hc' => hc ⟨hc'.2.1, Option.isNone_iff_eq_none.mp hc'.2.2⟩
  · exact hkept _ _ List.getElem?_concat_length fun hc => lt_irrefl _ hc.1
  · cases r with
    | none => exact fun v hv sv hsv hs => hstop v hv sv ((happend hv).trans hsv) hs
    | some p =>
      obtain ⟨hp, hs, ⟨sp, hsp, hc⟩, hlongest⟩ := hstop
      exact ⟨hp, hs, ⟨sp, (happend hp).symm.trans hsp, hc⟩,
        fun v hv sv hsv => hlongest v hv sv ((happend hv).trans hsv)⟩

/-- The new state is linked to a state that is there. -/
lemma Exact.fed_attach [Zero F] (h : Exact turn w name o.states) (hq : q < o.states.length)
    (hrec : Recurs w c (name q)) {S₁ : List (CdawgState F)} (hlen : S₁.length = o.states.length + 1)
    (hold : ∀ v st, o.states[v]? = some st → S₁[v]? = some (led name w c o.states.length v st))
    (hcur : S₁[o.states.length]? = some (wholeState turn w none)) :
    Fed turn w c name o (Function.update name o.states.length (w ++ [c]))
      { o with states := CdawgOrgan.attach S₁ q o.states.length, last := o.states.length } := by
  have hattach : ∀ v st, o.states[v]? = some st → (CdawgOrgan.attach S₁ q o.states.length)[v]? =
      some (joined name w c q o.states.length v st) := by
    intro v st hst
    have hne := (lt_of_getElem? hst).ne
    rw [getElem?_attach, hold v st hst, Option.map_some]
    simp only [if_neg hne, led_slChildren, joined]
  have hnew : (CdawgOrgan.attach S₁ q o.states.length)[o.states.length]? =
      some (wholeState turn w (some q)) := by
    rw [getElem?_attach, hcur, Option.map_some]
    simp only [if_neg hq.ne']
    rfl
  have hlen' : (CdawgOrgan.attach S₁ q o.states.length).length = o.states.length + 1 := by
    unfold CdawgOrgan.attach
    rw [List.length_modify, List.length_modify, hlen]
  refine ⟨h.attach hq hrec hlen' hattach hnew, ?_, ?_, ?_, ?_, ?_, ?_⟩
  · exact hlen'.symm ▸ Nat.lt_succ_self _
  · exact Function.update_self ..
  · exact hlen'.symm ▸ Nat.le_succ _
  · exact hlen'.symm ▸ Nat.le_succ _
  · intro v st hst
    refine ⟨Function.update_of_ne (lt_of_getElem? hst).ne .., _, hattach v st hst, ?_⟩
    unfold joined led
    split <;> exact ⟨rfl, rfl, rfl, rfl, rfl⟩
  · intro v st' hst' hv
    obtain rfl : v = o.states.length := by
      have hlt : v < (CdawgOrgan.attach S₁ q o.states.length).length := lt_of_getElem? hst'
      omega
    rw [← Option.some.inj (hnew.symm.trans hst')]
    exact ⟨rfl, rfl, Or.inl rfl⟩

/-- The new state, and the state where the symbol led, are linked to a copy of the latter. -/
lemma Exact.fed_split [Zero F] (h : Exact turn w name o.states) {p : ℕ} (hp : p < o.states.length)
    (hq : q < o.states.length) (hrec : Recurs w c (name p ++ [c]))
    (hext : Extends w (name p ++ [c]) (name q)) (hne : name p ++ [c] ≠ name q)
    {S₁ : List (CdawgState F)} (hlen : S₁.length = o.states.length + 1)
    (hold : ∀ v st, o.states[v]? = some st → S₁[v]? = some (led name w c o.states.length v st))
    (hcur : S₁[o.states.length]? = some (wholeState turn w none))
    {qState : CdawgState F} (hqState : o.states[q]? = some qState) :
    ∃ S' r, redirect c q S₁.length ((name p).length + 1)
        (CdawgOrgan.split S₁ q (led name w c o.states.length q qState) ((name p).length + 1)
          o.states.length) p = some (S', r) ∧
      Fed turn w c name o (Function.update (Function.update name o.states.length (w ++ [c]))
          (o.states.length + 1) (name p ++ [c]))
        { o with states := S', last := o.states.length } := by
  set S₂ := CdawgOrgan.split S₁ q (led name w c o.states.length q qState) ((name p).length + 1)
    o.states.length with hS₂
  have hS₂len : S₂.length = o.states.length + 2 := by rw [hS₂, length_split, hlen]
  have hlt : ∀ {v}, v < o.states.length → v < S₁.length := fun hv => by omega
  have hS₂old : ∀ v st, o.states[v]? = some st → S₂[v]? = some { led name w c o.states.length v st with
      link := if v = q then some (o.states.length + 1) else st.link
      slChildren := if qState.link = some v then
        replaceChild st.slChildren q (o.states.length + 1) else st.slChildren } := by
    intro v st hst
    have hv := lt_of_getElem? hst
    rw [hS₂, getElem?_split (hlt hv) (hold v st hst)]
    simp only [hv.ne, or_false, led_link, led_slChildren, hlen]
  have hS₂cur : S₂[o.states.length]? = some (wholeState turn w (some (o.states.length + 1))) := by
    rw [hS₂, getElem?_split (by omega) hcur]
    have hlink : ¬ (led name w c o.states.length q qState).link = some o.states.length := by
      rw [led_link]
      intro hlink
      exact lt_irrefl _ ((h.link q qState hqState _).mp hlink).1
    simp only [hlink, or_true, if_true, if_false, hlen]
    rfl
  have hS₂clone : S₂[o.states.length + 1]? = some
      { cloneState (led name w c o.states.length q qState) ((name p).length + 1) with
        slChildren := [q, o.states.length] } := by
    rw [hS₂, ← hlen]
    refine getElem?_split_length (by omega) (by omega) fun u hu => ?_
    rw [led_link] at hu
    exact hlt ((h.link q qState hqState u).mp hu).1
  have hqlong : (name p).length + 1 < (name q).length := by
    have hle := hext.suffix.length_le
    rw [List.length_append, List.length_singleton] at hle
    refine lt_of_le_of_ne hle fun heq => hne (hext.suffix.eq_of_length ?_)
    rw [List.length_append, List.length_singleton, heq]
  have hnotq : ∀ {v}, name v <:+ name p → v ≠ q := by
    rintro v hs rfl
    have := hs.length_le
    omega
  have hchained : Chained name o.states.length S₂ (name p) := by
    refine h.chained (by omega) fun v st' hv hs hst' => ?_
    have hst : o.states[v]? = some o.states[v] := List.getElem?_eq_getElem hv
    rw [hS₂old v _ hst] at hst'
    exact ⟨_, hst, by rw [← Option.some.inj hst', if_neg (hnotq hs)]⟩
  have hlook : ∀ {v st}, v < o.states.length → S₂[v]? = some st → ∃ st₀, o.states[v]? = some st₀ ∧
      st.transitions = (led name w c o.states.length v st₀).transitions := by
    intro v st hv hst
    have hst₀ : o.states[v]? = some o.states[v] := List.getElem?_eq_getElem hv
    rw [hS₂old v _ hst₀] at hst
    exact ⟨_, hst₀, by rw [← Option.some.inj hst]⟩
  obtain ⟨S', r, hr, hS'len, hchanged, hkept, -⟩ := exists_climbed
    (fun st => decide (st.transitions.lookup c = some q))
    (·.lead c S₁.length) hchained hp (Nat.lt_succ_self _) (by
      -- what a shorter name and the symbol extend to, a longer one and the symbol extend to
      intro u hu v hv su sv hsu hsv hup hvu hcond
      obtain ⟨su₀, hsu₀, htu⟩ := hlook hu hsu
      obtain ⟨sv₀, hsv₀, htv⟩ := hlook hv hsv
      have hsvq := of_decide_eq_true hcond
      rw [htv] at hsvq
      rcases h.lookup_led hsv₀ hsvq with ⟨rfl, -⟩ | ⟨-, hv'⟩
      · exact absurd hq (lt_irrefl _)
      have hu' : Extends w (name u ++ [c]) (name q) := by
        refine ⟨(List.suffix_append_self_iff.mpr hup).trans hext.suffix, fun i hi => ?_, hv'.longest⟩
        exact hv'.accompanies i (hi.of_suffix (List.suffix_append_self_iff.mpr hvu))
      have hsuq := (h.next u su₀ hsu₀ c q).mpr ⟨hq, hu'⟩
      refine decide_eq_true ?_
      rw [htu, led, if_neg]
      · exact hsuq
      · rw [hsuq]
        exact fun hc => Option.some_ne_none q hc.2)
  refine ⟨S', r, hr, ?_⟩
  rw [hS₂len] at hS'len
  have hS'old : ∀ v st, o.states[v]? = some st →
      S'[v]? = some (splitOff name w (name p) c q qState o.states.length v st) := by
    intro v st hst
    unfold splitOff redirected
    split
    case isTrue hc =>
      rw [hchanged v _ (hS₂old v st hst) ⟨lt_of_getElem? hst, hc.1, decide_eq_true hc.2⟩, hlen]
      rfl
    case isFalse hc =>
      exact hkept v _ (hS₂old v st hst) fun hc' => hc ⟨hc'.2.1, of_decide_eq_true hc'.2.2⟩
  have hS'cur := hkept _ _ hS₂cur fun hc => lt_irrefl _ hc.1
  have hS'clone := hkept _ _ hS₂clone fun hc => absurd hc.1 (by omega)
  refine ⟨h.split rfl hq hrec hext hne hS'len hqState hS'old hS'cur ?_, ?_, ?_, ?_, ?_, ?_, ?_⟩
  · rw [hS'clone, List.length_append, List.length_singleton]
  · change o.states.length < S'.length
    omega
  · change Function.update _ _ _ o.states.length = _
    rw [Function.update_of_ne (by omega), Function.update_self]
  · change o.states.length ≤ S'.length
    omega
  · exact hS'len.le
  · intro v st hst
    have hv := lt_of_getElem? hst
    refine ⟨?_, _, hS'old v st hst, ?_⟩
    · rw [Function.update_of_ne (by omega), Function.update_of_ne hv.ne]
    · unfold splitOff redirected led
      split <;> split <;> exact ⟨rfl, rfl, rfl, rfl, rfl⟩
  · intro v st' hst' hv
    have hv' : v < o.states.length + 2 := hS'len ▸ lt_of_getElem? hst'
    rcases (by omega : v = o.states.length ∨ v = o.states.length + 1) with rfl | rfl
    · rw [← Option.some.inj (hS'cur.symm.trans hst')]
      exact ⟨rfl, rfl, Or.inl rfl⟩
    · rw [← Option.some.inj (hS'clone.symm.trans hst')]
      refine ⟨rfl, rfl, Or.inr ⟨q, qState, ?_, hqState, led_endpos q qState⟩⟩
      rintro rfl
      rw [h.root] at hqlong
      exact absurd hqlong (Nat.not_lt_zero _)

/-- Feeding a symbol with its turn ends, and keeps the automaton exact. -/
theorem Exact.extend [Zero F] (h : Exact turn w name o.states) (hlast : o.last < o.states.length)
    (hname : name o.last = w) (c : ℕ) :
    ∃ o' name', o.extend c (turn w.length) = some o' ∧ Fed turn w c name o name' o' := by
  have hlastState : o.states[o.last]? = some o.states[o.last] := List.getElem?_eq_getElem hlast
  have hlastLen : o.states[o.last].len = w.length := by rw [h.len _ _ hlastState, hname]
  obtain ⟨S₁, r, hr, hlen, hold, hcur, hstop⟩ := h.addTransitions hlast hname c
    (wholeState turn w none)
  unfold wholeState at hr
  unfold CdawgOrgan.extend
  simp only [hlastState, Option.bind_eq_bind, Option.bind_some, hlastLen, hr]
  cases r with
  | none =>
    -- the symbol is new
    have hnew : ¬ [c] <:+: w := by
      have hzero := hstop 0 h.pos _ (List.getElem?_eq_getElem h.pos) (h.root ▸ List.nil_suffix)
      rw [Option.isNone_iff_eq_none, h.lookup_eq_none_iff (List.getElem?_eq_getElem h.pos), h.root]
        at hzero
      exact hzero
    exact ⟨_, _, rfl, h.fed_attach h.pos (h.root.symm ▸ recurs_nil hnew) hlen hold hcur⟩
  | some p =>
    obtain ⟨hp, hpw, ⟨pState, hpState, hsome⟩, hlongest⟩ := hstop
    cases hlook : pState.transitions.lookup c with
    | none =>
      dsimp only at hsome
      rw [hlook] at hsome
      exact Bool.noConfusion hsome
    | some q =>
      obtain ⟨hq, hext⟩ := (h.next p pState hpState c q).mp hlook
      have hqState : o.states[q]? = some o.states[q] := List.getElem?_eq_getElem hq
      have hrec : Recurs w c (name p ++ [c]) := by
        refine recurs_concat hpw hext.factor fun x hx hxw hxc => ?_
        obtain ⟨v, hv, rfl⟩ := h.exists_name x hx
        have hst := List.getElem?_eq_getElem hv
        refine hlongest v hv _ hst hxw (Bool.eq_false_iff.mpr fun hnone => ?_)
        exact (h.lookup_eq_none_iff hst c).mp (Option.isNone_iff_eq_none.mp hnone) hxc
      have hpLed : led name w c o.states.length p pState = pState := by
        rw [led, if_neg]
        rw [hlook]
        exact fun hc => Option.some_ne_none q hc.2
      have hpState₁ : S₁[p]? = some pState := by rw [hold p pState hpState, hpLed]
      simp only [hpState₁, Option.bind_some, hlook, hold q _ hqState, led_len, h.len p _ hpState,
        h.len q _ hqState]
      split
      case isTrue heq =>
        have hpq : name p ++ [c] = name q := hext.suffix.eq_of_length (by
          rw [List.length_append, List.length_singleton, heq])
        exact ⟨_, _, rfl, h.fed_attach hq (hpq ▸ hrec) hlen hold hcur⟩
      case isFalse hneq =>
        have hne : name p ++ [c] ≠ name q := by
          intro hpq
          rw [← hpq, List.length_append, List.length_singleton] at hneq
          exact hneq rfl
        obtain ⟨S', r, hr', hfed⟩ := h.fed_split hp hq hrec hext hne hlen hold hcur hqState
        simp only [hr', Option.bind_some]
        exact ⟨_, _, rfl, hfed⟩

end ChittaField.CdawgOrgan
