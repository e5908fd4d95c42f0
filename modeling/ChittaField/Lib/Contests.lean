import Mathlib.Data.Finset.Option

/-!
# Contests

The items of a list have keys, and each item contests the champion of its key: it takes its place if
it beats it, and is a loser if it does not; then the former champion is one.  What beats what need
not be an order.

What happens under some keys does not depend on the items under the others (`contests_filter`), and
the items that have not lost have different keys (`nodup_survivors`).
-/

namespace ChittaField

variable {ι κ : Type*} [DecidableEq ι] [DecidableEq κ]

/-- One item contests the champion of its key; the champions, and the losers. -/
def contest (key : ι → κ) (beats : ι → ι → Bool) (s : (κ → Option ι) × Finset ι) (i : ι) :
    (κ → Option ι) × Finset ι :=
  match s.1 (key i) with
  | none => (Function.update s.1 (key i) (some i), s.2)
  | some b =>
    if beats i b then (Function.update s.1 (key i) (some i), insert b s.2) else (s.1, insert i s.2)

/-- The contests of a list, one after the other. -/
def contests (key : ι → κ) (beats : ι → ι → Bool) (l : List ι) : (κ → Option ι) × Finset ι :=
  l.foldl (contest key beats) (fun _ => none, ∅)

variable {key : ι → κ} {beats : ι → ι → Bool} {l : List ι} {i : ι} {k : κ}

lemma contests_concat (l : List ι) (i : ι) :
    contests key beats (l ++ [i]) = contest key beats (contests key beats l) i := by
  rw [contests, List.foldl_append]
  rfl

variable {s : (κ → Option ι) × Finset ι}

/-- An item that takes the place of the champion of its key, if there is one. -/
lemma contest_of_win (h : ∀ b ∈ s.1 (key i), beats i b = true) : contest key beats s i =
      (Function.update s.1 (key i) (some i), (s.1 (key i)).toFinset ∪ s.2) := by
  unfold contest
  cases hk : s.1 (key i) with
  | none => simp
  | some b =>
    simp only [h b hk, if_true]
    exact congrArg (Prod.mk _) (Finset.insert_eq b s.2)

/-- An item that loses against the champion of its key. -/
lemma contest_of_loss {b : ι} (hk : s.1 (key i) = some b) (h : beats i b = false) :
    contest key beats s i = (s.1, insert i s.2) := by
  simp [contest, hk, h]

/-! ## Champions and losers -/

/-- What the contests of a list come to: a champion is an item with its key that has not lost, and
the losers are the other items. -/
structure Decided (key : ι → κ) (l : List ι) (s : (κ → Option ι) × Finset ι) : Prop where
  champion : ∀ k b, s.1 k = some b → b ∈ l ∧ key b = k ∧ b ∉ s.2
  loser : ∀ i ∈ s.2, i ∈ l ∧ (s.1 (key i)).isSome
  settled : ∀ i ∈ l, i ∉ s.2 → s.1 (key i) = some i

/-- One more item that wins. -/
lemma Decided.win (h : Decided key l s) (hi : i ∉ l) : Decided key (l ++ [i])
      (Function.update s.1 (key i) (some i), (s.1 (key i)).toFinset ∪ s.2) := by
  have hlast : i ∈ l ++ [i] := List.mem_concat_self
  have hnot : i ∉ (s.1 (key i)).toFinset ∪ s.2 := by
    rw [Finset.mem_union, Option.mem_toFinset]
    rintro (hb | hb)
    · exact hi (h.champion _ _ hb).1
    · exact hi (h.loser _ hb).1
  refine ⟨fun k b hb => ?_, fun b hb => ?_, fun b hb hbnot => ?_⟩
  · dsimp only at hb ⊢
    by_cases hkey : k = key i
    · subst hkey
      obtain rfl : i = b := by simpa using hb
      exact ⟨hlast, rfl, hnot⟩
    · rw [Function.update_of_ne hkey] at hb
      obtain ⟨hmem, rfl, hlost⟩ := h.champion k b hb
      refine ⟨List.mem_append_left _ hmem, rfl, ?_⟩
      rw [Finset.mem_union, Option.mem_toFinset]
      rintro (hc | hc)
      · exact hkey (h.champion _ _ hc).2.1
      · exact hlost hc
  · have hold : b ∈ l ∧ (s.1 (key b)).isSome := by
      rcases Finset.mem_union.mp hb with hb | hb
      · rw [Option.mem_toFinset] at hb
        obtain ⟨hmem, hkey, -⟩ := h.champion _ _ hb
        exact ⟨hmem, by rw [hkey, hb]; rfl⟩
      · exact h.loser b hb
    refine ⟨List.mem_append_left _ hold.1, ?_⟩
    by_cases hkey : key b = key i
    · simp [hkey]
    · exact (congrArg Option.isSome (Function.update_of_ne hkey ..)).trans hold.2
  · rw [Finset.mem_union, Option.mem_toFinset, not_or] at hbnot
    rcases List.mem_append.mp hb with hmem | hmem
    · have hsome := h.settled b hmem hbnot.2
      have hkey : key b ≠ key i := fun e => hbnot.1 (e ▸ hsome)
      exact (Function.update_of_ne hkey ..).trans hsome
    · obtain rfl := List.mem_singleton.mp hmem
      exact Function.update_self ..

omit [DecidableEq κ] in
/-- One more item that loses. -/
lemma Decided.lose (h : Decided key l s) (hi : i ∉ l) (hsome : (s.1 (key i)).isSome) :
    Decided key (l ++ [i]) (s.1, insert i s.2) := by
  refine ⟨fun k b hb => ?_, fun b hb => ?_, fun b hb hbnot => ?_⟩
  · obtain ⟨hmem, hkey, hlost⟩ := h.champion k b hb
    have hne : b ≠ i := fun e => hi (e ▸ hmem)
    exact ⟨List.mem_append_left _ hmem, hkey, by simp [hne, hlost]⟩
  · rcases Finset.mem_insert.mp hb with rfl | hb
    · exact ⟨List.mem_concat_self, hsome⟩
    · exact ⟨List.mem_append_left _ (h.loser b hb).1, (h.loser b hb).2⟩
  · rw [Finset.mem_insert, not_or] at hbnot
    rcases List.mem_append.mp hb with hmem | hmem
    · exact h.settled b hmem hbnot.2
    · exact absurd (List.mem_singleton.mp hmem) hbnot.1

/-- One more item. -/
lemma Decided.contest (h : Decided key l s) (hi : i ∉ l) :
    Decided key (l ++ [i]) (contest key beats s i) := by
  cases hk : s.1 (key i) with
  | none =>
    rw [contest_of_win (by simp [hk])]
    exact h.win hi
  | some b =>
    cases hb : beats i b with
    | true =>
      rw [contest_of_win (by simp [hk, hb])]
      exact h.win hi
    | false =>
      rw [contest_of_loss hk hb]
      exact h.lose hi (by simp [hk])

/-- The contests of different items are decided. -/
theorem decided_contests (h : l.Nodup) : Decided key l (contests key beats l) := by
  induction l using List.reverseRecOn with
  | nil =>
    exact ⟨fun _ _ h => (nomatch h), fun _ h => absurd h (Finset.notMem_empty _),
      List.forall_mem_nil _⟩
  | append_singleton l i ih =>
    rw [contests_concat]
    obtain ⟨hl, -, hdisjoint⟩ := List.nodup_append.mp h
    exact (ih hl).contest fun hi => hdisjoint i hi i (List.mem_singleton_self i) rfl

/-- The items that have not lost have different keys. -/
theorem nodup_survivors (h : l.Nodup) :
    ((l.filter (· ∉ (contests key beats l).2)).map key).Nodup := by
  have hd : Decided key l (contests key beats l) := decided_contests h
  refine List.Nodup.map_on (fun i hi j hj hkey => ?_) (h.filter _)
  simp only [List.mem_filter, decide_eq_true_eq] at hi hj
  have hisome := hd.settled i hi.1 hi.2
  have hjsome := hd.settled j hj.1 hj.2
  rw [hkey, hjsome] at hisome
  exact (Option.some.inj hisome).symm

/-- Where all keys are different nothing loses. -/
lemma losers_of_nodup (h : (l.map key).Nodup) : (contests key beats l).2 = ∅ := by
  have hd : Decided key l (contests key beats l) := decided_contests (List.Nodup.of_map _ h)
  refine Finset.eq_empty_of_forall_notMem fun i hi => ?_
  obtain ⟨hmem, hsome⟩ := hd.loser i hi
  obtain ⟨b, hb⟩ := Option.isSome_iff_exists.mp hsome
  obtain ⟨hbmem, hbkey, hbnot⟩ := hd.champion _ b hb
  obtain rfl := List.inj_on_of_nodup_map h hbmem hmem hbkey
  exact hbnot hi

/-! ## Parts and images -/

/-- A champion is an item with its key. -/
lemma champion_mem {b : ι} (h : (contests key beats l).1 k = some b) : b ∈ l ∧ key b = k := by
  induction l using List.reverseRecOn generalizing b with
  | nil => cases h
  | append_singleton l i ih =>
    have hold : (contests key beats l).1 k = some b → b ∈ l ++ [i] ∧ key b = k := fun hb =>
      ⟨List.mem_append_left _ (ih hb).1, (ih hb).2⟩
    have hwin : Function.update (contests key beats l).1 (key i) (some i) k = some b →
        b ∈ l ++ [i] ∧ key b = k := by
      intro hb
      by_cases hkey : k = key i
      · subst hkey
        obtain rfl : i = b := by simpa using hb
        exact ⟨List.mem_concat_self, rfl⟩
      · rw [Function.update_of_ne hkey] at hb
        exact hold hb
    rw [contests_concat, contest] at h
    split at h
    · exact hwin h
    · split at h
      · exact hwin h
      · exact hold h

/-- The contests under some keys are those of the items with these keys. -/
theorem contests_filter (key : ι → κ) (beats : ι → ι → Bool) (p : κ → Bool) (l : List ι) :
    (∀ k, p k = true → (contests key beats (l.filter fun i => p (key i))).1 k =
        (contests key beats l).1 k) ∧
      (contests key beats (l.filter fun i => p (key i))).2 =
        (contests key beats l).2.filter fun i => p (key i) := by
  induction l using List.reverseRecOn with
  | nil => exact ⟨fun _ _ => rfl, rfl⟩
  | append_singleton l i ih =>
    obtain ⟨hchampion, hlosers⟩ := ih
    rw [List.filter_append, contests_concat]
    by_cases hp : p (key i) = true
    · have hone : [i].filter (fun i => p (key i)) = [i] := by simp [hp]
      rw [hone, contests_concat]
      have hsame := hchampion (key i) hp
      cases hk : (contests key beats l).1 (key i) with
      | none =>
        rw [hk] at hsame
        rw [contest_of_win (by simp [hsame]), contest_of_win (by simp [hk]), hk, hsame]
        refine ⟨fun k hk => ?_, by simpa using hlosers⟩
        by_cases hkey : k = key i
        · simp [hkey]
        · simp [hkey, hchampion k hk]
      | some b =>
        rw [hk] at hsame
        have hbp : p (key b) = true := (champion_mem hk).2.symm ▸ hp
        cases hb : beats i b with
        | true =>
          rw [contest_of_win (by simp [hsame, hb]), contest_of_win (by simp [hk, hb]), hk, hsame]
          refine ⟨fun k hk => ?_, ?_⟩
          · by_cases hkey : k = key i
            · simp [hkey]
            · simp [hkey, hchampion k hk]
          · simp only [Option.toFinset_some, Finset.filter_union, hlosers, Finset.filter_singleton,
              hbp, if_true]
        | false =>
          rw [contest_of_loss hk hb, contest_of_loss hsame hb]
          exact ⟨hchampion, by rw [Finset.filter_insert, if_pos hp, hlosers]⟩
    · have hnone : [i].filter (fun i => p (key i)) = [] := by simp [hp]
      have hne : ∀ k, p k = true → k ≠ key i := fun k hk e => hp (e ▸ hk)
      rw [hnone, List.append_nil]
      cases hk : (contests key beats l).1 (key i) with
      | none =>
        rw [contest_of_win (by simp [hk]), hk]
        exact ⟨fun k hk => by simp [hne k hk, hchampion k hk], by simpa using hlosers⟩
      | some b =>
        have hbp : ¬p (key b) = true := (champion_mem hk).2.symm ▸ hp
        cases hb : beats i b with
        | true =>
          rw [contest_of_win (by simp [hk, hb]), hk]
          refine ⟨fun k hk => by simp [hne k hk, hchampion k hk], ?_⟩
          simp only [Option.toFinset_some, Finset.filter_union, hlosers, Finset.filter_singleton, hbp,
            if_false, Finset.empty_union, Bool.false_eq_true]
        | false =>
          rw [contest_of_loss hk hb]
          exact ⟨hchampion, by rw [Finset.filter_insert, if_neg hp, hlosers]⟩

/-- The contests of renamed items. -/
theorem contests_map {ι' : Type*} [DecidableEq ι'] {φ : ι → ι'} {key' : ι' → κ}
    {beats' : ι' → ι' → Bool} {l : List ι} (hkey : ∀ i ∈ l, key' (φ i) = key i)
    (hbeats : ∀ i ∈ l, ∀ j ∈ l, beats' (φ i) (φ j) = beats i j) :
    (∀ k, (contests key' beats' (l.map φ)).1 k = ((contests key beats l).1 k).map φ) ∧
      (contests key' beats' (l.map φ)).2 = (contests key beats l).2.image φ := by
  induction l using List.reverseRecOn with
  | nil => exact ⟨fun _ => rfl, rfl⟩
  | append_singleton l i ih =>
    have hi : i ∈ l ++ [i] := List.mem_concat_self
    obtain ⟨hchampion, hlosers⟩ := ih (List.forall_mem_append.mp hkey).1
      fun j hj j' hj' => hbeats j (List.mem_append_left _ hj) j' (List.mem_append_left _ hj')
    have hikey := hkey i hi
    have hupdate : ∀ k, Function.update (contests key' beats' (l.map φ)).1 (key i) (some (φ i)) k =
        (Function.update (contests key beats l).1 (key i) (some i) k).map φ := by
      intro k
      by_cases hk : k = key i
      · simp [hk]
      · simp [hk, hchampion k]
    rw [List.map_append, List.map_singleton, contests_concat, contests_concat]
    have hsame := hchampion (key i)
    cases hk : (contests key beats l).1 (key i) with
    | none =>
      rw [hk, Option.map_none, ← hikey] at hsame
      rw [contest_of_win (by simp [hsame]), contest_of_win (by simp [hk]), hk, hsame, hikey]
      exact ⟨hupdate, by simpa using hlosers⟩
    | some b =>
      rw [hk, Option.map_some, ← hikey] at hsame
      have hb' := hbeats i hi b (List.mem_append_left _ (champion_mem hk).1)
      cases hb : beats i b with
      | true =>
        rw [hb] at hb'
        rw [contest_of_win (by simp [hsame, hb']), contest_of_win (by simp [hk, hb]), hk, hsame, hikey]
        refine ⟨hupdate, ?_⟩
        simp only [Option.toFinset_some, Finset.image_union, Finset.image_singleton, hlosers]
      | false =>
        rw [hb] at hb'
        rw [contest_of_loss hk hb, contest_of_loss hsame hb']
        exact ⟨hchampion, by rw [Finset.image_insert, hlosers]⟩

end ChittaField
