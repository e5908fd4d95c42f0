import ChittaField.Lib.Lists
import ChittaField.Spans.Edges

/-!
# Trigrams

Where there are many spans, a query looks only at those that share a trigram with it.
`trigrams_invisible` says that it finds what it would find among all spans, in the same order: an atom
that matches contains a token of the query, or is contained in the query, and either has at least five
bytes.
-/

namespace ChittaField.Spans

variable {u : Unicode} {hash : ℕ → Text → ℕ}

/-! ## Trigrams of parts -/

lemma length_utf8Bytes (t : Text) : (utf8Bytes t).length = utf8Len t := by
  simp [utf8Bytes, utf8Len, List.length_flatMap, String.length_utf8EncodeChar]

lemma utf8Bytes_isInfix {t part : Text} (h : part <:+: t) : utf8Bytes part <:+: utf8Bytes t := by
  obtain ⟨a, b, rfl⟩ := h
  exact ⟨utf8Bytes a, utf8Bytes b, by simp [utf8Bytes, List.flatMap_append]⟩

lemma trigramsOf_subset_of_isPrefix {b b' : List UInt8} (h : b <+: b') :
    SpanStore.trigramsOf b ⊆ SpanStore.trigramsOf b' := by
  obtain ⟨rest, rfl⟩ := h
  induction b using SpanStore.trigramsOf.induct with
  | case1 x y z b ih =>
    simp only [List.cons_append, SpanStore.trigramsOf] at ih ⊢
    exact List.cons_subset_cons _ ih
  | case2 b hshort =>
    have hnil : SpanStore.trigramsOf b = [] := by
      unfold SpanStore.trigramsOf
      split
      · exact absurd rfl (hshort _ _ _ _)
      · rfl
    rw [hnil]
    exact List.nil_subset _

lemma trigramsOf_suffix {b b' : List UInt8} (h : b <:+ b') :
    SpanStore.trigramsOf b ⊆ SpanStore.trigramsOf b' := by
  obtain ⟨front, rfl⟩ := h
  induction front with
  | nil => exact List.Subset.refl _
  | cons x front ih =>
    refine List.Subset.trans ih ?_
    rw [List.cons_append]
    match front ++ b with
    | [] => exact List.nil_subset _
    | [_] => exact List.nil_subset _
    | _ :: _ :: _ => exact List.subset_cons_self ..

/-- The trigrams of a part are trigrams of the whole. -/
lemma trigrams_infix {t part : Text} (h : part <:+: t) :
    SpanStore.trigrams part ⊆ SpanStore.trigrams t := by
  obtain ⟨mid, hpre, hsuffix⟩ := List.infix_iff_prefix_suffix.mp (utf8Bytes_isInfix h)
  exact List.Subset.trans (trigramsOf_subset_of_isPrefix hpre) (trigramsOf_suffix hsuffix)

/-- A text of three bytes has a trigram. -/
lemma exists_trigram {t : Text} (h : 3 ≤ utf8Len t) : ∃ tg, tg ∈ SpanStore.trigrams t := by
  rw [← length_utf8Bytes] at h
  unfold SpanStore.trigrams
  match utf8Bytes t, h with
  | a :: b :: c :: rest, _ => exact ⟨_, List.mem_cons_self⟩

/-! ## Matches -/

/-- The first part of a split is a prefix, the other parts stand somewhere in the text. -/
lemma splitOnP_infix {p : Char → Bool} {t first : Text} {rest : List Text}
    (h : t.splitOnP p = first :: rest) : first <+: t ∧ ∀ part ∈ rest, part <:+: t := by
  induction t generalizing first rest with
  | nil =>
    rw [List.splitOnP_nil] at h
    obtain ⟨rfl, rfl⟩ := List.cons.inj h
    exact ⟨List.prefix_refl _, fun part hpart => absurd hpart List.not_mem_nil⟩
  | cons c t ih =>
    obtain ⟨first', rest', hsplit⟩ := List.exists_cons_of_ne_nil (List.splitOnP_ne_nil p t)
    obtain ⟨hfirst, hrest⟩ := ih hsplit
    have hsuffix : t <:+ c :: t := List.suffix_cons c t
    rw [List.splitOnP_cons_eq_if_modifyHead, hsplit] at h
    by_cases hc : p c = true
    · rw [if_pos hc] at h
      obtain ⟨rfl, rfl⟩ := List.cons.inj h
      exact ⟨List.nil_prefix, List.forall_mem_cons.mpr ⟨hfirst.isInfix.trans hsuffix.isInfix,
        fun part hpart => (hrest part hpart).trans hsuffix.isInfix⟩⟩
    · rw [if_neg hc, List.modifyHead_cons] at h
      obtain ⟨rfl, rfl⟩ := List.cons.inj h
      exact ⟨List.cons_prefix_cons.mpr ⟨rfl, hfirst⟩,
        fun part hpart => (hrest part hpart).trans hsuffix.isInfix⟩

/-- A token is a part of the query. -/
lemma infix_of_mem_queryTokens {ql t : Text} (h : t ∈ SpanStore.queryTokens u ql) : t <:+: ql := by
  have hmem := List.mem_of_mem_filter h
  obtain ⟨first, rest, hsplit⟩ := List.exists_cons_of_ne_nil
    (List.splitOnP_ne_nil (fun c => !u.alphanumeric c && !oneOf "/.-_" c) ql)
  obtain ⟨hfirst, hrest⟩ := splitOnP_infix hsplit
  rw [hsplit] at hmem
  rcases List.mem_cons.mp hmem with rfl | hmem
  · exact hfirst.isInfix
  · exact hrest t hmem

/-- The strength of a match is zero, or the length of the atom in the query, or the length of a token
in the atom. -/
lemma strength_cases (ql tl : Text) (tokens : List Text) :
    SpanStore.strength ql tl tokens = 0 ∨
      (contains ql tl = true ∧ SpanStore.strength ql tl tokens = utf8Len tl) ∨
      ∃ t ∈ tokens, contains tl t = true ∧ SpanStore.strength ql tl tokens = utf8Len t := by
  unfold SpanStore.strength
  suffices hfold : ∀ n : ℕ,
      tokens.foldl (fun strength t =>
        if strength < utf8Len t ∧ contains tl t then utf8Len t else strength) n = n ∨
      ∃ t ∈ tokens, contains tl t = true ∧ tokens.foldl (fun strength t =>
        if strength < utf8Len t ∧ contains tl t then utf8Len t else strength) n = utf8Len t by
    rcases hfold (if 6 ≤ utf8Len tl ∧ contains ql tl then utf8Len tl else 0) with hstart | htoken
    · rw [hstart]
      split_ifs with hwhole
      · exact Or.inr (Or.inl ⟨hwhole.2, rfl⟩)
      · exact Or.inl rfl
    · exact Or.inr (Or.inr htoken)
  intro n
  induction tokens generalizing n with
  | nil => exact Or.inl rfl
  | cons t tokens ih =>
    rw [List.foldl_cons]
    rcases ih (if n < utf8Len t ∧ contains tl t then utf8Len t else n) with hsame | ⟨t', ht', hin, heq⟩
    · rw [hsame]
      split_ifs with hlonger
      · exact Or.inr ⟨t, List.mem_cons_self, hlonger.2, rfl⟩
      · exact Or.inl rfl
    · exact Or.inr ⟨t', List.mem_cons_of_mem _ ht', hin, heq⟩

lemma infix_of_contains {t part : Text} (h : contains t part = true) : part <:+: t :=
  of_decide_eq_true h

/-- What matches shares a trigram with the query. -/
lemma exists_trigram_of_strength {ql tl : Text}
    (h : ¬SpanStore.strength ql tl (SpanStore.queryTokens u ql) < 5) :
    ∃ tg ∈ SpanStore.trigrams ql, tg ∈ SpanStore.trigrams tl := by
  rcases strength_cases ql tl (SpanStore.queryTokens u ql) with
    hzero | ⟨hin, heq⟩ | ⟨t, ht, hin, heq⟩
  · omega
  · obtain ⟨tg, htg⟩ := exists_trigram (t := tl) (by omega)
    exact ⟨tg, trigrams_infix (infix_of_contains hin) htg, htg⟩
  · obtain ⟨tg, htg⟩ := exists_trigram (t := t) (by omega)
    exact ⟨tg, trigrams_infix (infix_of_mem_queryTokens ht) htg,
      trigrams_infix (infix_of_contains hin) htg⟩

/-! ## Bitmaps -/

/-- The spans in front of a position are in the bitmaps of their trigrams, tombstones apart. -/
structure Indexed (u : Unicode) (spans : List SpanEntry) (trigram : ℕ → Finset ℕ) (upTo : ℕ) :
    Prop where
  bounded : upTo ≤ spans.length
  inside : ∀ tg i, i ∈ trigram tg → i < upTo
  covered : ∀ (i : ℕ) (e : SpanEntry), i < upTo → spans[i]? = some e → e.text ≠ [] →
    ∀ tg ∈ SpanStore.trigrams (u.lowercase e.text), i ∈ trigram tg

lemma indexed_empty (spans : List SpanEntry) : Indexed u spans (fun _ => ∅) 0 :=
  ⟨Nat.zero_le _, fun _ _ h => absurd h (Finset.notMem_empty _), fun _ _ h => absurd h (Nat.not_lt_zero _)⟩

namespace Indexed

variable {spans : List SpanEntry} {trigram : ℕ → Finset ℕ} {upTo : ℕ}

/-- A span keeps its text or becomes a tombstone. -/
lemma set (h : Indexed u spans trigram upTo) {i : ℕ} {e e' : SpanEntry} (hi : spans[i]? = some e)
    (htext : e'.text ≠ [] → e'.text = e.text) : Indexed u (spans.set i e') trigram upTo := by
  refine ⟨by rw [List.length_set]; exact h.bounded, h.inside, fun j x hj hx hne => ?_⟩
  rw [getElem?_set_some hi] at hx
  split_ifs at hx with hij
  · obtain rfl := Option.some.inj hx
    have heq := htext hne
    rw [heq] at hne ⊢
    exact h.covered j e hj (hij ▸ hi) hne
  · exact h.covered j x hj hx hne

lemma concat (h : Indexed u spans trigram upTo) (e : SpanEntry) :
    Indexed u (spans ++ [e]) trigram upTo := by
  have hbounded := h.bounded
  refine ⟨by rw [List.length_append]; omega, h.inside, fun j x hj hx hne => ?_⟩
  rw [getElem?_concat, if_neg (by omega)] at hx
  exact h.covered j x hj hx hne

/-- Index the next span. -/
lemma addTrigrams (h : Indexed u spans trigram upTo) (hlt : upTo < spans.length) :
    Indexed u spans (SpanStore.addTrigrams u spans trigram upTo) (upTo + 1) := by
  refine ⟨hlt, fun tg i hi => ?_, fun i e hi he hne tg htg => ?_⟩
  · unfold SpanStore.addTrigrams at hi
    split_ifs at hi
    · rcases Finset.mem_insert.mp hi with rfl | hi
      · omega
      · exact (h.inside tg i hi).trans (Nat.lt_succ_self _)
    · exact (h.inside tg i hi).trans (Nat.lt_succ_self _)
  · unfold SpanStore.addTrigrams
    rcases Nat.lt_succ_iff_lt_or_eq.mp hi with hi | rfl
    · have hmem := h.covered i e hi he hne tg htg
      split_ifs
      · exact Finset.mem_insert_of_mem hmem
      · exact hmem
    · have hin : tg ∈ SpanStore.trigrams (u.lowercase ((spans[i]?.map (·.text)).getD [])) := by
        rw [he]
        exact htg
      rw [if_pos hin]
      exact Finset.mem_insert_self _ _

/-- Index some spans one behind the other. -/
lemma foldl_addTrigrams (n : ℕ) {trigram : ℕ → Finset ℕ} {upTo : ℕ}
    (h : Indexed u spans trigram upTo) (hle : upTo + n ≤ spans.length) :
    Indexed u spans ((List.range' upTo n).foldl (SpanStore.addTrigrams u spans) trigram)
      (upTo + n) := by
  induction n generalizing trigram upTo with
  | zero => exact h
  | succ n ih =>
    rw [List.range'_succ, List.foldl_cons, ← Nat.add_assoc, Nat.add_right_comm]
    exact ih (h.addTrigrams (by omega)) (by omega)

end Indexed

/-- The bitmaps of a store. -/
def TrigramsOk (u : Unicode) (s : SpanStore) : Prop :=
  Indexed u s.spans s.trigram s.trigramIndexed

lemma trigrams_foldl_index (ps : List (SpanEntry × ℕ)) (s : SpanStore) :
    (ps.foldl (SpanStore.index hash) s).trigram = s.trigram ∧
      (ps.foldl (SpanStore.index hash) s).trigramIndexed = s.trigramIndexed := by
  induction ps generalizing s with
  | nil => exact ⟨rfl, rfl⟩
  | cons p ps ih =>
    rw [List.foldl_cons, (ih _).1, (ih _).2, SpanStore.index]
    split_ifs <;> exact ⟨rfl, rfl⟩

/-- Bitmaps are rebuilt from nothing. -/
lemma trigramsOk_reindex (s : SpanStore) : TrigramsOk u (s.reindex hash) := by
  unfold TrigramsOk SpanStore.reindex
  dsimp only
  rw [(trigrams_foldl_index _ _).1, (trigrams_foldl_index _ _).2]
  exact indexed_empty _

variable {s : SpanStore}

lemma trigramsOk_maybeCompact (hash : ℕ → Text → ℕ) (h : TrigramsOk u s) :
    TrigramsOk u (s.maybeCompact hash) := by
  unfold SpanStore.maybeCompact
  dsimp only
  split_ifs
  · exact h
  · exact trigramsOk_reindex _

/-- With many spans, a query indexes all that are new. -/
lemma indexed_ensureTrigram (h : TrigramsOk u s) (hmany : SpanStore.trigramMin ≤ s.spans.length) :
    Indexed u s.spans (s.ensureTrigram u).trigram s.spans.length ∧
      (s.ensureTrigram u).trigramIndexed = s.spans.length := by
  have hbounded := h.bounded
  have hall := h.foldl_addTrigrams (s.spans.length - s.trigramIndexed) (by omega)
  rw [Nat.add_sub_cancel' hbounded] at hall
  unfold SpanStore.ensureTrigram
  rw [if_neg (by omega), if_neg (by omega)]
  exact ⟨hall, rfl⟩

lemma trigramsOk_ensureTrigram (h : TrigramsOk u s) : TrigramsOk u (s.ensureTrigram u) := by
  by_cases hmany : SpanStore.trigramMin ≤ s.spans.length
  · obtain ⟨hall, hlength⟩ := indexed_ensureTrigram h hmany
    unfold TrigramsOk
    rw [(ensureTrigram_eq s).1, hlength]
    exact hall
  · unfold SpanStore.ensureTrigram
    rwa [if_pos (by omega)]

/-- The bitmaps stay right, whatever is ingested and unlinked. -/
lemma keepsAll_trigramsOk : KeepsAll u hash (fun _ => True) (TrigramsOk u) where
  realm := by
    intro s realm h
    unfold SpanStore.internRealm
    split
    · exact h
    · exact h
  session := by
    intro s session h
    unfold SpanStore.internSession
    split
    · exact h
    · exact h
  insert := by
    intro s a l _ h
    unfold SpanStore.insertSpan
    split
    · rename_i i e hlookup
      exact h.set (lookup_eq_some hlookup).2.1 fun _ => rfl
    · exact h.concat _
  marks := fun _ _ _ h => h
  insertMem := by
    intro s a realmId m _ h
    unfold SpanStore.insertSpanMem
    split
    · rename_i i e hlookup
      have hi := (lookup_eq_some hlookup).2.1
      split_ifs
      · exact h.set hi fun _ => rfl
      · exact h.set hi fun _ => rfl
    · exact h.concat _
  drop := by
    intro s m i h
    unfold SpanStore.dropRef
    split
    · exact h
    · rename_i e hi
      dsimp only
      split_ifs
      · exact h.set hi fun hne => absurd rfl hne
      · exact h.set hi fun _ => rfl
  adjacency := fun _ _ h => h
  memMarks := fun _ _ _ h => h

lemma trigramsOk_live {d : SpanDisk} (h : TrigramsOk u d.store) (step : SpanStep) :
    TrigramsOk u (d.live u hash step).1.store := by
  cases step with
  | ingestMemory m text realm =>
    exact keepsAll_trigramsOk.ingestMemory h m text realm fun _ _ => trivial
  | unlinkMemory m => exact keepsAll_trigramsOk.unlinkMemory h m
  | ingestTranscript path file =>
    exact keepsAll_trigramsOk.ingestTranscript h path file fun _ _ => trivial
  | save written =>
    have hcompact := trigramsOk_maybeCompact hash h
    cases written
    · exact hcompact
    · exact hcompact
  | reload => exact trigramsOk_reindex _
  | query q =>
    simp only [SpanDisk.live]
    split_ifs
    · exact h
    · exact trigramsOk_ensureTrigram h

/-! ## Candidates -/

/-- A sorted set of positions is what it selects of all positions. -/
lemma sort_eq_filter {set : Finset ℕ} {n : ℕ} (h : ∀ i ∈ set, i < n) :
    set.sort (· ≤ ·) = (List.range n).filter (· ∈ set) := by
  refine List.Perm.eq_of_pairwise' (set.pairwise_sort (· ≤ ·))
    (List.pairwise_le_range.sublist List.filter_sublist) ?_
  refine (List.perm_ext_iff_of_nodup (set.sort_nodup _) (List.nodup_range.filter _)).mpr fun i => ?_
  rw [Finset.mem_sort, List.mem_filter, List.mem_range, decide_eq_true_eq]
  exact ⟨fun hi => ⟨h i hi, hi⟩, fun hi => hi.2⟩

section Search

variable {F : Type*} (scoring : SpanStore.Scoring F) (now : ℤ)

/-- A span that is a hit shares a trigram with the query. -/
lemma exists_trigram_of_hit {ql : Text} {realmFilter : Option ℕ} {e : SpanEntry}
    (h : s.hit u scoring now ql (SpanStore.queryTokens u ql) realmFilter e ≠ none) :
    e.text ≠ [] ∧ ∃ tg ∈ SpanStore.trigrams ql, tg ∈ SpanStore.trigrams (u.lowercase e.text) := by
  unfold SpanStore.hit at h
  dsimp only at h
  split_ifs at h with htext hrealm hweak
  · exact absurd rfl h
  · exact absurd rfl h
  · exact absurd rfl h
  · exact ⟨htext, exists_trigram_of_strength hweak⟩

/-- Where the bitmaps are up to date, the candidates are enough. -/
lemma search_candidates
    (h : SpanStore.trigramMin ≤ s.spans.length → Indexed u s.spans s.trigram s.spans.length)
    (q : Text) (realm : Option Text) (k : ℕ) : s.search u scoring now q realm k SpanStore.candidates =
      s.search u scoring now q realm k SpanStore.everySpan := by
  unfold SpanStore.search SpanStore.candidates
  dsimp only
  by_cases hmany : SpanStore.trigramMin ≤ s.spans.length
  · have hindexed := h hmany
    have hinside : ∀ i ∈ (SpanStore.trigrams (u.lowercase q)).foldl
        (fun set tg => set ∪ s.trigram tg) ∅, i < s.spans.length := by
      intro i hi
      rcases (Lists.mem_foldl_union _ _ _ _).mp hi with hi | ⟨tg, -, hi⟩
      · exact absurd hi (Finset.notMem_empty _)
      · exact hindexed.inside tg i hi
    rw [if_pos hmany, sort_eq_filter hinside, List.filterMap_filter, SpanStore.everySpan]
    congr 3
    refine List.filterMap_congr fun i _ => ?_
    refine ite_eq_left_iff.mpr fun hout => ?_
    by_contra hsome
    obtain ⟨hit, hhit⟩ := Option.ne_none_iff_exists'.mp (Ne.symm hsome)
    obtain ⟨e, he, hhit⟩ := Option.bind_eq_some_iff.mp hhit
    obtain ⟨htext, tg, hql, htl⟩ := exists_trigram_of_hit scoring now (by rw [hhit]; nofun)
    refine hout (decide_eq_true ((Lists.mem_foldl_union _ _ _ _).mpr (Or.inr ⟨tg, hql, ?_⟩)))
    exact hindexed.covered i e (List.getElem?_eq_some_iff.mp he).1 he htext tg htl
  · rw [if_neg hmany]

/-- A search among all spans does not look at the bitmaps. -/
lemma search_everySpan_ensureTrigram (s : SpanStore) (q : Text) (realm : Option Text) (k : ℕ) :
    (s.ensureTrigram u).search u scoring now q realm k SpanStore.everySpan =
      s.search u scoring now q realm k SpanStore.everySpan := by
  unfold SpanStore.ensureTrigram
  dsimp only
  split_ifs <;> rfl

end Search

/-- Behind every run, a query finds what it finds among all spans, in the same order. -/
theorem trigrams_invisible (u : Unicode) (hash : ℕ → Text → ℕ) (steps : List SpanStep) {F : Type*}
    (scoring : SpanStore.Scoring F) (now : ℤ) (q : Text) (realm : Option Text) (k : ℕ) :
    let s := (Replayed.run (SpanDisk.live u hash) (SpanDisk.new hash) steps).1.store
    (s.query u scoring now q realm k).1 =
      if trim q = [] ∨ s.spans = [] then []
      else s.search u scoring now q realm k SpanStore.everySpan := by
  intro s
  have hs : TrigramsOk u s := Replayed.invariant_always (fun d : SpanDisk => TrigramsOk u d.store)
    (fun _ step h => trigramsOk_live h step) (trigramsOk_reindex _) steps
  unfold SpanStore.query
  by_cases hnothing : trim q = [] ∨ s.spans = []
  · rw [if_pos hnothing, if_pos hnothing]
  · rw [if_neg hnothing, if_neg hnothing, ← search_everySpan_ensureTrigram]
    refine search_candidates scoring now (fun hmany => ?_) q realm k
    rw [(ensureTrigram_eq s).1] at hmany ⊢
    exact (indexed_ensureTrigram hs hmany).1

end ChittaField.Spans
