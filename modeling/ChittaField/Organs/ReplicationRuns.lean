import ChittaField.Organs.Cleanup
import ChittaField.Organs.Replication

/-!
# Replication counts along a run

A count depends on the triplets that count: those without an end that are not superseded.  A mutation
changes the evidence of the memories that it names, so what else changes its count leads to one of
these, along the provenance or by a confirmation.  The walk back from the named memories comes to
all of that where no triplet on the way spells a number in another way than `to_string` does.

So the counts that are kept are those that would be computed, along every run whose mutations do not
meet such a spelling, do not end evidence by its source file, and whose clock does not fall behind
the end of a triplet.
-/

namespace ChittaField

open Relation

variable {F : Type}

/-! ## Numbers -/

namespace Replication

lemma parse_toString {id : MemoryId} (h : id < 2 ^ 64) : parse (toString id) = some id := by
  have hlist : (toString id).toList = Nat.toDigits 10 id := by
    rw [Nat.toString_eq_repr, Nat.toList_repr]
  have hdigits : ∀ c ∈ Nat.toDigits 10 id, c.isDigit = true := fun c hc =>
    Nat.isDigit_of_mem_toDigits (by decide) (by decide) hc
  have hplus : stripPrefix "+" (Nat.toDigits 10 id) = none := by
    rw [stripPrefix, if_neg]
    rintro ⟨rest, hrest⟩
    have := hdigits '+' (hrest ▸ List.mem_append_left _ List.mem_cons_self)
    exact absurd this (by decide)
  have hall : (Nat.toDigits 10 id).all Char.isDigit = true := List.all_eq_true.mpr hdigits
  have hne : Nat.toDigits 10 id ≠ [] := Nat.toDigits_ne_nil
  rw [parse, hlist, hplus, Option.getD_none, Nat.ofDigitChars_ten_toDigits]
  exact if_pos ⟨hne, hall, h⟩

lemma parse_lt {s : String} {id : MemoryId} (h : parse s = some id) : id < 2 ^ 64 := by
  unfold parse at h
  simp only at h
  split_ifs at h with hs
  rw [← Option.some.inj h]
  exact hs.2.2

/-- The number that a string is the decimal of. -/
def canonical (s : String) : Option MemoryId := (parse s).filter (toString · = s)

lemma canonical_eq_some {s : String} {id : MemoryId} :
    canonical s = some id ↔ id < 2 ^ 64 ∧ s = toString id := by
  rw [canonical, Option.filter_eq_some_iff, decide_eq_true_eq]
  refine ⟨fun ⟨hparse, hs⟩ => ⟨parse_lt hparse, hs.symm⟩, ?_⟩
  rintro ⟨hlt, rfl⟩
  exact ⟨parse_toString hlt, rfl⟩

/-- The memory whose evidence a triplet is. -/
def evidenceOf (e : TripletEntry F) : Option MemoryId :=
  if provenanceEdge e.predicate then canonical e.subject
  else if e.predicate = "confirms" then canonical e.object
  else none

/-- The memory whose evidence a triplet is, is named where it changes. -/
lemma mem_affectedEdge {e : TripletEntry F} {id : MemoryId} (h : evidenceOf e = some id) :
    affectedEdge e.subject e.predicate e.object = [id] := by
  unfold evidenceOf at h
  unfold affectedEdge
  split_ifs at h ⊢
  all_goals
    obtain ⟨hlt, hs⟩ := canonical_eq_some.mp h
    rw [hs, parse_toString hlt]
    rfl

lemma length_affectedEdge (subject predicate object : String) :
    (affectedEdge subject predicate object).length ≤ 1 := by
  have hopt : ∀ o : Option MemoryId, o.toList.length ≤ 1 := fun o => by cases o <;> simp
  unfold affectedEdge
  split_ifs
  · exact hopt _
  · exact hopt _
  · exact Nat.zero_le _

lemma evidenceOf_subject {e : TripletEntry F} {id : MemoryId} (hlt : id < 2 ^ 64)
    (hp : provenanceEdge e.predicate = true) (hs : e.subject = toString id) :
    evidenceOf e = some id := by
  rw [evidenceOf, if_pos hp, canonical_eq_some]
  exact ⟨hlt, hs⟩

lemma evidenceOf_object {e : TripletEntry F} {id : MemoryId} (hlt : id < 2 ^ 64)
    (hp : e.predicate = "confirms") (hs : e.object = toString id) : evidenceOf e = some id := by
  have hnot : ¬provenanceEdge e.predicate = true := by
    rw [hp]
    decide
  rw [evidenceOf, if_neg hnot, if_pos hp, canonical_eq_some]
  exact ⟨hlt, hs⟩

/-- Only the triplets of the provenance lead to anything. -/
lemma provenanceEdge_of_follow {e : TripletEntry F} (h : Replication.follow e ≠ .inr ∅) :
    provenanceEdge e.predicate = true := by
  by_contra hnot
  refine h ?_
  unfold Replication.follow
  split
  case h_5 => rfl
  all_goals
    rename_i hp
    exact absurd (by rw [hp]; decide) hnot

lemma parse_of_follow {e : TripletEntry F} {parent : MemoryId} (h : Replication.follow e = .inl parent) :
    parse e.object = some parent := by
  unfold Replication.follow at h
  split at h
  · cases h
  all_goals first
    | cases h
    | split at h
      · rename_i hparse
        rw [hparse, Sum.inl.inj h]
      · split_ifs at h

end Replication

/-! ## The triplets that count -/

/-- The positions of a source file are of triplets of it. -/
lemma mem_sourceIndex {entries : List (TripletEntry F)} {path : String} {pos : ℕ}
    (h : pos ∈ sourceIndex entries path) : ∃ e, entries[pos]? = some e ∧ e.sourceFile = some path := by
  induction entries using List.reverseRecOn with
  | nil => simp [sourceIndex] at h
  | append_singleton l a ih =>
    have hold : pos ∈ sourceIndex l path →
        ∃ e, (l ++ [a])[pos]? = some e ∧ e.sourceFile = some path := by
      intro hpos
      obtain ⟨e, he, hpath⟩ := ih hpos
      exact ⟨e, by rwa [List.getElem?_append_left (List.getElem?_eq_some_iff.mp he).1], hpath⟩
    rw [sourceIndex_append] at h
    cases hfile : a.sourceFile with
    | none =>
      simp only [noteSource, hfile] at h
      exact hold h
    | some file =>
      simp only [noteSource, hfile] at h
      by_cases hpath : path = file
      · subst hpath
        rw [Function.update_self] at h
        rcases List.mem_append.mp h with h | h
        · exact hold h
        · rw [List.mem_singleton.mp h]
          exact ⟨a, by simp, hfile⟩
      · rw [Function.update_of_ne hpath] at h
        exact hold h

namespace TripletStore

/-- A triplet without an end that is not superseded. -/
def Counting (t : TripletStore F) (e : TripletEntry F) : Prop :=
  e ∈ t.entries ∧ e.validToMs = 0 ∧ t.supersessionMap e.id = none

/-- The clock is past its zero, and the ends of triplets are not ahead of it. -/
def Settled (t : TripletStore F) (atMs : ℤ) : Prop :=
  0 < atMs ∧ ∀ e ∈ t.entries, e.validToMs ≠ 0 → e.validToMs ≤ atMs

instance (t : TripletStore F) (atMs : ℤ) : Decidable (t.Settled atMs) :=
  inferInstanceAs (Decidable (_ ∧ ∀ e ∈ t.entries, _ → _))

/-- The indexes of a store are those of its triplets, and no id is used twice. -/
structure Sound (t : TripletStore F) : Prop where
  indexed : t.Indexed
  distinct : (t.entries.map (·.id)).Nodup

variable {t : TripletStore F} {atMs : ℤ} {e : TripletEntry F}

lemma Sound.entryById (h : t.Sound) {id : ℕ} :
    t.entryById id = some e ↔ e ∈ t.entries ∧ e.id = id := by
  have hrepeated : ∀ id, id ∉ (identity t.entries).2 := by
    intro id hid
    have := List.nodup_iff_count_le_one.mp h.distinct id
    have := mem_identity.mp hid
    omega
  have hmem : ∀ a ∈ t.entries, t.entryById a.id = some a := by
    intro a ha
    obtain ⟨i, hi⟩ := List.mem_iff_getElem?.mp ha
    have hpos := (identity_of_unique hi (hrepeated _)).1
    rw [Facts.entryById, h.indexed.facts.idToIndex, hpos, Option.bind_some, hi]
  constructor
  · intro hentry
    have hsome : id ∈ t.entries.map (·.id) := by
      refine isSome_identity.mp ?_
      rw [Facts.entryById, h.indexed.facts.idToIndex, Option.bind_eq_some_iff] at hentry
      obtain ⟨i, hi, -⟩ := hentry
      rw [hi]
      rfl
    obtain ⟨a, ha, rfl⟩ := List.mem_map.mp hsome
    rw [hmem a ha] at hentry
    rw [← Option.some.inj hentry]
    exact ⟨ha, rfl⟩
  · rintro ⟨he, rfl⟩
    exact hmem e he

lemma Settled.isValid (h : t.Settled atMs) (he : e ∈ t.entries) :
    isValid e atMs = true ↔ e.validToMs = 0 := by
  rw [TripletStore.isValid, decide_eq_true_eq]
  refine ⟨fun hvalid => hvalid.elim id fun hlt => ?_, Or.inl⟩
  by_contra hne
  have := h.2 e he hne
  omega

lemma Sound.mem_resolveIds (h : t.Sound) (hs : t.Settled atMs) (pick : TripletEntry F → String)
    (key : String) :
    e ∈ t.resolveIds ((postings pick t.entries key).getD []) atMs ↔
      e ∈ t.entries ∧ e.validToMs = 0 ∧ pick e = key := by
  rw [resolveIds, getD_postings, List.mem_filter, List.mem_filterMap]
  constructor
  · rintro ⟨⟨id, hid, hentry⟩, hvalid⟩
    obtain ⟨he, rfl⟩ := h.entryById.mp hentry
    obtain ⟨a, ha, hsame⟩ := List.mem_map.mp hid
    obtain ⟨hmem, hpick⟩ := List.mem_filter.mp ha
    have hae : a = e := Option.some.inj ((h.entryById.mpr ⟨hmem, hsame⟩).symm.trans hentry)
    rw [hae] at hpick
    exact ⟨he, (hs.isValid he).mp hvalid, of_decide_eq_true hpick⟩
  · rintro ⟨he, hvalid, hpick⟩
    refine ⟨⟨e.id, List.mem_map_of_mem (List.mem_filter.mpr ⟨he, decide_eq_true hpick⟩), ?_⟩,
      (hs.isValid he).mpr hvalid⟩
    exact h.entryById.mpr ⟨he, rfl⟩

lemma Sound.mem_querySubject (h : t.Sound) (hs : t.Settled atMs) {subject : String} :
    e ∈ t.querySubject subject atMs ↔
      e ∈ t.entries ∧ e.validToMs = 0 ∧ e.subject = subject := by
  rw [querySubject, h.indexed.facts.bySubject]
  exact h.mem_resolveIds hs (·.subject) subject

lemma Sound.mem_queryObject (h : t.Sound) (hs : t.Settled atMs) {object : String} :
    e ∈ t.queryObject object atMs ↔ e ∈ t.entries ∧ e.validToMs = 0 ∧ e.object = object := by
  rw [queryObject, h.indexed.facts.byObject]
  exact h.mem_resolveIds hs (·.object) object

end TripletStore

/-! ## What a walk finds -/

namespace ReplicationField

open Replication

/-- A live memory comes from another one. -/
def Parent (s : ReplicationField F) (id parent : MemoryId) : Prop :=
  s.states id = some false ∧
    ∃ e, s.graph.Counting e ∧ e.subject = toString id ∧ Replication.follow e = .inl parent

/-- A live memory itself comes from a session. -/
def Own (s : ReplicationField F) (id : MemoryId) (session : String) : Prop :=
  s.states id = some false ∧
    ((∃ value, s.sourceSessions id = some (some value) ∧ session ∈ insertSession ∅ value) ∨
      ∃ e, s.graph.Counting e ∧ e.subject = toString id ∧
        ∃ found, Replication.follow e = .inr found ∧ session ∈ found)

/-- A memory is confirmed by another one. -/
def Confirms (s : ReplicationField F) (id witness : MemoryId) : Prop :=
  ∃ e, s.graph.Counting e ∧ e.object = toString id ∧ e.predicate = "confirms" ∧
    parse e.subject = some witness

/-- The provenance of a memory has a session. -/
def ComesFrom (s : ReplicationField F) (id : MemoryId) (session : String) : Prop :=
  ∃ x, ReflTransGen s.Parent id x ∧ s.Own x session

/-- No id of a triplet is used twice, the ids that the allocator gives are new, and memories have
numbers of 64 bits. -/
structure Sound (s : ReplicationField F) : Prop where
  graph : s.graph.Sound
  allocated : ∀ e ∈ s.graph.entries, e.id < s.tripletIdAlloc
  state_lt : ∀ id, s.states id ≠ none → id < 2 ^ 64
  session_lt : ∀ id, s.sourceSessions id ≠ none → id < 2 ^ 64

variable {s : ReplicationField F} {atMs : ℤ}

lemma mem_edges (h : s.graph.Sound) (hs : s.graph.Settled atMs) {id : MemoryId}
    {e : TripletEntry F} :
    e ∈ s.edges atMs id ↔
      s.states id = some false ∧ s.graph.Counting e ∧ e.subject = toString id := by
  unfold edges
  split_ifs with hlive
  · rw [List.mem_filter, h.mem_querySubject hs, TripletStore.isSuperseded,
      TripletStore.Counting]
    simp only [Bool.not_eq_true', Option.isSome_eq_false_iff, Option.isNone_iff_eq_none]
    tauto
  · simp [hlive]

lemma mem_parents (h : s.graph.Sound) (hs : s.graph.Settled atMs) {id parent : MemoryId} :
    parent ∈ s.parents atMs id ↔ s.Parent id parent := by
  unfold parents Parent
  simp only [List.mem_filterMap, mem_edges h hs, Sum.getLeft?_eq_some_iff]
  tauto

lemma edge_parents (h : s.graph.Sound) (hs : s.graph.Settled atMs) :
    Worklist.Edge (s.parents atMs) = s.Parent :=
  funext fun _ => funext fun _ => propext (mem_parents h hs)

variable {session : String}

lemma mem_ownSessions (h : s.graph.Sound) (hs : s.graph.Settled atMs) {id : MemoryId} :
    session ∈ s.ownSessions atMs id ↔ s.Own id session := by
  have hunion : ∀ l : List (Finset String),
      session ∈ l.foldr (· ∪ ·) ∅ ↔ ∃ found ∈ l, session ∈ found := fun l => by
    induction l <;> simp [*]
  have htag : session ∈ ((s.sourceSessions id).bind fun session => session).elim ∅
      (insertSession ∅) ↔
        ∃ value, s.sourceSessions id = some (some value) ∧ session ∈ insertSession ∅ value := by
    rcases hsession : s.sourceSessions id with - | (- | value) <;> simp
  unfold ownSessions Own
  split_ifs with hlive
  · rw [Finset.mem_union, htag, hunion, and_iff_right hlive]
    refine or_congr_right ?_
    simp only [List.mem_filterMap, mem_edges h hs, Sum.getRight?_eq_some_iff]
    constructor
    · rintro ⟨found, ⟨e, ⟨-, he, hsubject⟩, hfollow⟩, hmem⟩
      exact ⟨e, he, hsubject, found, hfollow, hmem⟩
    · rintro ⟨e, he, hsubject, found, hfollow, hmem⟩
      exact ⟨found, ⟨e, ⟨hlive, he, hsubject⟩, hfollow⟩, hmem⟩
  · simp [hlive]

/-- A walk stays among the memories that triplets name. -/
lemma provenance_spec (h : s.graph.Sound) (hs : s.graph.Settled atMs) (id : MemoryId) :
    (∀ x, x ∈ (s.provenance atMs id).1 ↔ ReflTransGen s.Parent id x) ∧
      ∀ session, session ∈ (s.provenance atMs id).2 ↔ s.ComesFrom id session := by
  have hstart : ∀ a ∈ [id], a ∈ insert id (s.graph.entries.filterMap (parse ·.object)).toFinset :=
    fun a ha => by rw [List.mem_singleton.mp ha]; exact Finset.mem_insert_self _ _
  have hnext : ∀ a, ∀ b ∈ s.parents atMs a,
      b ∈ insert id (s.graph.entries.filterMap (parse ·.object)).toFinset := by
    intro a b hb
    obtain ⟨-, e, he, -, hfollow⟩ := (mem_parents h hs).mp hb
    refine Finset.mem_insert_of_mem (List.mem_toFinset.mpr (List.mem_filterMap.mpr ⟨e, he.1, ?_⟩))
    exact parse_of_follow hfollow
  have hfuel : (insert id (s.graph.entries.filterMap (parse ·.object)).toFinset).card <
      s.graph.entries.length + 2 := by
    have hinsert := Finset.card_insert_le id (s.graph.entries.filterMap (parse ·.object)).toFinset
    have hcard := List.toFinset_card_le (s.graph.entries.filterMap (parse ·.object))
    have hlength := List.length_filterMap_le (parse ·.object) s.graph.entries
    omega
  refine ⟨fun x => ?_, fun session => ?_⟩
  · rw [provenance, Worklist.mem_visit hstart hnext hfuel, edge_parents h hs]
    simp
  · rw [provenance, Worklist.mem_found hstart hnext hfuel, edge_parents h hs]
    simp only [List.mem_singleton, exists_eq_left, mem_ownSessions h hs]
    rfl

lemma mem_confirmers (h : s.graph.Sound) (hs : s.graph.Settled atMs) {id witness : MemoryId} :
    witness ∈ s.confirmers atMs id ↔ s.Confirms id witness := by
  unfold confirmers Confirms
  simp only [List.mem_filterMap, h.mem_queryObject hs, TripletStore.isSuperseded,
    Option.isSome_eq_false_iff, Option.isNone_iff_eq_none, TripletStore.Counting]
  constructor
  · rintro ⟨e, ⟨he, hvalid, hobject⟩, hparse⟩
    split_ifs at hparse with hp
    exact ⟨e, ⟨he, hvalid, hp.2⟩, hobject, hp.1, hparse⟩
  · rintro ⟨e, ⟨he, hvalid, hsup⟩, hobject, hp, hparse⟩
    exact ⟨e, ⟨he, hvalid, hobject⟩, by rw [if_pos ⟨hp, hsup⟩, hparse]⟩

/-- The sessions that bear a memory out are those of its provenance and of what confirms it. -/
lemma mem_sessions (h : s.graph.Sound) (hs : s.graph.Settled atMs) {id : MemoryId} :
    session ∈ s.sessions atMs id ↔
      s.ComesFrom id session ∨ ∃ witness, s.Confirms id witness ∧ s.ComesFrom witness session := by
  unfold sessions
  rw [Lists.mem_foldl_union, (provenance_spec h hs id).2]
  simp only [mem_confirmers h hs, (provenance_spec h hs _).2]

/-! ## What is found to depend on a memory -/

/-- The memories that are refreshed contain the seeds, and what is found to depend on them. -/
lemma affected_closed (h : s.graph.Sound) (hs : s.graph.Settled atMs) (seeds : List MemoryId) :
    (∀ seed ∈ seeds, seed ∈ s.affected atMs seeds) ∧
      ∀ a ∈ s.affected atMs seeds, ∀ b ∈ s.dependents atMs a, b ∈ s.affected atMs seeds := by
  set named := s.graph.entries.filterMap (parse ·.subject) ++
    s.graph.entries.filterMap (parse ·.object) with hnamed
  have hstart : ∀ a ∈ seeds.reverse, a ∈ (seeds ++ named).toFinset := fun a ha =>
    List.mem_toFinset.mpr (List.mem_append_left _ (List.mem_reverse.mp ha))
  have hnext : ∀ a, ∀ b ∈ s.dependents atMs a, b ∈ (seeds ++ named).toFinset := by
    intro a b hb
    refine List.mem_toFinset.mpr (List.mem_append_right _ (List.mem_append.mpr ?_))
    rcases List.mem_append.mp hb with hb | hb
    · obtain ⟨e, he, hparse⟩ := List.mem_filterMap.mp hb
      split_ifs at hparse with hp
      exact Or.inl (List.mem_filterMap.mpr ⟨e, ((h.mem_queryObject hs).mp he).1, hparse⟩)
    · obtain ⟨e, he, hparse⟩ := List.mem_filterMap.mp hb
      split_ifs at hparse with hp
      exact Or.inr (List.mem_filterMap.mpr ⟨e, ((h.mem_querySubject hs).mp he).1, hparse⟩)
  have hfuel : (seeds ++ named).toFinset.card < seeds.length + 2 * s.graph.entries.length + 1 := by
    have hcard := List.toFinset_card_le (seeds ++ named)
    have hlength : named.length ≤ 2 * s.graph.entries.length := by
      have hsubject := List.length_filterMap_le (parse ·.subject) s.graph.entries
      have hobject := List.length_filterMap_le (parse ·.object) s.graph.entries
      rw [hnamed, List.length_append]
      omega
    rw [List.length_append] at hcard
    omega
  have hmem : ∀ a, a ∈ s.affected atMs seeds ↔
      ∃ seed ∈ seeds.reverse, ReflTransGen (Worklist.Edge (s.dependents atMs)) seed a :=
    Worklist.mem_visit hstart hnext hfuel
  refine ⟨fun seed hseed => (hmem seed).mpr ⟨seed, List.mem_reverse.mpr hseed, .refl⟩,
    fun a ha b hb => ?_⟩
  obtain ⟨seed, hseed, hpath⟩ := (hmem a).mp ha
  exact (hmem b).mpr ⟨seed, hseed, hpath.tail hb⟩

/-- No triplet names a memory that depends on a changed one in another spelling, as long as what it
is evidence of is not the changed one itself. -/
structure Spelled (s : ReplicationField F) (seed : MemoryId) : Prop where
  parents : ∀ {id parent e}, id ≠ seed → s.states id = some false → s.graph.Counting e →
    e.subject = toString id → Replication.follow e = .inl parent → ReflTransGen s.Parent parent seed →
      e.object = toString parent
  confirms : ∀ {id witness e}, id ≠ seed → s.states id ≠ none → s.graph.Counting e →
    e.object = toString id → e.predicate = "confirms" → parse e.subject = some witness →
      ReflTransGen s.Parent witness seed → e.subject = toString witness

/-- A triplet in the spelling of `to_string` is found from the memory that it leads to. -/
lemma dependents_of_parent (h : s.Sound) (hs : s.graph.Settled atMs) {id parent : MemoryId}
    {e : TripletEntry F} (hlive : s.states id = some false) (he : s.graph.Counting e)
    (hsubject : e.subject = toString id) (hfollow : Replication.follow e = .inl parent)
    (hobject : e.object = toString parent) : id ∈ s.dependents atMs parent := by
  have hlt : id < 2 ^ 64 := h.state_lt id (by rw [hlive]; exact Option.some_ne_none _)
  have hp : provenanceEdge e.predicate = true :=
    provenanceEdge_of_follow (by rw [hfollow]; exact Sum.inl_ne_inr)
  refine List.mem_append_left _ (List.mem_filterMap.mpr
    ⟨e, (h.graph.mem_queryObject hs).mpr ⟨he.1, he.2.1, hobject⟩, ?_⟩)
  rw [if_pos hp, hsubject, parse_toString hlt]

lemma dependents_of_confirms (h : s.Sound) (hs : s.graph.Settled atMs) {id witness : MemoryId}
    {e : TripletEntry F} (hid : id < 2 ^ 64) (he : s.graph.Counting e)
    (hobject : e.object = toString id) (hp : e.predicate = "confirms")
    (hsubject : e.subject = toString witness) : id ∈ s.dependents atMs witness := by
  refine List.mem_append_right _ (List.mem_filterMap.mpr
    ⟨e, (h.graph.mem_querySubject hs).mpr ⟨he.1, he.2.1, hsubject⟩, ?_⟩)
  rw [if_pos hp, hobject, parse_toString hid]

/-! ## What a mutation leaves alone -/

/-- The evidence of a memory is the same. -/
structure SameAt (s s' : ReplicationField F) (id : MemoryId) : Prop where
  states : s'.states id = s.states id
  sourceSessions : s'.sourceSessions id = s.sourceSessions id
  counting : ∀ {e}, evidenceOf e = some id → (s'.graph.Counting e ↔ s.graph.Counting e)

variable {s' : ReplicationField F} {seeds : List MemoryId} {id : MemoryId}

lemma SameAt.symm (h : s.SameAt s' id) : s'.SameAt s id :=
  ⟨h.states.symm, h.sourceSessions.symm, fun hev => (h.counting hev).symm⟩

lemma SameAt.confirms_iff (h : s.SameAt s' id) (hlt : id < 2 ^ 64) {witness : MemoryId} :
    s'.Confirms id witness ↔ s.Confirms id witness :=
  exists_congr fun _ => and_congr_left fun ⟨hobject, hp, _⟩ =>
    h.counting (evidenceOf_object hlt hp hobject)

/-- Of a live memory whose evidence is the same, the triplets that lead anywhere are the same. -/
lemma SameAt.counting_iff (h : s.SameAt s' id) (hlt : id < 2 ^ 64) {e : TripletEntry F}
    (hsubject : e.subject = toString id) (hfollow : Replication.follow e ≠ .inr ∅) :
    s'.graph.Counting e ↔ s.graph.Counting e :=
  h.counting (evidenceOf_subject hlt (provenanceEdge_of_follow hfollow) hsubject)

lemma Sound.lt_of_live (h : s.Sound) (hlive : s.states id = some false) : id < 2 ^ 64 :=
  h.state_lt id (by rw [hlive]; exact Option.some_ne_none _)

/-- A memory whose evidence is the same comes from where it came. -/
lemma Parent.of_same (h : s.Sound) (hsame : id < 2 ^ 64 → s.SameAt s' id) {parent : MemoryId}
    (hparent : s.Parent id parent) : s'.Parent id parent := by
  obtain ⟨hlive, e, he, hsubject, hfollow⟩ := hparent
  have hlt := h.lt_of_live hlive
  refine ⟨by rw [(hsame hlt).states, hlive], e, ?_, hsubject, hfollow⟩
  exact ((hsame hlt).counting_iff hlt hsubject (by rw [hfollow]; exact Sum.inl_ne_inr)).mpr he

lemma parent_iff (h : s.Sound) (h' : s'.Sound) (hsame : id < 2 ^ 64 → s.SameAt s' id)
    {parent : MemoryId} : s.Parent id parent ↔ s'.Parent id parent :=
  ⟨.of_same h hsame, .of_same h' fun hlt => (hsame hlt).symm⟩

lemma Own.of_same (h : s.Sound) (hsame : id < 2 ^ 64 → s.SameAt s' id) (hown : s.Own id session) :
    s'.Own id session := by
  obtain ⟨hlive, hown⟩ := hown
  have hlt := h.lt_of_live hlive
  refine ⟨by rw [(hsame hlt).states, hlive], hown.imp ?_ ?_⟩
  · rw [(hsame hlt).sourceSessions]
    exact fun hvalue => hvalue
  · rintro ⟨e, he, hsubject, found, hfollow, hmem⟩
    refine ⟨e, ((hsame hlt).counting_iff hlt hsubject fun heq => ?_).mpr he, hsubject, found, hfollow,
      hmem⟩
    rw [hfollow, Sum.inr.injEq] at heq
    exact absurd (heq ▸ hmem) (Finset.notMem_empty _)

lemma own_iff (h : s.Sound) (h' : s'.Sound) (hsame : id < 2 ^ 64 → s.SameAt s' id) :
    s'.Own id session ↔ s.Own id session :=
  ⟨.of_same h' fun hlt => (hsame hlt).symm, .of_same h hsame⟩

/-- A memory leads to a changed one. -/
def Touched (s : ReplicationField F) (seeds : List MemoryId) (id : MemoryId) : Prop :=
  ∃ seed ∈ seeds, ReflTransGen s.Parent id seed

/-- What does not lead to a changed memory comes from the same sessions. -/
lemma comesFrom_iff (h : s.Sound) (h' : s'.Sound) (hsame : ∀ id < 2 ^ 64, id ∉ seeds → s.SameAt s' id)
    (ht : ¬s'.Touched seeds id) : s'.ComesFrom id session ↔ s.ComesFrom id session := by
  have hout : ∀ {x}, ¬s'.Touched seeds x → x ∉ seeds := fun hx hmem => hx ⟨_, hmem, .refl⟩
  have hclosed : ∀ a b, s'.Parent a b → s'.Touched seeds b → s'.Touched seeds a :=
    fun a b hab ⟨seed, hseed, hpath⟩ => ⟨seed, hseed, hpath.head hab⟩
  have hpaths := Worklist.reaches_congr (r := s.Parent) hclosed
    (fun a ha b => parent_iff h h' fun hlt => hsame a hlt (hout ha)) ht
  constructor
  · rintro ⟨x, hpath, hown⟩
    have hx := (hpaths x).2 hpath
    exact ⟨x, (hpaths x).1.mpr hpath, (own_iff h h' fun hlt => hsame x hlt (hout hx)).mp hown⟩
  · rintro ⟨x, hpath, hown⟩
    have hpath' := (hpaths x).1.mp hpath
    have hx := (hpaths x).2 hpath'
    exact ⟨x, hpath', (own_iff h h' fun hlt => hsame x hlt (hout hx)).mpr hown⟩

/-- What leads to the changed memory led there before, and is refreshed: every step back along the
way is found, since it is spelled as it is looked for. -/
lemma affected_of_path (h : s.Sound) (h' : s'.Sound) (hs' : s'.graph.Settled atMs)
    {seed : MemoryId} (hsame : ∀ id < 2 ^ 64, id ∉ [seed] → s.SameAt s' id)
    (hspelled : s.Spelled seed) (hpath : ReflTransGen s'.Parent id seed) :
    id ∈ s'.affected atMs [seed] ∧ ReflTransGen s.Parent id seed := by
  obtain ⟨hseeds, hclosed⟩ := affected_closed h'.graph hs' [seed]
  induction hpath using ReflTransGen.head_induction_on with
  | refl => exact ⟨hseeds seed List.mem_cons_self, .refl⟩
  | @head a c hedge _ ih =>
    by_cases ha : a = seed
    · subst ha
      exact ⟨hseeds a List.mem_cons_self, .refl⟩
    · have hsameAt : a < 2 ^ 64 → s.SameAt s' a :=
        fun hlt => hsame a hlt (by rwa [List.mem_singleton])
      have hbefore : s.Parent a c := (parent_iff h h' hsameAt).mpr hedge
      obtain ⟨hlive, e, he, hsubject, hfollow⟩ := hedge
      have hlt : a < 2 ^ 64 := h'.lt_of_live hlive
      have hold : s.graph.Counting e :=
        ((hsameAt hlt).counting_iff hlt hsubject (by rw [hfollow]; exact Sum.inl_ne_inr)).mp he
      have hobject : e.object = toString c :=
        hspelled.parents ha hbefore.1 hold hsubject hfollow ih.2
      exact ⟨hclosed c ih.1 a (dependents_of_parent h' hs' hlive he hsubject hfollow hobject),
        ih.2.head hbefore⟩

/-- A memory that is not refreshed is borne out by the same sessions. -/
lemma sessions_iff (h : s.Sound) (h' : s'.Sound) {atMs' : ℤ} (hs : s.graph.Settled atMs)
    (hs' : s'.graph.Settled atMs') (hlt : id < 2 ^ 64)
    (hsame : ∀ id < 2 ^ 64, id ∉ seeds → s.SameAt s' id) (ht : ¬s'.Touched seeds id)
    (hwitness : ∀ witness, s'.Confirms id witness → ¬s'.Touched seeds witness) :
    session ∈ s'.sessions atMs' id ↔ session ∈ s.sessions atMs id := by
  have hsameAt : s.SameAt s' id := hsame id hlt fun hmem => ht ⟨id, hmem, .refl⟩
  rw [mem_sessions h'.graph hs', mem_sessions h.graph hs, comesFrom_iff h h' hsame ht]
  refine or_congr_right (exists_congr fun witness => ?_)
  rw [← hsameAt.confirms_iff hlt]
  exact and_congr_right fun hc => comesFrom_iff h h' hsame (hwitness witness hc)

lemma count_congr {atMs' : ℤ}
    (h : ∀ session, session ∈ s'.sessions atMs' id ↔ session ∈ s.sessions atMs id) :
    s'.count atMs' id = s.count atMs id := by
  rw [count, count, Finset.ext h]

/-- The counts that are kept are those that would be computed. -/
def Counted (s : ReplicationField F) : Prop :=
  ∀ atMs, s.graph.Settled atMs → ∀ id, s.states id ≠ none → s.replicationCount id = s.count atMs id

/-- A count does not depend on the time. -/
lemma count_time (h : s.Sound) {atMs' : ℤ} (hs : s.graph.Settled atMs) (hs' : s.graph.Settled atMs')
    (id : MemoryId) : s.count atMs' id = s.count atMs id :=
  count_congr fun session => by rw [mem_sessions h.graph hs', mem_sessions h.graph hs]

/-- The counts stay right when what depends on the changed memory is refreshed. -/
lemma Counted.refresh (hc : s.Counted) (h : s.Sound) (h' : s'.Sound) (hs : s.graph.Settled atMs)
    (hs' : s'.graph.Settled atMs) (hlength : seeds.length ≤ 1)
    (hsame : ∀ id < 2 ^ 64, id ∉ seeds → s.SameAt s' id)
    (hcount : ∀ id ∉ seeds, s'.replicationCount id = s.replicationCount id)
    (hspelled : ∀ seed ∈ seeds, s.Spelled seed) : (s'.refreshReplications atMs seeds).Counted := by
  -- what is neither a seed nor leads to one
  have hkept : ∀ atMs', s'.graph.Settled atMs' → ∀ id, s'.states id ≠ none →
      ¬s'.Touched seeds id → (∀ witness, s'.Confirms id witness → ¬s'.Touched seeds witness) →
        s'.replicationCount id = s'.count atMs' id := by
    intro atMs' hat id hid ht hwitness
    have hlt : id < 2 ^ 64 := h'.state_lt id hid
    have hout : id ∉ seeds := fun hmem => ht ⟨id, hmem, .refl⟩
    have hold : s.states id ≠ none := by rwa [← (hsame id hlt hout).states]
    rw [hcount id hout, hc atMs hs id hold]
    exact (count_congr fun _ => sessions_iff h h' hs hat hlt hsame ht hwitness).symm
  rcases seeds with - | ⟨seed, - | ⟨other, rest⟩⟩
  · exact fun atMs' hat id hid => hkept atMs' hat id hid (fun ⟨_, hmem, _⟩ => nomatch hmem)
      fun _ _ ⟨_, hmem, _⟩ => nomatch hmem
  · intro atMs' hat id hid
    have hfound : ∀ {x}, s'.Touched [seed] x →
        x ∈ s'.affected atMs [seed] ∧ ReflTransGen s.Parent x seed := by
      rintro x ⟨seed', hmem, hpath⟩
      rw [List.mem_singleton] at hmem
      subst hmem
      exact affected_of_path h h' hs' hsame (hspelled _ List.mem_cons_self) hpath
    change (if id ∈ s'.affected atMs [seed] ∧ (s'.states id).isSome = true then s'.count atMs id
      else s'.replicationCount id) = s'.count atMs' id
    split_ifs with haff
    · exact count_time h' hat hs' id
    · have hid' : id ∉ s'.affected atMs [seed] := fun hmem =>
        haff ⟨hmem, Option.isSome_iff_ne_none.mpr hid⟩
      have hlt : id < 2 ^ 64 := h'.state_lt id hid
      refine hkept atMs' hat id hid (fun ht => hid' (hfound ht).1) ?_
      rintro witness ⟨e, he, hobject, hp, hparse⟩ ht
      obtain ⟨hseeds, hclosed⟩ := affected_closed h'.graph hs' [seed]
      have hne : id ≠ seed := fun heq => hid' (heq ▸ hseeds seed List.mem_cons_self)
      have hsameAt : s.SameAt s' id := hsame id hlt (by rwa [List.mem_singleton])
      have hold : s.graph.Counting e :=
        (hsameAt.counting (evidenceOf_object hlt hp hobject)).mp he
      have hsubject : e.subject = toString witness :=
        (hspelled seed List.mem_cons_self).confirms hne (by rwa [← hsameAt.states]) hold hobject hp
          hparse (hfound ht).2
      exact hid' (hclosed witness (hfound ht).1 id
        (dependents_of_confirms h' hs' hlt he hobject hp hsubject))
  · simp at hlength

end ReplicationField

/-! ## The triplets behind a mutation -/

namespace TripletStore

variable {t : TripletStore F} {atMs : ℤ} {e : TripletEntry F}

/-- The triplets are the same but for their times. -/
def SameStrings (t t' : TripletStore F) : Prop :=
  t'.entries.map (fun e => (e.id, e.spo)) = t.entries.map fun e => (e.id, e.spo)

lemma SameStrings.exists_mem {t' : TripletStore F} (h : t.SameStrings t') (he : e ∈ t'.entries) :
    ∃ e' ∈ t.entries, e'.id = e.id ∧ e'.spo = e.spo := by
  have hmem : (e.id, e.spo) ∈ t'.entries.map fun e => (e.id, e.spo) :=
    List.mem_map_of_mem (f := fun e : TripletEntry F => (e.id, e.spo)) he
  rw [h] at hmem
  obtain ⟨e', he', heq⟩ := List.mem_map.mp hmem
  exact ⟨e', he', congrArg Prod.fst heq, congrArg Prod.snd heq⟩

lemma SameStrings.distinct {t' : TripletStore F} (h : t.SameStrings t')
    (hd : (t.entries.map (·.id)).Nodup) : (t'.entries.map (·.id)).Nodup := by
  have := congrArg (List.map Prod.fst) h
  rw [List.map_map, List.map_map] at this
  exact this ▸ hd

variable [F32 F]

lemma Indexed.replay (h : t.Indexed) (op : ℤ × TripletOp F) : (t.replay op).Indexed :=
  h.replayAll [op]

lemma entries_replayAddAt (h : t.Indexed) (o : AddTripletOp F) (nowMs : ℤ) :
    (t.replayAddAt o nowMs).entries = t.entries ++ [o.entry] ∧
      (t.replayAddAt o nowMs).supersessionMap = t.supersessionMap := by
  have hadd : t.replayAddAt o nowMs = _ := replay_direct h.deferredReplay (nowMs, .add o)
  rw [hadd]
  refine ⟨?_, rfl⟩
  simp only [TripletOp.onFacts, Facts.insertWithId, Facts.noteAddition_frame]

lemma Sound.replayAddAt (h : t.Sound) {o : AddTripletOp F} (hnew : ∀ e ∈ t.entries, e.id < o.tripletId)
    (nowMs : ℤ) : (t.replayAddAt o nowMs).Sound := by
  refine ⟨h.indexed.replay (nowMs, .add o), ?_⟩
  rw [(entries_replayAddAt h.indexed o nowMs).1, List.map_append, List.nodup_append]
  refine ⟨h.distinct, List.nodup_singleton _, fun id hid id' hid' heq => ?_⟩
  obtain ⟨e, he, rfl⟩ := List.mem_map.mp hid
  have := hnew e he
  rw [heq, List.mem_singleton.mp hid'] at this
  exact lt_irrefl _ this

lemma entries_invalidate (h : t.Indexed) (o : InvalidateTripletOp) :
    (t.invalidate o).entries = (t.toFacts.invalidate o).entries ∧
      (t.invalidate o).supersessionMap = t.supersessionMap := by
  have hinv : t.invalidate o = _ := replay_direct h.deferredReplay ((0 : ℤ), TripletOp.invalidate o)
  rw [hinv]
  exact ⟨rfl, rfl⟩

lemma sameStrings_invalidate (h : t.Indexed) (o : InvalidateTripletOp) :
    t.SameStrings (t.invalidate o) := by
  rw [SameStrings, (entries_invalidate h o).1]
  exact (Facts.map_invalidate (fun _ _ => rfl) _ o).1

lemma Sound.invalidate (h : t.Sound) (o : InvalidateTripletOp) : (t.invalidate o).Sound :=
  ⟨h.indexed.replay ((0 : ℤ), .invalidate o),
    (sameStrings_invalidate h.indexed o).distinct h.distinct⟩

/-- An invalidation sets the end of the triplet of an id. -/
lemma Sound.mem_invalidate (h : t.Sound) (o : InvalidateTripletOp) :
    (e ∈ (t.invalidate o).entries → e ∈ t.entries ∨ e.validToMs = o.invalidatedAtMs) ∧
      (e.id ≠ o.tripletId → (e ∈ (t.invalidate o).entries ↔ e ∈ t.entries)) := by
  rw [(entries_invalidate h.indexed o).1, Facts.invalidate]
  split
  · exact ⟨Or.inl, fun _ => Iff.rfl⟩
  · rename_i idx hidx
    split
    · exact ⟨Or.inl, fun _ => Iff.rfl⟩
    · rename_i a ha
      have hid : a.id = o.tripletId := by
        refine (h.entryById.mp ?_).2
        rw [Facts.entryById, hidx, Option.bind_some, ha]
      rw [(Facts.markDirty_frame _ _).2]
      refine ⟨fun he => (List.mem_or_eq_of_mem_set he).imp_right fun heq => by rw [heq], fun hne => ?_⟩
      constructor
      · intro he
        refine (List.mem_or_eq_of_mem_set he).resolve_right fun heq => hne ?_
        rw [heq]
        exact hid
      · intro he
        obtain ⟨i, hi⟩ := List.mem_iff_getElem?.mp he
        have hidx' : idx ≠ i := by
          rintro rfl
          rw [ha, Option.some.injEq] at hi
          exact hne (hi ▸ hid)
        exact List.mem_iff_getElem?.mpr ⟨i, by rw [List.getElem?_set_ne hidx', hi]⟩

omit [F32 F] in
/-- Of the triplets at some positions, those without an end get one. -/
lemma getElem?_foldl_expireAt (nowMs : ℤ) (positions : List ℕ)
    (acc : List (TripletEntry F) × List String × List ℕ) (i : ℕ) :
    (positions.foldl (Facts.expireAt nowMs) acc).1[i]? = acc.1[i]? ∨
      ∃ e, acc.1[i]? = some e ∧ e.validToMs = 0 ∧ i ∈ positions ∧
        (positions.foldl (Facts.expireAt nowMs) acc).1[i]? = some { e with validToMs := nowMs } := by
  induction positions using List.reverseRecOn with
  | nil => exact Or.inl rfl
  | append_singleton positions pos ih =>
    rw [List.foldl_concat]
    generalize positions.foldl (Facts.expireAt nowMs) acc = done at ih ⊢
    have hkept : (Facts.expireAt nowMs done pos).1[i]? = done.1[i]? →
        (Facts.expireAt nowMs done pos).1[i]? = acc.1[i]? ∨
          ∃ e, acc.1[i]? = some e ∧ e.validToMs = 0 ∧ i ∈ positions ++ [pos] ∧
            (Facts.expireAt nowMs done pos).1[i]? = some { e with validToMs := nowMs } := by
      intro hsame
      rw [hsame]
      exact ih.imp_right fun ⟨e, he, hvalid, hi, hset⟩ =>
        ⟨e, he, hvalid, List.mem_append_left _ hi, hset⟩
    cases hpos : done.1[pos]? with
    | none =>
      refine hkept ?_
      simp only [Facts.expireAt, hpos]
    | some a =>
      by_cases hvalid : a.validToMs = 0
      · have hset : (Facts.expireAt nowMs done pos).1 =
            done.1.set pos { a with validToMs := nowMs } := by
          simp only [Facts.expireAt, hpos, if_pos hvalid]
        by_cases hi : pos = i
        · subst hi
          have hnow : (done.1.set pos { a with validToMs := nowMs })[pos]? =
              some { a with validToMs := nowMs } :=
            List.getElem?_set_self (List.getElem?_eq_some_iff.mp hpos).1
          right
          rw [hset, hnow]
          rcases ih with hold | ⟨e, he, hvalid', -, hold⟩
          · exact ⟨a, hold ▸ hpos, hvalid, List.mem_concat_self, rfl⟩
          · rw [hpos, Option.some.injEq] at hold
            exact ⟨e, he, hvalid', List.mem_concat_self, by rw [hold]⟩
        · exact hkept (by rw [hset, List.getElem?_set_ne hi])
      · refine hkept ?_
        simp only [Facts.expireAt, hpos, if_neg hvalid]

lemma entries_invalidateBySourceFile (h : t.Indexed) (o : InvalidateTripletsBySourceFileOp) :
    (t.invalidateBySourceFile o).1.entries =
        ((sourceIndex t.entries o.sourceFile).foldl (Facts.expireAt o.invalidatedAtMs)
          (t.entries, [], [])).1 ∧
      (t.invalidateBySourceFile o).1.supersessionMap = t.supersessionMap := by
  have hinv : (t.invalidateBySourceFile o).1 = _ :=
    replay_direct h.deferredReplay ((0 : ℤ), TripletOp.invalidateBySourceFile o)
  rw [hinv]
  refine ⟨?_, rfl⟩
  simp only [TripletOp.onFacts, Facts.invalidateBySourceFile, Facts.foldl_markDirty_frame,
    h.facts.bySourceFile.getD]

lemma Sound.invalidateBySourceFile (h : t.Sound) (o : InvalidateTripletsBySourceFileOp) :
    (t.invalidateBySourceFile o).1.Sound := by
  have hsame : t.SameStrings (t.invalidateBySourceFile o).1 := by
    rw [SameStrings, (entries_invalidateBySourceFile h.indexed o).1]
    exact Facts.map_foldl_expireAt (fun _ _ => rfl) _ _ _
  exact ⟨h.indexed.replay ((0 : ℤ), .invalidateBySourceFile o), hsame.distinct h.distinct⟩

/-- An invalidation by source file sets the ends of triplets of the file that have none. -/
lemma mem_invalidateBySourceFile (h : t.Indexed) (o : InvalidateTripletsBySourceFileOp) :
    (e ∈ (t.invalidateBySourceFile o).1.entries →
        e ∈ t.entries ∨ e.validToMs = o.invalidatedAtMs ∧
          ({ e with validToMs := 0 } : TripletEntry F) ∈ t.entries) ∧
      (e ∈ t.entries → e.validToMs ≠ 0 ∨ e.sourceFile ≠ some o.sourceFile →
        e ∈ (t.invalidateBySourceFile o).1.entries) := by
  rw [(entries_invalidateBySourceFile h o).1]
  constructor
  · intro he
    obtain ⟨i, hi⟩ := List.mem_iff_getElem?.mp he
    rcases getElem?_foldl_expireAt o.invalidatedAtMs (sourceIndex t.entries o.sourceFile)
      (t.entries, [], []) i with hold | ⟨a, ha, hvalid, -, hset⟩
    · rw [hold] at hi
      exact Or.inl (List.mem_of_getElem? hi)
    · rw [hi, Option.some.injEq] at hset
      refine Or.inr ⟨by rw [hset], ?_⟩
      have hback : ({ e with validToMs := 0 } : TripletEntry F) = a := by rw [hset, ← hvalid]
      rw [hback]
      exact List.mem_of_getElem? ha
  · intro he hother
    obtain ⟨i, hi⟩ := List.mem_iff_getElem?.mp he
    refine List.mem_of_getElem? (i := i) ?_
    rcases getElem?_foldl_expireAt o.invalidatedAtMs (sourceIndex t.entries o.sourceFile)
      (t.entries, [], []) i with hold | ⟨a, ha, hvalid, hpos, -⟩
    · rw [hold, hi]
    · rw [hi, Option.some.injEq] at ha
      obtain ⟨b, hb, hfile⟩ := mem_sourceIndex hpos
      rw [hi, Option.some.injEq] at hb
      subst ha hb
      exact absurd hfile (hother.resolve_left fun hne => hne hvalid)

end TripletStore

/-! ## One step -/

namespace ReplicationField

open Replication

variable {s s' : ReplicationField F} {nowMs : ℤ} {seeds : List MemoryId}

/-- The counts are right at a time. -/
structure Kept (s : ReplicationField F) (nowMs : ℤ) : Prop where
  sound : s.Sound
  counted : s.Counted
  settled : s.graph.Settled nowMs

lemma refreshReplications_frame (s : ReplicationField F) (nowMs : ℤ) (seeds : List MemoryId) :
    (s.refreshReplications nowMs seeds).graph = s.graph ∧
      (s.refreshReplications nowMs seeds).states = s.states ∧
      (s.refreshReplications nowMs seeds).sourceSessions = s.sourceSessions ∧
      (s.refreshReplications nowMs seeds).tripletIdAlloc = s.tripletIdAlloc := by
  unfold refreshReplications
  split_ifs <;> exact ⟨rfl, rfl, rfl, rfl⟩

/-- A mutation that changes the evidence of the seeds only, and is refreshed from them. -/
lemma Kept.refresh (h : s.Kept nowMs) (h' : s'.Sound) (hs' : s'.graph.Settled nowMs)
    (hlength : seeds.length ≤ 1) (hsame : ∀ id < 2 ^ 64, id ∉ seeds → s.SameAt s' id)
    (hcount : ∀ id ∉ seeds, s'.replicationCount id = s.replicationCount id)
    (hspelled : ∀ seed ∈ seeds, s.Spelled seed) :
    (s'.refreshReplications nowMs seeds).Kept nowMs := by
  obtain ⟨hgraph, hstates, hsessions, halloc⟩ := s'.refreshReplications_frame nowMs seeds
  refine ⟨⟨by rw [hgraph]; exact h'.graph, by rw [hgraph, halloc]; exact h'.allocated,
    by rw [hstates]; exact h'.state_lt, by rw [hsessions]; exact h'.session_lt⟩,
    h.counted.refresh h.sound h' h.settled hs' hlength hsame hcount hspelled, ?_⟩
  rw [hgraph]
  exact hs'

/-- A triplet that is there says whose evidence it is. -/
lemma replicationEdgeIds_of_mem (h : s.graph.Sound) {e : TripletEntry F} (he : e ∈ s.graph.entries)
    {id : MemoryId} (hev : evidenceOf e = some id) : s.replicationEdgeIds e.id = [id] := by
  rw [replicationEdgeIds, h.entryById.mpr ⟨he, rfl⟩, Option.map_some, Option.getD_some,
    mem_affectedEdge hev]

lemma length_replicationEdgeIds (s : ReplicationField F) (id : ℕ) :
    (s.replicationEdgeIds id).length ≤ 1 := by
  rw [replicationEdgeIds]
  cases s.graph.entryById id with
  | none => exact Nat.zero_le _
  | some e => exact length_affectedEdge _ _ _

lemma evidenceOf_congr {e e' : TripletEntry F} (h : e'.spo = e.spo) :
    evidenceOf e' = evidenceOf e := by
  simp only [TripletEntry.spo, Prod.mk.injEq] at h
  rw [evidenceOf, evidenceOf, h.1, h.2.1, h.2.2]

variable [F32 F]

lemma Kept.addTriplet (h : s.Kept nowMs) (subject predicate object : String) (weight : F)
    (sourceMemoryId : Option MemoryId) (sourceFile : Option String) (appended : Bool)
    (hspelled : ∀ seed ∈ affectedEdge subject predicate object, s.Spelled seed) :
    (s.addTriplet nowMs subject predicate object weight sourceMemoryId sourceFile appended).Kept
      nowMs := by
  unfold ReplicationField.addTriplet
  simp only
  set o : AddTripletOp F :=
    ⟨s.tripletIdAlloc, subject, predicate, object, weight, nowMs, sourceMemoryId, sourceFile⟩
  obtain ⟨hentries, hsup⟩ := TripletStore.entries_replayAddAt h.sound.graph.indexed o nowMs
  split_ifs
  · refine h.refresh ⟨h.sound.graph.replayAddAt h.sound.allocated nowMs, ?_, h.sound.state_lt,
      h.sound.session_lt⟩ ?_ (length_affectedEdge _ _ _) (fun id hlt hout => ⟨rfl, rfl, ?_⟩)
      (fun _ _ => rfl) hspelled
    · intro e he
      rw [hentries, List.mem_append, List.mem_singleton] at he
      rcases he with he | rfl
      · exact Nat.lt_succ_of_lt (h.sound.allocated e he)
      · exact Nat.lt_succ_self _
    · refine ⟨h.settled.1, fun e he => ?_⟩
      rw [hentries, List.mem_append, List.mem_singleton] at he
      rcases he with he | rfl
      · exact h.settled.2 e he
      · exact fun hne => absurd rfl hne
    · intro e hev
      have hne : e ≠ o.entry := by
        rintro rfl
        have := mem_affectedEdge hev
        exact hout (this ▸ List.mem_cons_self)
      rw [TripletStore.Counting, TripletStore.Counting, hentries, hsup, List.mem_append,
        List.mem_singleton, or_iff_left hne]
  · exact ⟨⟨h.sound.graph, fun e he => Nat.lt_succ_of_lt (h.sound.allocated e he), h.sound.state_lt,
      h.sound.session_lt⟩, h.counted, h.settled⟩

omit [F32 F] in
lemma Kept.tripletSupersede (h : s.Kept nowMs) (oldId newId : ℕ) (atMs : ℤ) (appended : Bool)
    (hspelled : ∀ seed ∈ s.replicationEdgeIds oldId, s.Spelled seed) :
    (s.tripletSupersede nowMs oldId newId atMs appended).Kept nowMs := by
  unfold ReplicationField.tripletSupersede
  split_ifs
  · refine h.refresh ⟨⟨⟨h.sound.graph.indexed.facts, h.sound.graph.indexed.indexesDirty,
      h.sound.graph.indexed.deferredReplay⟩, h.sound.graph.distinct⟩, h.sound.allocated,
      h.sound.state_lt, h.sound.session_lt⟩ h.settled (s.length_replicationEdgeIds oldId)
      (fun id hlt hout => ⟨rfl, rfl, ?_⟩) (fun _ _ => rfl) hspelled
    intro e hev
    refine and_congr_right fun he => and_congr_right fun _ => ?_
    have hne : e.id ≠ oldId := by
      rintro rfl
      rw [replicationEdgeIds_of_mem h.sound.graph he hev] at hout
      exact hout List.mem_cons_self
    exact iff_of_eq (congrArg (· = none) (Function.update_of_ne hne _ _))
  · exact h

lemma Kept.invalidateTriplet (h : s.Kept nowMs) (tripletId : ℕ) (appended : Bool)
    (hspelled : ∀ seed ∈ s.replicationEdgeIds tripletId, s.Spelled seed) :
    (s.invalidateTriplet nowMs tripletId appended).Kept nowMs := by
  unfold ReplicationField.invalidateTriplet
  split_ifs
  · have hstrings := TripletStore.sameStrings_invalidate h.sound.graph.indexed ⟨tripletId, nowMs⟩
    refine h.refresh ⟨h.sound.graph.invalidate _, ?_, h.sound.state_lt, h.sound.session_lt⟩ ?_
      (s.length_replicationEdgeIds tripletId) (fun id hlt hout => ⟨rfl, rfl, ?_⟩) (fun _ _ => rfl)
      hspelled
    · intro e he
      obtain ⟨e', he', hid, -⟩ := hstrings.exists_mem he
      rw [← hid]
      exact h.sound.allocated e' he'
    · refine ⟨h.settled.1, fun e he hne => ?_⟩
      rcases (h.sound.graph.mem_invalidate _).1 he with he | hnow
      · exact h.settled.2 e he hne
      · exact hnow.le
    · intro e hev
      have hne : ∀ e' ∈ s.graph.entries, e'.id = e.id → e'.spo = e.spo → e.id ≠ tripletId := by
        rintro e' he' hid hspo rfl
        rw [← hid, replicationEdgeIds_of_mem h.sound.graph he'
          ((evidenceOf_congr hspo).trans hev)] at hout
        exact hout List.mem_cons_self
      have hsup := (TripletStore.entries_invalidate h.sound.graph.indexed ⟨tripletId, nowMs⟩).2
      rw [TripletStore.Counting, TripletStore.Counting, hsup]
      constructor
      · rintro ⟨he, hrest⟩
        obtain ⟨e', he', hid, hspo⟩ := hstrings.exists_mem he
        exact ⟨((h.sound.graph.mem_invalidate _).2 (hne e' he' hid hspo)).mp he, hrest⟩
      · rintro ⟨he, hrest⟩
        exact ⟨((h.sound.graph.mem_invalidate _).2 (hne e he rfl rfl)).mpr he, hrest⟩
  · exact h

/-- No triplet of a source file that counts is evidence. -/
def SilentFile (s : ReplicationField F) (sourceFile : String) : Prop :=
  ∀ e ∈ s.graph.entries, e.validToMs = 0 → s.graph.supersessionMap e.id = none →
    e.sourceFile = some sourceFile → evidenceOf e = none

lemma Kept.invalidateTripletsBySourceFile (h : s.Kept nowMs) (sourceFile : String)
    (hsilent : s.SilentFile sourceFile) :
    (s.invalidateTripletsBySourceFile nowMs sourceFile).1.Kept nowMs := by
  have hindexed := h.sound.graph.indexed
  set o : InvalidateTripletsBySourceFileOp := ⟨sourceFile, nowMs⟩
  have hsup := (TripletStore.entries_invalidateBySourceFile hindexed o).2
  suffices hkept : ((s.invalidateTripletsBySourceFile nowMs sourceFile).1.refreshReplications nowMs
      []).Kept nowMs from hkept
  refine h.refresh ⟨h.sound.graph.invalidateBySourceFile o, ?_, h.sound.state_lt, h.sound.session_lt⟩ ?_
    (Nat.zero_le _) (fun id hlt _ => ⟨rfl, rfl, ?_⟩) (fun _ _ => rfl) (fun _ hmem => nomatch hmem)
  · intro e he
    rcases (TripletStore.mem_invalidateBySourceFile hindexed o).1 he with he | ⟨-, he⟩
    · exact h.sound.allocated e he
    · have := h.sound.allocated _ he
      exact this
  · refine ⟨h.settled.1, fun e he hne => ?_⟩
    rcases (TripletStore.mem_invalidateBySourceFile hindexed o).1 he with he | ⟨hnow, -⟩
    · exact h.settled.2 e he hne
    · exact hnow.le
  · intro e hev
    change e ∈ (s.graph.invalidateBySourceFile o).1.entries ∧ e.validToMs = 0 ∧
      (s.graph.invalidateBySourceFile o).1.supersessionMap e.id = none ↔ s.graph.Counting e
    rw [hsup]
    constructor
    · rintro ⟨he, hvalid, hrest⟩
      refine ⟨?_, hvalid, hrest⟩
      rcases (TripletStore.mem_invalidateBySourceFile hindexed o).1 he with he | ⟨-, he⟩
      · exact he
      · rwa [← hvalid] at he
    · rintro ⟨he, hvalid, hrest⟩
      refine ⟨(TripletStore.mem_invalidateBySourceFile hindexed o).2 he (Or.inr fun hfile => ?_),
        hvalid, hrest⟩
      rw [hsilent e he hvalid hrest hfile] at hev
      cases hev

/-! ## Several steps in a call -/

omit [F32 F] in
/-- Where fewer triplets lead to memories and fewer memories live, nothing is spelled worse. -/
lemma Spelled.mono {seed : MemoryId} (h : s.Spelled seed)
    (hcounting : ∀ e, s'.graph.Counting e →
      (∃ parent, Replication.follow e = .inl parent) ∨ e.predicate = "confirms" → s.graph.Counting e)
    (hlive : ∀ id, s'.states id = some false → s.states id = some false)
    (hstates : ∀ id, s'.states id ≠ none → s.states id ≠ none) : s'.Spelled seed := by
  have hparent : ∀ a b, s'.Parent a b → s.Parent a b := by
    rintro a b ⟨ha, e, he, hsubject, hfollow⟩
    exact ⟨hlive a ha, e, hcounting e he (Or.inl ⟨b, hfollow⟩), hsubject, hfollow⟩
  constructor
  · intro id parent e hne ha he hsubject hfollow hpath
    exact h.parents hne (hlive id ha) (hcounting e he (Or.inl ⟨parent, hfollow⟩)) hsubject hfollow
      (hpath.lift (fun id => id) hparent)
  · intro id witness e hne ha he hobject hp hparse hpath
    exact h.confirms hne (hstates id ha) (hcounting e he (Or.inr hp)) hobject hp hparse
      (hpath.lift (fun id => id) hparent)

lemma recordReplicationSession_cases (s : ReplicationField F) (nowMs : ℤ) (id : MemoryId)
    (session : Option String) (appends : List Bool) :
    (s.recordReplicationSession nowMs id session appends).1 = s ∨
      ∃ session', (s.recordReplicationSession nowMs id session appends).1 =
        s.addTriplet nowMs (toString id) "replication_session" session' (F32.lit 1) none none
          (appends.headD true) := by
  unfold recordReplicationSession
  split
  · exact Or.inl rfl
  · simp only
    split_ifs
    · exact Or.inl rfl
    · exact Or.inr ⟨_, rfl⟩

/-- To keep a session as a triplet changes the evidence of its memory only. -/
lemma Kept.recordReplicationSession (h : s.Kept nowMs) {id : MemoryId} (hlt : id < 2 ^ 64)
    (hspelled : s.Spelled id) (session : Option String) (appends : List Bool) :
    (s.recordReplicationSession nowMs id session appends).1.Kept nowMs ∧
      (s.recordReplicationSession nowMs id session appends).1.Spelled id := by
  rcases s.recordReplicationSession_cases nowMs id session appends with heq | ⟨session', heq⟩
  · rw [heq]
    exact ⟨h, hspelled⟩
  · rw [heq]
    have hseeds : affectedEdge (toString id) "replication_session" session' = [id] := by
      rw [affectedEdge, if_pos (by decide), parse_toString hlt]
      rfl
    refine ⟨h.addTriplet _ _ _ _ _ _ _ fun seed hseed => ?_, ?_⟩
    · rw [hseeds, List.mem_singleton] at hseed
      rwa [hseed]
    · unfold ReplicationField.addTriplet
      simp only
      split_ifs
      · refine hspelled.mono (fun e he hleads => ?_) (fun id hid => ?_) fun id hid => ?_
        · rw [(refreshReplications_frame _ _ _).1] at he
          obtain ⟨hentries, hsup⟩ := TripletStore.entries_replayAddAt h.sound.graph.indexed
            ⟨s.tripletIdAlloc, toString id, "replication_session", session', F32.lit 1, nowMs, none,
              none⟩ nowMs
          rw [TripletStore.Counting, hentries, hsup, List.mem_append, List.mem_singleton] at he
          refine ⟨he.1.resolve_right ?_, he.2⟩
          rintro rfl
          rcases hleads with ⟨parent, hfollow⟩ | hp
          · exact absurd hfollow Sum.inr_ne_inl
          · exact absurd hp (by decide : "replication_session" ≠ "confirms")
        · rwa [(refreshReplications_frame _ _ _).2.1] at hid
        · rwa [(refreshReplications_frame _ _ _).2.1] at hid
      · exact hspelled.mono (fun e he _ => he) (fun _ hid => hid) fun _ hid => hid

lemma Kept.setSourceSession (h : s.Kept nowMs) (memoryId : MemoryId) (sessionId : String)
    (appends : List Bool) (hspelled : s.Spelled memoryId) :
    (s.setSourceSession nowMs memoryId sessionId appends).Kept nowMs := by
  unfold ReplicationField.setSourceSession
  split
  · exact h
  · rename_i previous hprevious
    have hlt : memoryId < 2 ^ 64 :=
      h.sound.session_lt memoryId (by rw [hprevious]; exact Option.some_ne_none _)
    have hfirst := h.recordReplicationSession hlt hspelled previous appends
    generalize s.recordReplicationSession nowMs memoryId previous appends = first at hfirst ⊢
    obtain ⟨s₁, kept₁, appends₁⟩ := first
    simp only at hfirst ⊢
    cases kept₁ with
    | false => exact hfirst.1
    | true =>
      have hsecond := hfirst.1.recordReplicationSession hlt hfirst.2 (some sessionId) appends₁
      generalize s₁.recordReplicationSession nowMs memoryId (some sessionId) appends₁ = second
        at hsecond ⊢
      obtain ⟨s₂, kept₂, appends₂⟩ := second
      simp only at hsecond ⊢
      cases kept₂ with
      | false => exact hsecond.1
      | true =>
        obtain ⟨hkept, hsp⟩ := hsecond
        rw [if_pos trivial, if_pos rfl]
        refine hkept.refresh ⟨hkept.sound.graph, hkept.sound.allocated, hkept.sound.state_lt,
          fun id hid => ?_⟩ hkept.settled (show [memoryId].length ≤ 1 from Nat.le_refl 1)
          (fun id _ hout => ⟨rfl, ?_, fun _ => Iff.rfl⟩) (fun _ _ => rfl) fun seed hseed => ?_
        · by_cases heq : id = memoryId
          · rwa [heq]
          · change Function.update s₂.sourceSessions memoryId _ id ≠ none at hid
            rw [Function.update_of_ne heq] at hid
            exact hkept.sound.session_lt id hid
        · exact Function.update_of_ne (fun heq => hout (List.mem_singleton.mpr heq)) ..
        · rwa [List.mem_singleton.mp hseed]

lemma Kept.putMemory (h : s.Kept nowMs) (found : Option MemoryId) (memoryId : UInt64)
    (sourceSession : Option String) (appends : List Bool)
    (hspelled : s.Spelled ((found.filter fun id => s.states id = some false).getD memoryId.toNat)) :
    (s.putMemory nowMs found memoryId sourceSession appends).Kept nowMs := by
  unfold ReplicationField.putMemory
  cases hfound : found.filter fun id => s.states id = some false with
  | some existing =>
    rw [hfound] at hspelled
    have hlive := (Option.filter_eq_some_iff.mp hfound).2
    have hlt : existing < 2 ^ 64 := h.sound.lt_of_live (of_decide_eq_true hlive)
    exact (h.recordReplicationSession hlt hspelled sourceSession appends).1
  | none =>
    rw [hfound] at hspelled
    simp only
    split_ifs
    · have hupdate : ∀ {α : Type} (m : MemoryId → Option α) (v : Option α),
          (∀ id, m id ≠ none → id < 2 ^ 64) →
            ∀ id, Function.update m memoryId.toNat v id ≠ none → id < 2 ^ 64 := by
        intro α m v hm id hid
        by_cases heq : id = memoryId.toNat
        · rw [heq]
          exact memoryId.toNat_lt
        · rw [Function.update_of_ne heq] at hid
          exact hm id hid
      have hother : ∀ {α : Type} (m : MemoryId → α) (v : α) id, id ∉ [memoryId.toNat] →
          Function.update m memoryId.toNat v id = m id := fun m v id hout =>
        Function.update_of_ne (fun heq => hout (List.mem_singleton.mpr heq)) ..
      refine h.refresh ⟨h.sound.graph, h.sound.allocated, hupdate _ _ h.sound.state_lt,
        hupdate _ _ h.sound.session_lt⟩ h.settled (Nat.le_refl 1)
        (fun id _ hout => ⟨hother _ _ id hout, hother _ _ id hout, fun _ => Iff.rfl⟩)
        (fun id hout => hother _ _ id hout) fun seed hseed => ?_
      rwa [List.mem_singleton.mp hseed]
    · exact h

omit [F32 F] in
/-- The memories whose evidence a triplet is do not change with its time. -/
lemma replicationEdgeIds_congr (h : s.graph.Sound) (h' : s'.graph.Sound)
    (hsame : s.graph.SameStrings s'.graph) (id : ℕ) :
    s'.replicationEdgeIds id = s.replicationEdgeIds id := by
  have hspo : ∀ {e e' : TripletEntry F}, e'.spo = e.spo →
      affectedEdge e'.subject e'.predicate e'.object =
        affectedEdge e.subject e.predicate e.object := by
    intro e e' heq
    simp only [TripletEntry.spo, Prod.mk.injEq] at heq
    rw [heq.1, heq.2.1, heq.2.2]
  cases hentry : s'.graph.entryById id with
  | some e =>
    obtain ⟨he, rfl⟩ := h'.entryById.mp hentry
    obtain ⟨e', he', hid, heq⟩ := hsame.exists_mem he
    rw [replicationEdgeIds, replicationEdgeIds, hentry, h.entryById.mpr ⟨he', hid⟩]
    exact (hspo heq).symm
  | none =>
    have hnone : s.graph.entryById id = none := by
      by_contra hne
      obtain ⟨e, hsome⟩ := Option.ne_none_iff_exists'.mp hne
      obtain ⟨he, rfl⟩ := h.entryById.mp hsome
      obtain ⟨e', he', hid, -⟩ := TripletStore.SameStrings.exists_mem (t := s'.graph) hsame.symm he
      rw [h'.entryById.mpr ⟨he', hid⟩] at hentry
      cases hentry
    rw [replicationEdgeIds, replicationEdgeIds, hentry, hnone]

/-- To end a triplet leaves nothing spelled worse, and changes nobody's triplets. -/
lemma invalidateTriplet_spelled (h : s.Kept nowMs) (tripletId : ℕ) (appended : Bool) :
    (∀ seed, s.Spelled seed → (s.invalidateTriplet nowMs tripletId appended).Spelled seed) ∧
      s.graph.SameStrings (s.invalidateTriplet nowMs tripletId appended).graph := by
  unfold ReplicationField.invalidateTriplet
  split_ifs
  · obtain ⟨hgraph, hstates, -, -⟩ := refreshReplications_frame
      { s with graph := s.graph.invalidate ⟨tripletId, nowMs⟩ } nowMs
        (s.replicationEdgeIds tripletId)
    refine ⟨fun seed hseed => hseed.mono (fun e he _ => ?_) (fun id hid => ?_) fun id hid => ?_, ?_⟩
    · rw [hgraph] at he
      obtain ⟨hmem, hvalid, hsup⟩ := he
      rw [(TripletStore.entries_invalidate h.sound.graph.indexed _).2] at hsup
      refine ⟨((h.sound.graph.mem_invalidate _).1 hmem).resolve_right fun hnow => ?_, hvalid, hsup⟩
      exact h.settled.1.ne' (hnow.symm.trans hvalid)
    · rwa [hstates] at hid
    · rwa [hstates] at hid
    · rw [hgraph]
      exact TripletStore.sameStrings_invalidate h.sound.graph.indexed _
  · exact ⟨fun _ hseed => hseed, rfl⟩

lemma Kept.forget (h : s.Kept nowMs) (memoryId : MemoryId) (appends : List Bool)
    (hspelled : ∀ seed ∈ memoryId :: (s.graph.idsBySourceMemory memoryId).flatMap
      s.replicationEdgeIds, s.Spelled seed) : (s.forget nowMs memoryId appends).Kept nowMs := by
  unfold ReplicationField.forget
  split_ifs with hthere
  · set s₁ : ReplicationField F := { s with
      states := Function.update s.states memoryId (some true) }
    obtain ⟨hgraph, hstates, -, -⟩ := s₁.refreshReplications_frame nowMs [memoryId]
    have hlive : ∀ id, s₁.states id = some false → s.states id = some false := by
      intro id hid
      change Function.update s.states memoryId (some true) id = some false at hid
      by_cases heq : id = memoryId
      · rw [heq, Function.update_self] at hid
        cases hid
      · rwa [Function.update_of_ne heq] at hid
    have hsome : ∀ id, s₁.states id ≠ none → s.states id ≠ none := by
      intro id hid
      by_cases heq : id = memoryId
      · rw [heq]
        exact Option.isSome_iff_ne_none.mp hthere.1
      · change Function.update s.states memoryId (some true) id ≠ none at hid
        rwa [Function.update_of_ne heq] at hid
    have hkept : (s₁.refreshReplications nowMs [memoryId]).Kept nowMs := by
      refine h.refresh ⟨h.sound.graph, h.sound.allocated, fun id hid =>
        h.sound.state_lt id (hsome id hid), h.sound.session_lt⟩ h.settled (Nat.le_refl 1)
        (fun id _ hout => ⟨?_, rfl, fun _ => Iff.rfl⟩) (fun _ _ => rfl) fun seed hseed => ?_
      · exact Function.update_of_ne (fun heq => hout (List.mem_singleton.mpr heq)) ..
      · rw [List.mem_singleton.mp hseed]
        exact hspelled _ List.mem_cons_self
    have hfirst : ∀ tid ∈ s.graph.idsBySourceMemory memoryId, ∀ seed ∈
        (s₁.refreshReplications nowMs [memoryId]).replicationEdgeIds tid,
          (s₁.refreshReplications nowMs [memoryId]).Spelled seed := by
      intro tid htid seed hseed
      rw [replicationEdgeIds, hgraph] at hseed
      have hold := hspelled seed (List.mem_cons_of_mem _ (List.mem_flatMap.mpr ⟨tid, htid, hseed⟩))
      refine hold.mono (fun e he _ => ?_) (fun id hid => hlive id ?_) fun id hid => hsome id ?_
      · rwa [hgraph] at he
      · rwa [hstates] at hid
      · rwa [hstates] at hid
    simp only [hgraph]
    generalize s₁.refreshReplications nowMs [memoryId] = cur at hkept hfirst
    generalize s.graph.idsBySourceMemory memoryId = tids at hfirst
    generalize appends.tail = rest
    induction tids generalizing cur rest with
    | nil => exact hkept
    | cons tid tids ih =>
      obtain ⟨hsp, hstrings⟩ := invalidateTriplet_spelled hkept tid (rest.headD true)
      have hnext := hkept.invalidateTriplet tid (rest.headD true) (hfirst tid List.mem_cons_self)
      refine ih _ hnext (fun tid' htid' seed hseed => ?_) _
      rw [replicationEdgeIds_congr hkept.sound.graph hnext.sound.graph hstrings] at hseed
      exact hsp seed (hfirst tid' (List.mem_cons_of_mem _ htid') seed hseed)
  · exact h

/-! ## Runs -/

omit [F32 F] in
/-- A triplet that leads a live memory to one whose provenance comes to a changed one is spelled as
`to_string` does. -/
def SpelledParent (s : ReplicationField F) (atMs : ℤ) (seed : MemoryId) (e : TripletEntry F) : Prop :=
  ∀ id ∈ canonical e.subject, id ≠ seed → s.states id = some false →
    ∀ parent ∈ (Replication.follow e).getLeft?, seed ∈ (s.provenance atMs parent).1 → e.object = toString parent

omit [F32 F] in
/-- A confirmation by a memory whose provenance comes to a changed one is spelled so. -/
def SpelledWitness (s : ReplicationField F) (atMs : ℤ) (seed : MemoryId) (e : TripletEntry F) :
    Prop :=
  e.predicate = "confirms" → ∀ id ∈ canonical e.object, id ≠ seed → s.states id ≠ none →
    ∀ witness ∈ parse e.subject, seed ∈ (s.provenance atMs witness).1 → e.subject = toString witness

omit [F32 F] in
/-- The triplets that count, and are evidence of another memory than the changed one, are spelled
so. -/
def SpelledAt (s : ReplicationField F) (atMs : ℤ) (seed : MemoryId) : Prop :=
  ∀ e ∈ s.graph.entries, e.validToMs = 0 → s.graph.supersessionMap e.id = none →
    s.SpelledParent atMs seed e ∧ s.SpelledWitness atMs seed e

instance (s : ReplicationField F) (atMs : ℤ) (seed : MemoryId) :
    DecidablePred (s.SpelledParent atMs seed) := fun e =>
  inferInstanceAs (Decidable (∀ id ∈ canonical e.subject, id ≠ seed → s.states id = some false →
    ∀ parent ∈ (Replication.follow e).getLeft?, seed ∈ (s.provenance atMs parent).1 →
      e.object = toString parent))

instance (s : ReplicationField F) (atMs : ℤ) (seed : MemoryId) :
    DecidablePred (s.SpelledWitness atMs seed) := fun e =>
  inferInstanceAs (Decidable (e.predicate = "confirms" → ∀ id ∈ canonical e.object, id ≠ seed →
    s.states id ≠ none → ∀ witness ∈ parse e.subject, seed ∈ (s.provenance atMs witness).1 →
      e.subject = toString witness))

instance (s : ReplicationField F) (atMs : ℤ) : DecidablePred (s.SpelledAt atMs) := fun seed =>
  inferInstanceAs (Decidable (∀ e ∈ s.graph.entries, e.validToMs = 0 →
    s.graph.supersessionMap e.id = none →
      s.SpelledParent atMs seed e ∧ s.SpelledWitness atMs seed e))

instance (s : ReplicationField F) : DecidablePred s.SilentFile := fun sourceFile =>
  inferInstanceAs (Decidable (∀ e ∈ s.graph.entries, e.validToMs = 0 →
    s.graph.supersessionMap e.id = none → e.sourceFile = some sourceFile → evidenceOf e = none))

omit [F32 F] in
lemma SpelledAt.spelled {seed : MemoryId} (hspelled : s.SpelledAt nowMs seed) (h : s.Sound)
    (hs : s.graph.Settled nowMs) : s.Spelled seed := by
  constructor
  · intro id parent e hne hlive he hsubject hfollow hpath
    exact (hspelled e he.1 he.2.1 he.2.2).1 id (canonical_eq_some.mpr ⟨h.lt_of_live hlive, hsubject⟩)
      hne hlive parent (Sum.getLeft?_eq_some_iff.mpr hfollow)
      (((provenance_spec h.graph hs parent).1 seed).mpr hpath)
  · intro id witness e hne hid he hobject hp hparse hpath
    exact (hspelled e he.1 he.2.1 he.2.2).2 hp id
      (canonical_eq_some.mpr ⟨h.state_lt id hid, hobject⟩) hne hid witness hparse
      (((provenance_spec h.graph hs witness).1 seed).mpr hpath)

omit [F32 F] in
/-- The memories whose evidence a call changes. -/
def changedBy (s : ReplicationField F) : ReplicationCall F → List MemoryId
  | .putMemory found memoryId _ _ =>
    [(found.filter fun id => s.states id = some false).getD memoryId.toNat]
  | .forget memoryId _ =>
    memoryId :: (s.graph.idsBySourceMemory memoryId).flatMap s.replicationEdgeIds
  | .addTriplet subject predicate object _ _ _ _ => affectedEdge subject predicate object
  | .invalidateTriplet tripletId _ => s.replicationEdgeIds tripletId
  | .invalidateTripletsBySourceFile _ => []
  | .tripletSupersede oldId _ _ _ => s.replicationEdgeIds oldId
  | .setSourceSession memoryId _ _ => [memoryId]

omit [F32 F] in
/-- A call does not end evidence by its source file. -/
def SilentCall (s : ReplicationField F) : ReplicationCall F → Prop
  | .invalidateTripletsBySourceFile sourceFile => s.SilentFile sourceFile
  | _ => True

instance (s : ReplicationField F) : DecidablePred s.SilentCall
  | .invalidateTripletsBySourceFile sourceFile =>
    inferInstanceAs (Decidable (s.SilentFile sourceFile))
  | .putMemory _ _ _ _ | .forget _ _ | .addTriplet _ _ _ _ _ _ _ | .invalidateTriplet _ _
  | .tripletSupersede _ _ _ _ | .setSourceSession _ _ _ => inferInstanceAs (Decidable True)

omit [F32 F] in
/-- A call whose effect on the counts is noticed. -/
def Noticed (s : ReplicationField F) (c : ℤ × ReplicationCall F) : Prop :=
  s.graph.Settled c.1 ∧ (∀ seed ∈ s.changedBy c.2, s.SpelledAt c.1 seed) ∧ s.SilentCall c.2

instance (s : ReplicationField F) : DecidablePred s.Noticed := fun c =>
  inferInstanceAs (Decidable (s.graph.Settled c.1 ∧ _ ∧ s.SilentCall c.2))

/-- A call keeps the counts right. -/
lemma Kept.call (h : s.Kept nowMs) {c : ReplicationCall F} (hc : s.Noticed (nowMs, c)) :
    (s.call (nowMs, c)).1.Kept nowMs := by
  obtain ⟨hs, hspelled, hsilent⟩ := hc
  have hseeds : ∀ seed ∈ s.changedBy c, s.Spelled seed := fun seed hseed =>
    (hspelled seed hseed).spelled h.sound hs
  cases c with
  | putMemory found memoryId sourceSession appends =>
    exact h.putMemory found memoryId sourceSession appends (hseeds _ List.mem_cons_self)
  | forget memoryId appends => exact h.forget memoryId appends hseeds
  | addTriplet subject predicate object weight sourceMemoryId sourceFile appended =>
    exact h.addTriplet subject predicate object weight sourceMemoryId sourceFile appended hseeds
  | invalidateTriplet tripletId appended => exact h.invalidateTriplet tripletId appended hseeds
  | invalidateTripletsBySourceFile sourceFile =>
    exact h.invalidateTripletsBySourceFile sourceFile hsilent
  | tripletSupersede oldId newId atMs appended =>
    exact h.tripletSupersede oldId newId atMs appended hseeds
  | setSourceSession memoryId sessionId appends =>
    exact h.setSourceSession memoryId sessionId appends (hseeds _ List.mem_cons_self)

omit [F32 F] in
/-- Behind a rebuild the counts are right. -/
lemma Sound.counted_rebuild (h : s.Sound) (hs : s.graph.Settled nowMs) :
    (s.rebuild nowMs).Counted := by
  intro atMs hat id hid
  have hsome : (s.states id).isSome = true := Option.isSome_iff_ne_none.mpr hid
  change (if (s.states id).isSome then s.count nowMs id else s.replicationCount id) = s.count atMs id
  rw [if_pos hsome]
  exact count_time h hat hs id

/-- Behind mutations whose effect is noticed, the counts are those of a rebuild. -/
theorem replication_is_recomputed (h : s.Sound) (hs : s.graph.Settled nowMs)
    {calls : List (ℤ × ReplicationCall F)} (hall : Replayed.All call Noticed (s.rebuild nowMs) calls)
    {atMs : ℤ} (hat : (Replayed.run call (s.rebuild nowMs) calls).1.graph.Settled atMs) :
    ((Replayed.run call (s.rebuild nowMs) calls).1.rebuild atMs).replicationCount =
      (Replayed.run call (s.rebuild nowMs) calls).1.replicationCount := by
  have hstep : ∀ (s : ReplicationField F) c, s.Sound ∧ s.Counted → s.Noticed c →
      (s.call c).1.Sound ∧ (s.call c).1.Counted := by
    rintro s ⟨nowMs, c⟩ ⟨hsound, hcounted⟩ hc
    have hkept : s.Kept nowMs := ⟨hsound, hcounted, hc.1⟩
    exact ⟨(hkept.call hc).sound, (hkept.call hc).counted⟩
  have hstart : (s.rebuild nowMs).Sound ∧ (s.rebuild nowMs).Counted :=
    ⟨⟨h.graph, h.allocated, h.state_lt, h.session_lt⟩, h.counted_rebuild hs⟩
  have hcounted := (Replayed.invariant_run (fun s => s.Sound ∧ s.Counted) hstep hstart hall).2
  funext id
  change (if _ then _ else _) = _
  split_ifs with hsome
  · exact (hcounted atMs hat id (Option.isSome_iff_ne_none.mp hsome)).symm
  · rfl

omit [F32 F] in
lemma sound_new : (new F).Sound :=
  ⟨⟨TripletStore.indexed_empty, List.nodup_nil⟩, fun _ h => (nomatch h), fun _ h => absurd rfl h,
    fun _ h => absurd rfl h⟩

/-- Memory 1 comes from memory 2, whose number is given a plus sign, so what memory 2 gains is not
counted; and what memory 2 loses by a source file is still counted. -/
theorem replication_not_recomputed :
    let s := (Replayed.run call ((new ℚ).rebuild 9)
      [(10, .putMemory none 1 none []), (11, .putMemory none 2 none []),
        (12, .addTriplet "1" "derived_from" "+2" 1 none none true),
        (13, .setSourceSession 2 "one" []), (14, .setSourceSession 2 "session: two" []),
        (15, .addTriplet "2" "derived_from" "session:three" 1 none (some "notes") true),
        (16, .invalidateTripletsBySourceFile "notes")]).1
    (s.replicationCount 1, s.replicationCount 2) = (1, 3) ∧
      ((s.rebuild 17).replicationCount 1, (s.rebuild 17).replicationCount 2) = (2, 2) := by
  decide +kernel

/-- The provenance runs in a circle, a confirmation comes and goes, and a memory is forgotten. -/
theorem replication_is_recomputed_sample :
    let s := (Replayed.run call ((new ℚ).rebuild 9)
      [(10, .putMemory none 1 none []), (11, .putMemory none 2 (some "one") []),
        (12, .addTriplet "1" "derived_from" "2" 1 none none true),
        (13, .addTriplet "2" "source" "1" 1 none none true), (14, .putMemory none 3 none []),
        (15, .addTriplet "3" "confirms" "1" 1 (some 3) none true),
        (16, .setSourceSession 3 "two" []), (17, .putMemory (some 2) 4 (some "three") []),
        (18, .addTriplet "a" "calls" "b" 1 none (some "notes") true),
        (19, .invalidateTripletsBySourceFile "notes"), (20, .tripletSupersede 2 1 20 true),
        (21, .invalidateTriplet 1 true), (22, .forget 3 [])]).1
    (s.rebuild 23).replicationCount = s.replicationCount :=
  replication_is_recomputed sound_new (by decide) (by decide +kernel) (by decide +kernel)

end ReplicationField

end ChittaField
