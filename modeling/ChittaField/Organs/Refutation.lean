import ChittaField.Lib.HashMaps
import ChittaField.Organs.EventTape

/-!
# Rules and their refutation

Pairs of symbols that follow each other often on the tape are rules.  Every pass finds the rules anew and
numbers them in the order in which a hash map is iterated.  The ledger counts for every rule how often
its second symbol followed the first one and how often another one did, and refutes rules; the statuses
are kept by the numbers of the rules, over any number of passes.  `statuses_follow_pairs` says along
which runs a status is that of the pair.
-/

namespace ChittaField.Refutation

open HashMaps

/-! ## Rules -/

/-- Two symbols, one behind the other. -/
abbrev Pair := ℕ × ℕ

structure SequiturRule where
  id : ℕ
  symA : ℕ
  symB : ℕ
  support : ℕ
  /-- Nothing where the second event is a success, else one. -/
  avgOutcome : ℕ
  tapeStart : ℕ
  tapeEnd : ℕ
  contradictCount : ℕ
  deriving DecidableEq

namespace SequiturRule

def pair (r : SequiturRule) : Pair := (r.symA, r.symB)

end SequiturRule

/-- How often a pair is on the tape, and where it is first and last. -/
structure Count where
  support : ℕ
  first : ℕ
  last : ℕ
  deriving DecidableEq

/-- Count a pair at a place. -/
def addPair (counts : Finmap fun _ : Pair => Count) (x : Pair × ℕ) : Finmap fun _ : Pair => Count :=
  let c := (counts.lookup x.1).getD ⟨0, x.2, x.2⟩
  counts.insert x.1 ⟨c.support + 1, min c.first x.2, max c.last x.2⟩

/-- The pairs of the tape with their places. -/
def placedPairs (tape : EventTape) : List (Pair × ℕ) :=
  let syms := tape.events.map (·.pack)
  (syms.zip syms.tail).zipIdx

/-- The rule of a pair that was counted. -/
def ruleOf (x : (Pair × Count) × ℕ) : SequiturRule where
  id := x.2
  symA := x.1.1.1
  symB := x.1.1.2
  support := x.1.2.support
  avgOutcome := min ((x.1.1.2 >>> 32) % 2 ^ 8) 1
  tapeStart := x.1.2.first
  tapeEnd := x.1.2.last
  contradictCount := 0

/-- The pairs that are frequent enough, numbered in the order of the hash map, the most frequent first. -/
def runSequitur (order : KeyOrder Pair) (tape : EventTape) (minSupport : ℕ) : List SequiturRule :=
  if tape.events.length < 2 then []
  else
    let counts := (placedPairs tape).foldl addPair ∅
    let frequent := (entries order counts).filter fun e => decide (minSupport ≤ e.2.support)
    (frequent.zipIdx.map ruleOf).insertionSort fun a b => b.support ≤ a.support

/-- The support that a pass asks for. -/
def minSupport : ℕ := 5

/-! ## The ledger -/

structure RefutEntry where
  ruleId : ℕ
  expectedSymB : ℕ
  support : ℕ
  contradict : ℕ
  lastTs : ℤ
  deriving DecidableEq

inductive RefutStatus where
  | live
  | refuted (tsMs : ℤ)
  deriving DecidableEq

/-- The comparisons of quotients of small numbers. -/
structure Ratios where
  /-- The quotient is above 0.4. -/
  above (contradict denom : ℕ) : Bool
  /-- The quotient is below 0.2. -/
  below (contradict denom : ℕ) : Bool

variable (R : Ratios)

/-- More than two in five observations contradict; without observations none do. -/
def exceeds (support contradict : ℕ) : Bool :=
  support + contradict ≠ 0 && R.above contradict (support + contradict)

/-- Less than one in five observations contradict. -/
def recovers (support contradict : ℕ) : Bool :=
  support + contradict = 0 || R.below contradict (support + contradict)

/-- What becomes of a status, if anything. -/
def nextStatus (support contradict : ℕ) (tsMs : ℤ) : RefutStatus → Option RefutStatus
  | .live => if exceeds R support contradict then some (.refuted tsMs) else none
  | .refuted _ => if recovers R support contradict then some .live else none

/-- The entries by the first symbols, and the statuses by the numbers of the rules. -/
structure RefutationLedger where
  antecedentIndex : ℕ → Option (List RefutEntry)
  ruleStatus : ℕ → Option RefutStatus

namespace RefutationLedger

def new : RefutationLedger := ⟨fun _ => none, fun _ => none⟩

/-- Take a rule in.  A number that has a status keeps it. -/
def seedRule (l : RefutationLedger) (r : SequiturRule) : RefutationLedger where
  antecedentIndex := Maps.push l.antecedentIndex r.symA ⟨r.id, r.symB, r.support, 0, 0⟩
  ruleStatus := Maps.orInsert l.ruleStatus r.id .live

/-- Take rules in, in place of those that there are. -/
def seedFromRules (l : RefutationLedger) (rules : List SequiturRule) : RefutationLedger :=
  rules.foldl seedRule { l with antecedentIndex := fun _ => none }

/-- The status of a rule. -/
def status (l : RefutationLedger) (ruleId : ℕ) : RefutStatus := (l.ruleStatus ruleId).getD .live

/-- Count an observation for an entry. -/
def observed (symB : ℕ) (tsMs : ℤ) (e : RefutEntry) : RefutEntry :=
  if symB = e.expectedSymB then { e with lastTs := tsMs, support := e.support + 1 }
  else { e with lastTs := tsMs, contradict := e.contradict + 1 }

/-- Count an observation for an entry, and see what becomes of the status of its rule. -/
def observeEntry (symB : ℕ) (tsMs : ℤ) (s : (ℕ → Option RefutStatus) × List (ℕ × RefutStatus))
    (e : RefutEntry) : (ℕ → Option RefutStatus) × List (ℕ × RefutStatus) :=
  let e := observed symB tsMs e
  match nextStatus R e.support e.contradict tsMs ((s.1 e.ruleId).getD .live) with
  | some status => (Function.update s.1 e.ruleId (some status), s.2 ++ [(e.ruleId, status)])
  | none => s

/-- Observe that a symbol was followed by another one; the rules whose status changed. -/
def observe (l : RefutationLedger) (symA symB : ℕ) (tsMs : ℤ) :
    RefutationLedger × List (ℕ × RefutStatus) :=
  match l.antecedentIndex symA with
  | none => (l, [])
  | some es =>
    let s := es.foldl (observeEntry R symB tsMs) (l.ruleStatus, [])
    (⟨Function.update l.antecedentIndex symA (some (es.map (observed symB tsMs))), s.1⟩, s.2)

end RefutationLedger

/-! ## Runs -/

/-- The tape and the ledger, with the rules of the last pass and the pairs that ever were rules. -/
structure Consolidation where
  tape : EventTape
  ledger : RefutationLedger
  rules : List SequiturRule
  everRules : List Pair

/-- A call; a pass compresses the tape when it has found the rules. -/
inductive LedgerCall where
  | log (tool entity : String) (outcome : UInt8) (sessionId : UInt64) (tsMs : ℤ)
  | pass (remove : List Bool)
  | observe (symA symB : ℕ) (tsMs : ℤ)

variable (T : Casing) (home : Option String)

namespace Consolidation

def new : Consolidation := ⟨.new, .new, [], []⟩

/-- Do a call; a pass iterates its hash map in some order. -/
def step (s : Consolidation) (c : LedgerCall × KeyOrder Pair) : Consolidation :=
  match c.1 with
  | .log tool entity outcome sessionId tsMs =>
    { s with tape := (s.tape.log T home tool entity outcome sessionId tsMs).2 }
  | .pass remove =>
    let rules := runSequitur c.2 s.tape minSupport
    { tape := (s.tape.applyRemovals remove).2
      ledger := s.ledger.seedFromRules rules
      rules := rules
      everRules := s.everRules ++ rules.map (·.pair) }
  | .observe symA symB tsMs => { s with ledger := (s.ledger.observe R symA symB tsMs).1 }

end Consolidation

/-! ## Statuses of pairs -/

/-- A ledger by pairs: the counts of the pairs that are rules, and the statuses of all pairs. -/
structure PairLedger where
  tape : EventTape
  counts : Pair → Option (ℕ × ℕ)
  status : Pair → RefutStatus

namespace PairLedger

def new : PairLedger := ⟨.new, fun _ => none, fun _ => .live⟩

/-- How often a pair is on a tape. -/
def occurrences (tape : EventTape) (p : Pair) : ℕ :=
  ((tape.events.map (·.pack)).zip (tape.events.map (·.pack)).tail).count p

/-- The counts of a pair behind an observation. -/
def counted (symB : ℕ) (p : Pair) (c : ℕ × ℕ) : ℕ × ℕ :=
  if symB = p.2 then (c.1 + 1, c.2) else (c.1, c.2 + 1)

/-- Do a call.  No hash map is iterated. -/
def step (l : PairLedger) : LedgerCall → PairLedger
  | .log tool entity outcome sessionId tsMs =>
    { l with tape := (l.tape.log T home tool entity outcome sessionId tsMs).2 }
  | .pass remove =>
    { l with
      tape := (l.tape.applyRemovals remove).2
      counts := fun p => if minSupport ≤ occurrences l.tape p then some (occurrences l.tape p, 0) else none }
  | .observe symA symB tsMs =>
    { l with
      counts := fun p => if p.1 = symA then (l.counts p).map (counted symB p) else l.counts p
      status := fun p =>
        if p.1 = symA then
          ((l.counts p).bind fun c =>
            nextStatus R (counted symB p c).1 (counted symB p c).2 tsMs (l.status p)).getD (l.status p)
        else l.status p }

end PairLedger

/-! ## What a pass finds -/

/-- The number that was counted of a pair. -/
def supportIn (counts : Finmap fun _ : Pair => Count) (p : Pair) : ℕ :=
  ((counts.lookup p).map (·.support)).getD 0

lemma supportIn_foldl (xs : List (Pair × ℕ)) (counts : Finmap fun _ : Pair => Count) (p : Pair) :
    supportIn (xs.foldl addPair counts) p = supportIn counts p + (xs.map (·.1)).count p := by
  induction xs generalizing counts with
  | nil => rfl
  | cons x xs ih =>
    rw [List.foldl_cons, ih, List.map_cons, List.count_cons]
    have hadd : supportIn (addPair counts x) p = supportIn counts p + if x.1 == p then 1 else 0 := by
      unfold supportIn addPair
      dsimp only
      by_cases hx : x.1 = p
      · subst hx
        rw [Finmap.lookup_insert, beq_self_eq_true, if_pos rfl]
        cases counts.lookup x.1 <;> rfl
      · rw [Finmap.lookup_insert_of_ne _ (Ne.symm hx), beq_eq_false_iff_ne.mpr hx]
        rfl
    rw [hadd]
    omega

lemma map_fst_placedPairs (tape : EventTape) : (placedPairs tape).map (·.1) =
    (tape.events.map (·.pack)).zip (tape.events.map (·.pack)).tail :=
  List.zipIdx_map_fst ..

/-- Rules that were found on a tape: they are numbered from 0, and they are the frequent pairs. -/
structure Numbered (tape : EventTape) (rules : List SequiturRule) : Prop where
  ids : (rules.map (·.id)).Nodup
  pairs : (rules.map (·.pair)).Nodup
  bound : ∀ r ∈ rules, r.id < rules.length
  support : ∀ r ∈ rules, r.support = PairLedger.occurrences tape r.pair ∧ minSupport ≤ r.support
  all : ∀ p, minSupport ≤ PairLedger.occurrences tape p → ∃ r ∈ rules, r.pair = p

lemma numbered_runSequitur (order : KeyOrder Pair) (tape : EventTape) :
    Numbered tape (runSequitur order tape minSupport) := by
  unfold runSequitur
  split_ifs with hshort
  · -- one event makes no pair
    refine ⟨List.nodup_nil, List.nodup_nil, by simp, by simp, fun p hp => ?_⟩
    have hzero : PairLedger.occurrences tape p = 0 := by
      unfold PairLedger.occurrences
      rcases htape : tape.events with _ | ⟨e, _ | ⟨e', es⟩⟩
      · rfl
      · rfl
      · rw [htape] at hshort
        simp at hshort
    rw [hzero] at hp
    exact absurd hp (by decide)
  have hsupport : ∀ p, supportIn ((placedPairs tape).foldl addPair ∅) p =
      PairLedger.occurrences tape p := by
    intro p
    rw [supportIn_foldl, map_fst_placedPairs]
    exact Nat.zero_add _
  dsimp only
  generalize (placedPairs tape).foldl addPair ∅ = counts at hsupport
  set frequent := (entries order counts).filter fun e => decide (minSupport ≤ e.2.support)
  have hperm := List.perm_insertionSort (fun a b : SequiturRule => b.support ≤ a.support)
    (frequent.zipIdx.map ruleOf)
  have hmem : ∀ r, r ∈ (frequent.zipIdx.map ruleOf).insertionSort
      (fun a b : SequiturRule => b.support ≤ a.support) ↔ ∃ x ∈ frequent.zipIdx, ruleOf x = r :=
    fun r => (hperm.mem_iff).trans List.mem_map
  have hids : (frequent.zipIdx.map ruleOf).map (·.id) = List.range frequent.length := by
    rw [List.map_map]
    exact (List.zipIdx_map_snd ..).trans (List.range_eq_range' ..).symm
  have hpairs : (frequent.zipIdx.map ruleOf).map (·.pair) = frequent.map (·.1) := by
    rw [List.map_map, ← List.zipIdx_map_fst 0 frequent, List.map_map, List.zipIdx_map_fst]
    rfl
  have hentry : ∀ e ∈ frequent, e.2.support = PairLedger.occurrences tape e.1 ∧
      minSupport ≤ e.2.support := by
    intro e he
    obtain ⟨hentry, hle⟩ := List.mem_filter.mp he
    rw [← hsupport, supportIn, mem_entries.mp hentry]
    exact ⟨rfl, of_decide_eq_true hle⟩
  refine ⟨?_, ?_, fun r hr => ?_, fun r hr => ?_, fun p hp => ?_⟩
  · rw [(hperm.map _).nodup_iff, hids]
    exact List.nodup_range
  · rw [(hperm.map _).nodup_iff, hpairs]
    exact (nodup_entries order).sublist (List.filter_sublist.map _)
  · have hid : r.id ∈ (frequent.zipIdx.map ruleOf).map (·.id) :=
      List.mem_map_of_mem (hperm.mem_iff.mp hr)
    rw [hids, List.mem_range] at hid
    rwa [hperm.length_eq, List.length_map, List.length_zipIdx]
  · obtain ⟨x, hx, rfl⟩ := (hmem r).mp hr
    exact hentry x.1 (List.fst_mem_of_mem_zipIdx hx)
  · have hlookup : ∃ c, counts.lookup p = some c ∧ minSupport ≤ c.support := by
      rw [← hsupport, supportIn] at hp
      cases hc : counts.lookup p with
      | none =>
        rw [hc] at hp
        exact absurd hp (by decide)
      | some c =>
        rw [hc] at hp
        exact ⟨c, rfl, hp⟩
    obtain ⟨c, hc, hle⟩ := hlookup
    have hfreq : (p, c) ∈ frequent := List.mem_filter.mpr ⟨mem_entries.mpr hc, decide_eq_true hle⟩
    have hrule : p ∈ (frequent.zipIdx.map ruleOf).map (·.pair) := by
      rw [hpairs]
      exact List.mem_map_of_mem hfreq
    obtain ⟨r, hr, hpair⟩ := List.mem_map.mp hrule
    exact ⟨r, hperm.mem_iff.mpr hr, hpair⟩

/-! ## What a ledger does -/

section Ledger

variable {R : Ratios} {l : RefutationLedger} {rules : List SequiturRule}

/-- The entry of a rule that was just taken in. -/
def entryOf (r : SequiturRule) : RefutEntry := ⟨r.id, r.symB, r.support, 0, 0⟩

/-- A pass leaves the statuses as they are. -/
lemma status_seedFromRules (id : ℕ) : (l.seedFromRules rules).status id = l.status id := by
  suffices hfold : ∀ l : RefutationLedger,
      (rules.foldl RefutationLedger.seedRule l).status id = l.status id from hfold _
  intro l
  induction rules generalizing l with
  | nil => rfl
  | cons r rules ih =>
    rw [List.foldl_cons, ih]
    unfold RefutationLedger.status RefutationLedger.seedRule Maps.orInsert
    dsimp only
    by_cases hid : id = r.id
    · subst hid
      rw [Function.update_self]
      rfl
    · rw [Function.update_of_ne hid]

lemma index_seedFromRules (a : ℕ) : ((l.seedFromRules rules).antecedentIndex a).getD [] =
    (rules.filter (·.symA = a)).map entryOf := by
  suffices hfold : ∀ l : RefutationLedger,
      ((rules.foldl RefutationLedger.seedRule l).antecedentIndex a).getD [] =
        (l.antecedentIndex a).getD [] ++ (rules.filter (·.symA = a)).map entryOf from hfold _
  intro l
  induction rules generalizing l with
  | nil => simp
  | cons r rules ih =>
    rw [List.foldl_cons, ih]
    unfold RefutationLedger.seedRule Maps.push
    dsimp only
    by_cases ha : r.symA = a
    · subst ha
      rw [Function.update_self, Option.getD_some, List.filter_cons_of_pos (by simp), List.map_cons,
        List.append_assoc]
      rfl
    · rw [Function.update_of_ne (Ne.symm ha), List.filter_cons_of_neg (by simpa using ha)]

/-- The statuses behind an observation: those of the entries' rules may change, once each. -/
lemma status_foldl_observeEntry (symB : ℕ) (ts : ℤ) (es : List RefutEntry) (hids : (es.map (·.ruleId)).Nodup)
    (s : (ℕ → Option RefutStatus) × List (ℕ × RefutStatus)) :
    (∀ e ∈ es, ((es.foldl (RefutationLedger.observeEntry R symB ts) s).1 e.ruleId).getD .live =
      let e' := RefutationLedger.observed symB ts e
      (nextStatus R e'.support e'.contradict ts ((s.1 e.ruleId).getD .live)).getD
        ((s.1 e.ruleId).getD .live)) ∧
    ∀ id, (∀ e ∈ es, e.ruleId ≠ id) →
      (es.foldl (RefutationLedger.observeEntry R symB ts) s).1 id = s.1 id := by
  induction es generalizing s with
  | nil => exact ⟨fun e he => absurd he List.not_mem_nil, fun id _ => rfl⟩
  | cons e es ih =>
    rw [List.map_cons, List.nodup_cons] at hids
    obtain ⟨hhead, htail⟩ := ih hids.2 (RefutationLedger.observeEntry R symB ts s e)
    have hid : (RefutationLedger.observed symB ts e).ruleId = e.ruleId := by
      unfold RefutationLedger.observed
      split_ifs <;> rfl
    have hother : ∀ id, e.ruleId ≠ id → (RefutationLedger.observeEntry R symB ts s e).1 id = s.1 id := by
      intro id hne
      unfold RefutationLedger.observeEntry
      dsimp only
      rw [hid]
      split
      · exact Function.update_of_ne (Ne.symm hne) ..
      · rfl
    have hself : ((RefutationLedger.observeEntry R symB ts s e).1 e.ruleId).getD .live =
        (nextStatus R (RefutationLedger.observed symB ts e).support
          (RefutationLedger.observed symB ts e).contradict ts ((s.1 e.ruleId).getD .live)).getD
          ((s.1 e.ruleId).getD .live) := by
      unfold RefutationLedger.observeEntry
      dsimp only
      rw [hid]
      split
      · rename_i status hstatus
        rw [hstatus]
        dsimp only
        rw [Function.update_self]
        rfl
      · rename_i hstatus
        rw [hstatus]
        rfl
    have hout : ∀ e' ∈ es, e'.ruleId ≠ e.ruleId := fun e' he' heq =>
      hids.1 (heq ▸ List.mem_map_of_mem he')
    refine ⟨fun e' he' => ?_, fun id hne => ?_⟩
    · rcases List.mem_cons.mp he' with rfl | he'
      · rw [List.foldl_cons, htail e'.ruleId hout]
        exact hself
      · rw [List.foldl_cons, hhead e' he', hother e'.ruleId fun heq => hout e' he' heq.symm]
    · rw [List.foldl_cons, htail id (List.forall_mem_cons.mp hne).2,
        hother id (hne e List.mem_cons_self)]

/-- Entries and statuses behind an observation. -/
lemma observe_spec (symA symB : ℕ) (ts : ℤ)
    (hids : (((l.antecedentIndex symA).getD []).map (·.ruleId)).Nodup) :
    (∀ a, ((l.observe R symA symB ts).1.antecedentIndex a).getD [] =
      if a = symA then ((l.antecedentIndex a).getD []).map (RefutationLedger.observed symB ts)
      else (l.antecedentIndex a).getD []) ∧
    (∀ e ∈ (l.antecedentIndex symA).getD [], (l.observe R symA symB ts).1.status e.ruleId =
      let e' := RefutationLedger.observed symB ts e
      (nextStatus R e'.support e'.contradict ts (l.status e.ruleId)).getD (l.status e.ruleId)) ∧
    ∀ id, (∀ e ∈ (l.antecedentIndex symA).getD [], e.ruleId ≠ id) →
      (l.observe R symA symB ts).1.status id = l.status id := by
  unfold RefutationLedger.observe
  cases hes : l.antecedentIndex symA with
  | none =>
    refine ⟨fun a => ?_, fun e he => absurd he List.not_mem_nil, fun id _ => rfl⟩
    split_ifs with ha
    · rw [ha, hes]
      rfl
    · rfl
  | some es =>
    rw [hes, Option.getD_some] at hids
    obtain ⟨hchanged, hsame⟩ := status_foldl_observeEntry (R := R) symB ts es hids (l.ruleStatus, [])
    refine ⟨fun a => ?_, hchanged, fun id hid => congrArg (Option.getD · RefutStatus.live) (hsame id hid)⟩
    dsimp only
    split_ifs with ha
    · rw [ha, Function.update_self, hes]
      rfl
    · rw [Function.update_of_ne ha]

end Ledger

/-! ## Statuses follow pairs -/

section Related

variable {T : Casing} {home : Option String} {R : Ratios} {s : Consolidation} {l : PairLedger}

/-- The last rules that any pass found: a status is that of the rule's pair, and nothing else has one. -/
structure LastRules (s : Consolidation) (l : PairLedger) (last : List SequiturRule) : Prop where
  current : s.rules = last ∨ s.rules = []
  ids : (last.map (·.id)).Nodup
  status : ∀ r ∈ last, s.ledger.status r.id = l.status r.pair
  otherIds : ∀ id, (∀ r ∈ last, r.id ≠ id) → s.ledger.status id = .live
  otherPairs : ∀ p, (∀ r ∈ last, r.pair ≠ p) → l.status p = .live
  ever : ∀ r ∈ last, r.pair ∈ s.everRules
  single : (∀ r ∈ last, ∀ r' ∈ last, r.pair = r'.pair) → ∀ r ∈ last, r.id = 0

/-- A ledger by numbers and one by pairs say the same. -/
structure Related (s : Consolidation) (l : PairLedger) : Prop where
  tape : s.tape = l.tape
  entries : ∀ a, ∀ e ∈ (s.ledger.antecedentIndex a).getD [], ∃ r ∈ s.rules, r.symA = a ∧
    r.id = e.ruleId ∧ r.symB = e.expectedSymB ∧ l.counts r.pair = some (e.support, e.contradict)
  listed : ∀ r ∈ s.rules, ∃ e ∈ (s.ledger.antecedentIndex r.symA).getD [], e.ruleId = r.id
  distinct : ∀ a, (((s.ledger.antecedentIndex a).getD []).map (·.ruleId)).Nodup
  counted : ∀ p, l.counts p ≠ none → ∃ r ∈ s.rules, r.pair = p
  last : ∃ last, LastRules s l last

lemma related_new : Related .new .new := by
  refine ⟨rfl, fun a e he => absurd he List.not_mem_nil, fun r hr => absurd hr List.not_mem_nil,
    fun a => List.nodup_nil, fun p hp => absurd rfl hp, [], Or.inl rfl, List.nodup_nil, ?_, ?_, ?_, ?_, ?_⟩
  · exact fun r hr => absurd hr List.not_mem_nil
  · exact fun _ _ => rfl
  · exact fun _ _ => rfl
  · exact fun r hr => absurd hr List.not_mem_nil
  · exact fun _ r hr => absurd hr List.not_mem_nil

/-- Rules of one number are one rule. -/
lemma LastRules.eq_of_id {last : List SequiturRule} (h : LastRules s l last) {r r' : SequiturRule}
    (hr : r ∈ s.rules) (hr' : r' ∈ last) (hid : r.id = r'.id) : r = r' := by
  have hmem : r ∈ last := by
    rcases h.current with heq | heq
    · exact heq ▸ hr
    · rw [heq] at hr
      exact absurd hr List.not_mem_nil
  exact List.inj_on_of_nodup_map h.ids hmem hr' hid

lemma Related.observe (h : Related s l) (symA symB : ℕ) (ts : ℤ) :
    Related { s with ledger := (s.ledger.observe R symA symB ts).1 }
      (l.step R T home (.observe symA symB ts)) := by
  obtain ⟨last, hlast⟩ := h.last
  obtain ⟨hindex, hchanged, hsame⟩ := observe_spec (R := R) symA symB ts (h.distinct symA)
  have hid : ∀ e : RefutEntry, (RefutationLedger.observed symB ts e).ruleId = e.ruleId ∧
      (RefutationLedger.observed symB ts e).expectedSymB = e.expectedSymB := by
    intro e
    unfold RefutationLedger.observed
    split_ifs <;> exact ⟨rfl, rfl⟩
  have hcounted : ∀ (r : SequiturRule) (e : RefutEntry), r.symB = e.expectedSymB →
      PairLedger.counted symB r.pair (e.support, e.contradict) =
        ((RefutationLedger.observed symB ts e).support,
          (RefutationLedger.observed symB ts e).contradict) := by
    intro r e hr
    unfold PairLedger.counted RefutationLedger.observed SequiturRule.pair
    dsimp only
    rw [hr]
    split_ifs <;> rfl
  refine ⟨h.tape, fun a e he => ?_, fun r hr => ?_, fun a => ?_, fun p hp => ?_, last, hlast.current,
    hlast.ids, fun r hr => ?_, fun id hout => ?_, fun p hout => ?_, hlast.ever, hlast.single⟩
  · dsimp only at he
    rw [hindex] at he
    split_ifs at he with ha
    · subst ha
      obtain ⟨e, hmem, rfl⟩ := List.mem_map.mp he
      obtain ⟨r, hr, hra, hrid, hrb, hcounts⟩ := h.entries a e hmem
      refine ⟨r, hr, hra, hrid.trans (hid e).1.symm, hrb.trans (hid e).2.symm, ?_⟩
      have hpair : r.pair.1 = a := hra
      unfold PairLedger.step
      dsimp only
      rw [if_pos hpair, hcounts, Option.map_some, hcounted r e hrb]
    · obtain ⟨r, hr, hra, hrest⟩ := h.entries a e he
      refine ⟨r, hr, hra, hrest.1, hrest.2.1, ?_⟩
      have hpair : r.pair.1 ≠ symA := fun heq => ha (hra.symm.trans heq)
      unfold PairLedger.step
      dsimp only
      rw [if_neg hpair]
      exact hrest.2.2
  · obtain ⟨e, he, heid⟩ := h.listed r hr
    dsimp only
    rw [hindex]
    split_ifs
    · exact ⟨_, List.mem_map_of_mem he, (hid e).1.trans heid⟩
    · exact ⟨e, he, heid⟩
  · dsimp only
    rw [hindex]
    split_ifs with ha
    · rw [List.map_map]
      have hsame : (fun e : RefutEntry => e.ruleId) ∘ RefutationLedger.observed symB ts =
          fun e => e.ruleId := funext fun e => (hid e).1
      rw [hsame]
      exact h.distinct a
    · exact h.distinct a
  · refine h.counted p fun hnone => hp ?_
    unfold PairLedger.step
    dsimp only
    split_ifs
    · rw [hnone]
      rfl
    · exact hnone
  · unfold PairLedger.step
    dsimp only
    split_ifs with ha
    · by_cases hcurrent : r ∈ s.rules
      · -- the rule's entry is the one that counts
        obtain ⟨e, he, heid⟩ := h.listed r hcurrent
        have hsym : r.symA = symA := ha
        rw [hsym] at he
        obtain ⟨r', hr', -, hrid, hrb, hcounts⟩ := h.entries symA e he
        obtain rfl := hlast.eq_of_id hr' hr (hrid.trans heid)
        rw [← hrid] at heid
        have hafter := hchanged e he
        rw [← hrid, hlast.status r' hr] at hafter
        dsimp only at hafter
        rw [hafter, hcounts, Option.bind_some, hcounted r' e hrb]
      · -- no pass has found it again
        have hempty : s.rules = [] := hlast.current.resolve_left fun heq => hcurrent (heq ▸ hr)
        have hnone : l.counts r.pair = none := by
          by_contra hsome
          obtain ⟨r', hr', -⟩ := h.counted r.pair hsome
          rw [hempty] at hr'
          exact absurd hr' List.not_mem_nil
        rw [hnone, Option.bind_none, Option.getD_none, ← hlast.status r hr]
        refine hsame r.id fun e he heid => ?_
        obtain ⟨r', hr', -⟩ := h.entries symA e he
        rw [hempty] at hr'
        exact absurd hr' List.not_mem_nil
    · rw [← hlast.status r hr]
      refine hsame r.id fun e he heid => ha ?_
      obtain ⟨r', hr', hra, hrid, -⟩ := h.entries symA e he
      obtain rfl := hlast.eq_of_id hr' hr (hrid.trans heid)
      exact hra
  · rw [← hlast.otherIds id hout]
    refine hsame id fun e he heid => ?_
    obtain ⟨r, hr, -, hrid, -⟩ := h.entries symA e he
    rcases hlast.current with heq | heq
    · exact hout r (heq ▸ hr) (hrid.trans heid)
    · rw [heq] at hr
      exact absurd hr List.not_mem_nil
  · unfold PairLedger.step
    dsimp only
    have hnone : l.counts p = none := by
      by_contra hsome
      obtain ⟨r, hr, hpair⟩ := h.counted p hsome
      rcases hlast.current with heq | heq
      · exact hout r (heq ▸ hr) hpair
      · rw [heq] at hr
        exact absurd hr List.not_mem_nil
    rw [hnone, Option.bind_none, Option.getD_none, ite_self]
    exact hlast.otherPairs p hout

/-- A pass that finds rules finds no rule refuted, or there was never another pair. -/
def PassOk (s : Consolidation) (c : LedgerCall × KeyOrder Pair) : Prop :=
  match c.1 with
  | .pass _ =>
    runSequitur c.2 s.tape minSupport = [] ∨ (∀ id, s.ledger.status id = .live) ∨
      ∃ p, (∀ q ∈ s.everRules, q = p) ∧ ∀ r ∈ runSequitur c.2 s.tape minSupport, r.pair = p
  | _ => True

/-- A list of rules of one pair is one rule with the number 0. -/
lemma Numbered.id_eq_zero {tape : EventTape} {rules : List SequiturRule} (h : Numbered tape rules)
    (hone : ∀ r ∈ rules, ∀ r' ∈ rules, r.pair = r'.pair) : ∀ r ∈ rules, r.id = 0 := by
  intro r hr
  have hlength : rules.length ≤ 1 := by
    by_contra hlong
    have hget := List.pairwise_iff_getElem.mp h.pairs 0 1 (by simpa using by omega)
      (by simpa using by omega) (by omega)
    rw [List.getElem_map, List.getElem_map] at hget
    exact hget (hone _ (List.getElem_mem _) _ (List.getElem_mem _))
  have := h.bound r hr
  omega

lemma Related.pass (h : Related s l) {order : KeyOrder Pair} {remove : List Bool}
    (hok : PassOk s (.pass remove, order)) :
    Related (s.step R T home (.pass remove, order)) (l.step R T home (.pass remove)) := by
  obtain ⟨last, hlast⟩ := h.last
  have hnumbered := numbered_runSequitur order s.tape
  change runSequitur order s.tape minSupport = [] ∨ _ at hok
  unfold Consolidation.step PairLedger.step
  dsimp only
  rw [← h.tape]
  generalize runSequitur order s.tape minSupport = rules at hnumbered hok
  have hindex : ∀ a, ((s.ledger.seedFromRules rules).antecedentIndex a).getD [] =
      (rules.filter (·.symA = a)).map entryOf := index_seedFromRules
  have hcounts : ∀ r ∈ rules, (if minSupport ≤ PairLedger.occurrences s.tape r.pair then
      some (PairLedger.occurrences s.tape r.pair, 0) else none) = some (r.support, 0) := by
    intro r hr
    obtain ⟨hsupport, hle⟩ := hnumbered.support r hr
    rw [hsupport] at hle
    rw [if_pos hle, hsupport]
  have hlive : ∀ r ∈ rules, (s.ledger.seedFromRules rules).status r.id = l.status r.pair := by
    intro r hr
    rw [status_seedFromRules]
    rcases hok with hnil | hall | ⟨p, hever, hp⟩
    · rw [hnil] at hr
      exact absurd hr List.not_mem_nil
    · -- nothing is refuted, by its number or by its pair
      rw [hall]
      by_cases hin : ∃ r' ∈ last, r'.pair = r.pair
      · obtain ⟨r', hr', hpair⟩ := hin
        rw [← hpair, ← hlast.status r' hr', hall]
      · exact (hlast.otherPairs r.pair fun r' hr' hpair => hin ⟨r', hr', hpair⟩).symm
    · -- the number 0 is the pair's
      have hzero := hnumbered.id_eq_zero (fun a ha b hb => (hp a ha).trans (hp b hb).symm) r hr
      rw [hp r hr]
      have hlastp : ∀ r' ∈ last, r'.pair = p := fun r' hr' => hever _ (hlast.ever r' hr')
      have hlast0 := hlast.single fun a ha b hb => (hlastp a ha).trans (hlastp b hb).symm
      rcases last with _ | ⟨r', rest⟩
      · rw [hlast.otherIds r.id (by simp), hlast.otherPairs p (by simp)]
      · rw [hzero, ← hlast0 r' List.mem_cons_self, hlast.status r' List.mem_cons_self,
          hlastp r' List.mem_cons_self]
  refine ⟨rfl, fun a e he => ?_, fun r hr => ?_, fun a => ?_, fun p hp => ?_, ?_⟩
  · dsimp only at he
    rw [hindex] at he
    obtain ⟨r, hr, rfl⟩ := List.mem_map.mp he
    obtain ⟨hr, ha⟩ := List.mem_filter.mp hr
    exact ⟨r, hr, of_decide_eq_true ha, rfl, rfl, hcounts r hr⟩
  · dsimp only
    rw [hindex]
    exact ⟨entryOf r, List.mem_map_of_mem (List.mem_filter.mpr ⟨hr, decide_eq_true rfl⟩), rfl⟩
  · dsimp only
    rw [hindex, List.map_map]
    exact hnumbered.ids.sublist (List.filter_sublist.map _)
  · by_cases hle : minSupport ≤ PairLedger.occurrences s.tape p
    · exact hnumbered.all p hle
    · exact absurd (if_neg hle) hp
  · by_cases hnil : rules = []
    · -- a pass that finds nothing leaves everything to the next one
      refine ⟨last, Or.inr hnil, hlast.ids, fun r hr => ?_, fun id hout => ?_, hlast.otherPairs,
        fun r hr => List.mem_append_left _ (hlast.ever r hr), hlast.single⟩
      · dsimp only
        rw [status_seedFromRules, hlast.status r hr]
      · dsimp only
        rw [status_seedFromRules, hlast.otherIds id hout]
    · refine ⟨rules, Or.inl rfl, hnumbered.ids, hlive, fun id hout => ?_, fun p hout => ?_,
        fun r hr => List.mem_append_right _ (List.mem_map_of_mem hr), hnumbered.id_eq_zero⟩
      · dsimp only
        rw [status_seedFromRules]
        rcases hok with hno | hall | ⟨p, hever, hp⟩
        · exact absurd hno hnil
        · exact hall id
        · obtain ⟨r, hr⟩ := List.exists_mem_of_ne_nil _ hnil
          have hzero := hnumbered.id_eq_zero (fun a ha b hb => (hp a ha).trans (hp b hb).symm) r hr
          have hlastp : ∀ r' ∈ last, r'.pair = p := fun r' hr' => hever _ (hlast.ever r' hr')
          refine hlast.otherIds id fun r' hr' heq => hout r hr ?_
          rw [hzero, ← heq, hlast.single (fun a ha b hb => (hlastp a ha).trans (hlastp b hb).symm) r' hr']
      · dsimp only
        rcases hok with hno | hall | ⟨q, hever, hq⟩
        · exact absurd hno hnil
        · by_cases hin : ∃ r' ∈ last, r'.pair = p
          · obtain ⟨r', hr', rfl⟩ := hin
            rw [← hlast.status r' hr', hall]
          · exact hlast.otherPairs p fun r' hr' hpair => hin ⟨r', hr', hpair⟩
        · obtain ⟨r, hr⟩ := List.exists_mem_of_ne_nil _ hnil
          refine hlast.otherPairs p fun r' hr' heq => hout r hr ?_
          rw [hq r hr, ← heq, hever _ (hlast.ever r' hr')]

end Related

/-! ## Whole runs -/

section Runs

variable (T : Casing) (home : Option String) (R : Ratios)

/-- Do a call, and note it without the order of the hash map. -/
def liveStep (s : Consolidation) (c : LedgerCall × KeyOrder Pair) : Consolidation × List LedgerCall :=
  (s.step R T home c, [c.1])

/-- The ledger by pairs behind some calls. -/
def pairRun (calls : List LedgerCall) : PairLedger := calls.foldl (PairLedger.step R T home) .new

/-- An observation of a pair's first symbol left more than two in five observations of the pair
contradicting it. -/
def Exceeded (calls : List LedgerCall) (p : Pair) (ts : ℤ) : Prop :=
  ∃ before b after, calls = before ++ .observe p.1 b ts :: after ∧
    ∃ c, (pairRun T home R (before ++ [.observe p.1 b ts])).counts p = some c ∧ exceeds R c.1 c.2 = true

variable {T home R}

lemma Exceeded.concat {calls : List LedgerCall} {p : Pair} {ts : ℤ} (h : Exceeded T home R calls p ts)
    (c : LedgerCall) : Exceeded T home R (calls ++ [c]) p ts := by
  obtain ⟨before, b, after, rfl, hcounts⟩ := h
  exact ⟨before, b, after ++ [c], by simp, hcounts⟩

/-- A pair is refuted only by its own observations. -/
lemma exceeded_of_refuted {calls : List LedgerCall} {p : Pair} {ts : ℤ}
    (h : (pairRun T home R calls).status p = .refuted ts) : Exceeded T home R calls p ts := by
  induction calls using List.reverseRecOn with
  | nil => cases h
  | append_singleton calls c ih =>
    rw [pairRun, List.foldl_append] at h
    change (PairLedger.step R T home (pairRun T home R calls) c).status p = _ at h
    cases c with
    | log => exact (ih h).concat _
    | pass remove => exact (ih h).concat _
    | observe symA symB tsMs =>
      unfold PairLedger.step at h
      dsimp only at h
      split_ifs at h with ha
      · cases hcounts : (pairRun T home R calls).counts p with
        | none =>
          rw [hcounts] at h
          exact (ih h).concat _
        | some c =>
          rw [hcounts, Option.bind_some] at h
          have hafter : (pairRun T home R (calls ++ [.observe p.1 symB tsMs])).counts p =
              some (PairLedger.counted symB p c) := by
            rw [pairRun, List.foldl_append]
            change (if p.1 = p.1 then ((pairRun T home R calls).counts p).map _ else _) = _
            rw [if_pos rfl, hcounts, Option.map_some]
          cases hstatus : (pairRun T home R calls).status p with
          | live =>
            rw [hstatus, nextStatus] at h
            split_ifs at h with hexceeds
            · obtain rfl := RefutStatus.refuted.inj h
              subst ha
              exact ⟨calls, symB, [], rfl, _, hafter, hexceeds⟩
            · cases h
          | refuted ts' =>
            rw [hstatus, nextStatus] at h
            split_ifs at h
            · cases h
            · exact (ih (hstatus.trans h)).concat _
      · exact (ih h).concat _

lemma Related.step {s : Consolidation} {l : PairLedger} (h : Related s l)
    {c : LedgerCall × KeyOrder Pair} (hok : PassOk s c) :
    Related (s.step R T home c) (l.step R T home c.1) := by
  obtain ⟨c, order⟩ := c
  cases c with
  | log tool entity outcome sessionId tsMs =>
    obtain ⟨last, hlast⟩ := h.last
    refine ⟨?_, h.entries, h.listed, h.distinct, h.counted, last, hlast.current, hlast.ids, hlast.status,
      hlast.otherIds, hlast.otherPairs, hlast.ever, hlast.single⟩
    exact congrArg (fun tape => (EventTape.log T home tape tool entity outcome sessionId tsMs).2) h.tape
  | pass remove => exact h.pass hok
  | observe symA symB tsMs => exact h.observe symA symB tsMs

/-- Behind a run whose passes are all right, the ledger says what the one by pairs says. -/
lemma related_run {calls : List (LedgerCall × KeyOrder Pair)}
    (hall : Replayed.All (liveStep T home R) PassOk .new calls) :
    Related (Replayed.run (liveStep T home R) .new calls).1
      (pairRun T home R (Replayed.run (liveStep T home R) .new calls).2) :=
  Replayed.related_run Related (fun _ _ _ h hok => h.step hok) related_new hall

/-- Where the status of a rule is looked up in a related ledger. -/
lemma Related.status {s : Consolidation} {l : PairLedger} (h : Related s l) {r : SequiturRule}
    (hr : r ∈ s.rules) : s.ledger.status r.id = l.status r.pair := by
  obtain ⟨last, hlast⟩ := h.last
  rcases hlast.current with heq | heq
  · exact hlast.status r (heq ▸ hr)
  · rw [heq] at hr
    exact absurd hr List.not_mem_nil

/-- In every run whose passes find rules only while none is refuted, or never find another pair: the
status of a rule is the one of its pair, it is refuted only by observations of the pair, and another run
of the same calls, whatever its orders are, reports the same. -/
theorem statuses_follow_pairs (T : Casing) (home : Option String) (R : Ratios)
    (calls : List (LedgerCall × KeyOrder Pair))
    (hall : Replayed.All (liveStep T home R) PassOk .new calls) :
    let s := Replayed.run (liveStep T home R) .new calls
    (∀ r ∈ s.1.rules, ∀ ts, s.1.ledger.status r.id = .refuted ts → Exceeded T home R s.2 r.pair ts) ∧
      ∀ calls', Replayed.All (liveStep T home R) PassOk .new calls' →
        let s' := Replayed.run (liveStep T home R) .new calls'
        s'.2 = s.2 → ∀ r ∈ s.1.rules, ∀ r' ∈ s'.1.rules, r'.pair = r.pair →
          s'.1.ledger.status r'.id = s.1.ledger.status r.id := by
  intro s
  have hrelated := related_run hall
  refine ⟨fun r hr ts hts => ?_, fun calls' hall' => ?_⟩
  · rw [hrelated.status hr] at hts
    exact exceeded_of_refuted hts
  · intro s' hsame r hr r' hr' hpair
    have hrelated' := related_run hall'
    change Related s.1 (pairRun T home R s.2) at hrelated
    change Related s'.1 (pairRun T home R s'.2) at hrelated'
    rw [hrelated.status hr, hrelated'.status hr', hpair, hsame]

end Runs

/-! ## A run that is not right -/

/-- The quotients as they are. -/
def exactRatios : Ratios where
  above contradict denom := decide (2 * denom < 5 * contradict)
  below contradict denom := decide (5 * contradict < denom)

/-- The pairs by their numbers. -/
def byNumbers : KeyOrder Pair := (sorted : KeyOrder (ℕ ×ₗ ℕ))

/-- A tool is used again and again, until something else follows it, and its pair is found once more. -/
def again : List (LedgerCall × KeyOrder Pair) :=
  List.replicate 6 (.log "a" "e" 0 1 0, byNumbers) ++ [(.pass [], byNumbers)] ++
    List.replicate 4 (.observe 0 7 1, byNumbers) ++ [(.pass [], byNumbers.reverse)]

/-- Its pair is the only rule there ever was, and stays refuted. -/
theorem statuses_follow_pairs_again :
    let s := Replayed.run (liveStep .ascii none exactRatios) .new again
    s.1.rules.map (fun r => (r.pair, s.1.ledger.status r.id)) = [((0, 0), .refuted 1)] ∧
      Exceeded .ascii none exactRatios s.2 (0, 0) 1 ∧
      ∀ calls', Replayed.All (liveStep .ascii none exactRatios) PassOk .new calls' →
        let s' := Replayed.run (liveStep .ascii none exactRatios) .new calls'
        s'.2 = s.2 → ∀ r ∈ s.1.rules, ∀ r' ∈ s'.1.rules, r'.pair = r.pair →
          s'.1.ledger.status r'.id = s.1.ledger.status r.id := by
  intro s
  have hrules : s.1.rules.map (fun r => (r.pair, s.1.ledger.status r.id)) = [((0, 0), .refuted 1)] := by
    decide +kernel
  have hall : Replayed.All (liveStep .ascii none exactRatios) PassOk .new again :=
    ⟨trivial, trivial, trivial, trivial, trivial, trivial, Or.inr (Or.inl fun _ => rfl), trivial, trivial,
      trivial, trivial, Or.inr (Or.inr ⟨(0, 0), by decide +kernel, by decide +kernel⟩), trivial⟩
  obtain ⟨hexceeded, hsame⟩ := statuses_follow_pairs .ascii none exactRatios again hall
  refine ⟨hrules, ?_, hsame⟩
  obtain ⟨r, hr, heq⟩ := List.mem_map.mp (hrules ▸ List.mem_singleton_self ((0, 0), RefutStatus.refuted 1))
  obtain ⟨hpair, hstatus⟩ := Prod.mk.inj heq
  exact hpair ▸ hexceeded r hr 1 hstatus

/-- Two tools take turns, and the first pair is refuted.  The next pass has another order, and gives its
number to the second pair, which was never observed. -/
theorem status_is_inherited :
    let turns := (List.range 12).map fun i =>
      (LedgerCall.log (if i % 2 = 0 then "a" else "b") "e" 0 1 0, byNumbers)
    let observed := turns ++ [(.pass [], byNumbers)] ++
      List.replicate 5 (.observe 0 7 1, byNumbers)
    let s := (Replayed.run (liveStep .ascii none exactRatios) .new
      (observed ++ [(.pass [], byNumbers)])).1
    let s' := (Replayed.run (liveStep .ascii none exactRatios) .new
      (observed ++ [(.pass [], byNumbers.reverse)])).1
    s.rules.map (fun r => (r.pair, s.ledger.status r.id)) =
        [((0, 2 ^ 40), .refuted 1), ((2 ^ 40, 0), .live)] ∧
      s'.rules.map (fun r => (r.pair, s'.ledger.status r.id)) =
        [((0, 2 ^ 40), .live), ((2 ^ 40, 0), .refuted 1)] := by
  decide +kernel

end ChittaField.Refutation
