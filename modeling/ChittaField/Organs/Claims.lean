import ChittaField.Log.Directory
import ChittaField.Spans.Atoms
import ChittaField.Store.KeyText

/-!
# Claims

A line of a memory that says something of a subject is parsed to an atom, and two atoms have a score
for how much they contradict each other.

The rules of the score are not all the same for both sides, but parsed predicates do not begin with a
hyphen, so that their roots are not empty, and the score is symmetric (`score_comm`).

The tables of Unicode and the hash of keys, which is `fnv1a`, are parameters, and scores are rational
numbers.
-/

namespace ChittaField.Claims

open Spans (Text Unicode)

/-- FNV-1a over the bytes of a text. -/
def fnv1a (s : Text) : ℕ :=
  ((Spans.utf8Bytes s).foldl (fun h b => (h ^^^ b.toUInt64) * 1099511628211)
    (14695981039346656037 : UInt64)).toNat

inductive SslType
  | operational | correction | decision | belief | preference | solution | gotcha | pattern | failure
  | event | unknown
deriving DecidableEq

def SslType.fromTag (tag : Text) : SslType :=
  match String.ofList tag with
  | "OPERATIONAL" => .operational
  | "CORRECTION" => .correction
  | "DECISION" => .decision
  | "BELIEF" => .belief
  | "PREFERENCE" => .preference
  | "SOLUTION" => .solution
  | "GOTCHA" => .gotcha
  | "PATTERN" => .pattern
  | "FAILURE" => .failure
  | "EVENT" => .event
  | _ => .unknown

inductive Polarity
  | positive | negative | unknown
deriving DecidableEq

def Polarity.name : Polarity → String
  | .positive => "Positive"
  | .negative => "Negative"
  | .unknown => "Unknown"

inductive Modality
  | must | should | fact | preference | cannot | unknown
deriving DecidableEq

/-- A claim of a line. -/
structure ClaimAtom where
  memoryId : ℕ
  realm : Text
  domain : Option Text
  sslType : SslType
  subject : Text
  predicate : Option Text
  object : Option Text
  polarity : Polarity
  modality : Modality
  claimKey : Text
  claimKeyHash : ℕ
  rawLine : Text
deriving DecidableEq

/-! ## Parsing -/

/-- What is in front of the first occurrence of a text. -/
def before (part : Text) : Text → Option Text
  | [] => if part = [] then some [] else none
  | c :: s => if part <+: c :: s then some [] else (before part s).map (c :: ·)

/-- What is in front of the last occurrence of a text. -/
def beforeLast (part : Text) : Text → Option Text
  | [] => if part = [] then some [] else none
  | c :: s =>
    match beforeLast part s with
    | some front => some (c :: front)
    | none => if part <+: c :: s then some [] else none

def stripAnnotations (s : Text) : Text :=
  let result := (beforeLast "→@".toList s).getD s
  [' '].intercalate ((splitWhitespace result).filter fun part =>
    ["F:", "A:", "@"].all fun mark => !mark.toList.isPrefixOf part)

def canonicalize (U : Unicode) (s : Text) : Text :=
  trimMatches (· == '-') (((U.lowercase (trim s)).map fun c => if c = '_' then '-' else c).filter
    fun c => U.alphanumeric c || ['-', '!', '→', '>', '|'].contains c)

/-- A predicate without its qualifications. -/
def predicateRoot (s : Text) : Text :=
  ((before "-not-".toList s).or (before "-only".toList s)).getD s

def abbreviations : List (String × String) :=
  [(" db ", " database "), (" cfg ", " config "), (" env ", " environment "), (" dir ", " directory "),
    (" auth ", " authentication "), (" repo ", " repository "), (" pkg ", " package "),
    (" msg ", " message "), (" err ", " error "), (" idx ", " index ")]

/-- A term of a key, with abbreviations written out. -/
def normalizeClaimTerm (U : Unicode) (s : Text) : Text :=
  let normalized := [' '].intercalate (splitWhitespace ((U.lowercase s).map fun c =>
    if ['-', '_', '.', '/'].contains c then ' ' else c))
  let expanded := abbreviations.foldl (fun t p => Spans.replace t p.1.toList p.2.toList) normalized
  let expanded := ((stripPrefix "db " expanded).map ("database ".toList ++ ·)).getD expanded
  let expanded := ((stripPrefix "cfg " expanded).map ("config ".toList ++ ·)).getD expanded
  if " db".toList <:+ expanded then expanded.take (expanded.length - 3) ++ " database".toList
  else expanded

def detectPolarity (subject : Text) (predicate object : Option Text) : Polarity :=
  let all := subject ++ ' ' :: predicate.getD [] ++ ' ' :: object.getD []
  if subject.head? = some '!' ∨ ["-not-", "not-", "avoid-", "must-not-", "do-not-", "never-", "!use"].any
      fun part => Spans.contains all part.toList
  then .negative else .positive

def detectModality (subject : Text) (predicate : Option Text) : Modality :=
  let s := subject ++ ' ' :: predicate.getD []
  let has (parts : List String) := parts.any fun part => Spans.contains s part.toList
  if has ["must-", "always-", "-only"] then .must
  else if has ["should-"] then .should
  else if has ["prefer"] then .preference
  else if has ["cannot-", "must-not-", "never-"] then .cannot
  else .fact

/-- The subject, the predicate and the object between the first two arrows. -/
def splitArrows (s : Text) : Text × Option Text × Option Text :=
  match splitOnce '→' s with
  | none => (s, none, none)
  | some (subject, rest) =>
    match splitOnce '→' rest with
    | none => (subject, some rest, none)
    | some (predicate, object) => (subject, some predicate, some object)

/-- The type and the domain in front of a line, and what follows. -/
def parseTags (U : Unicode) (line : Text) : Option (SslType × Option Text × Text) :=
  (stripPrefix "[" line).bind fun rest =>
    (splitOnce ']' rest).bind fun (typeTag, rest) =>
      let sslType := SslType.fromTag (trim typeTag)
      let rest := trim rest
      match stripPrefix "[" rest with
      | none => some (sslType, none, rest)
      | some inner => (splitOnce ']' inner).map fun (dom, after) =>
          (sslType, some (U.lowercase (trim dom)), trim after)

/-- An atom from its parts, if there is a subject. -/
def atomOf (U : Unicode) (hash : Text → ℕ) (memoryId : ℕ) (realm line : Text) (sslType : SslType)
    (domain : Option Text) (parts : Text × Option Text × Option Text) : Option ClaimAtom :=
  let subject := canonicalize U parts.1
  if subject = [] then none
  else
    let predicate := (parts.2.1.map (canonicalize U)).filter (· ≠ [])
    let object := (parts.2.2.map (canonicalize U)).filter (· ≠ [])
    let subjectRoot := normalizeClaimTerm U (predicateRoot subject)
    let predRoot := normalizeClaimTerm U (predicateRoot (predicate.getD []))
    let claimKey := realm ++ ':' :: domain.getD [] ++ ':' :: subjectRoot ++ ':' :: predRoot
    some {
      memoryId, realm, domain, sslType, subject, predicate, object
      polarity := detectPolarity subject predicate object
      modality := detectModality subject predicate
      claimKey
      claimKeyHash := hash claimKey
      rawLine := line }

def parseSslLine (U : Unicode) (hash : Text → ℕ) (memoryId : ℕ) (realm line : Text) : Option ClaimAtom :=
  (parseTags U line).bind fun (sslType, domain, rest) =>
    let body := stripAnnotations rest
    let body := trim (((splitOnce '|' body).map (·.1)).getD body)
    if body = [] then none else atomOf U hash memoryId realm line sslType domain (splitArrows body)

def parseClaimAtoms (U : Unicode) (hash : Text → ℕ) (memoryId : ℕ) (realm : Text) (content : Bytes) :
    List ClaimAtom :=
  match fromUtf8 content with
  | none => []
  | some text => (lines text).filterMap fun rawLine =>
      let line := trim rawLine
      if line.head? = some '[' then parseSslLine U hash memoryId realm line else none

/-! ## Scores -/

def antonymPairs : List (String × String) :=
  [("ssh", "slurm"), ("ssh", "sbatch"), ("ssh", "srun"), ("direct", "queue"), ("yes", "no"),
    ("enable", "disable"), ("true", "false"), ("use", "avoid"), ("always", "never"), ("on", "off"),
    ("include", "exclude"), ("add", "remove"), ("allow", "deny"), ("local", "remote")]

def hasWord (U : Unicode) (text : Text) (word : String) : Bool :=
  (text.splitOnP (!U.alphanumeric ·)).any fun tok => toAsciiLowercase tok == word.toList

def isAntonymPair (U : Unicode) (a b : Text) : Bool :=
  antonymPairs.any fun p => (hasWord U a p.1 && hasWord U b p.2) || (hasWord U a p.2 && hasWord U b p.1)

structure Score where
  total : ℚ
  sameScore : ℚ
  oppositionScore : ℚ
  reason : String
deriving DecidableEq

def Score.zero : Score := ⟨0, 0, 0, ""⟩

section Scores

variable (U : Unicode) (a b : ClaimAtom)

def ClaimAtom.pred : Text := a.predicate.getD []

def ClaimAtom.obj : Text := a.object.getD []

/-- How far two atoms are about the same thing, if they are. -/
def sameScore : Option ℚ :=
  if a.claimKeyHash = b.claimKeyHash then some 1
  else if a.subject = b.subject ∧ a.predicate.isSome = true ∧ a.predicate = b.predicate then some (8 / 10)
  else if a.subject = b.subject ∧
      (isAntonymPair U a.pred b.pred = true ∨ predicateRoot a.pred = predicateRoot b.pred) then
    some (8 / 10)
  else if a.subject = b.subject then some (6 / 10)
  else none

/-- A rule with its opposition and its reason. -/
def rule (p : Prop) [Decidable p] (opposition : ℚ) (reason : String) : List (ℚ × String) :=
  if p then [(opposition, reason)] else []

/-- One atom corrects the subject of the other one. -/
def Corrects : Prop := a.sslType = .correction ∧ a.subject <:+: b.subject

instance : Decidable (Corrects a b) := inferInstanceAs (Decidable (_ ∧ _))

/-- A predicate is negated. -/
def negated (pred : Text) : Bool := Spans.contains pred "-not-".toList || Spans.contains pred "not-".toList

/-- The oppositions of two atoms with their reasons. -/
def oppositions : List (ℚ × String) :=
  let show_ (t : Text) := String.ofList t
  rule (a.claimKeyHash = b.claimKeyHash ∧ a.polarity ≠ b.polarity ∧ a.polarity ≠ .unknown ∧
      b.polarity ≠ .unknown) 1
    ("same claim_key `" ++ show_ a.claimKey ++ "`: " ++ a.polarity.name ++ " vs " ++ b.polarity.name) ++
  rule (Corrects a b) (9 / 10) "CORRECTION type targets same subject" ++
  rule (Corrects b a) (9 / 10) "CORRECTION type targets same subject" ++
  rule (isAntonymPair U a.pred b.pred = true ∨ isAntonymPair U a.obj b.obj = true ∨
      isAntonymPair U a.pred b.obj = true ∨ isAntonymPair U a.obj b.pred = true) (85 / 100)
    ("antonym pair: pred=`" ++ show_ a.pred ++ "` vs `" ++ show_ b.pred ++ "`, obj=`" ++ show_ a.obj ++
      "` vs `" ++ show_ b.obj ++ "`") ++
  rule (a.pred = b.pred ∧ a.pred ≠ [] ∧ (a.modality = .must ∧ b.modality = .cannot ∨
      a.modality = .cannot ∧ b.modality = .must)) (8 / 10)
    ("Must vs Cannot on predicate `" ++ show_ a.pred ++ "`") ++
  rule (predicateRoot a.pred = predicateRoot b.pred ∧ a.pred ≠ [] ∧ negated a.pred ≠ negated b.pred) (7 / 10)
    ("negation asymmetry: `" ++ show_ a.pred ++ "` vs `" ++ show_ b.pred ++ "`")

def opposition : ℚ := ((oppositions U a b).map (·.1)).foldl max 0

/-- The score of two atoms for contradiction. -/
def scoreContradiction : Score :=
  match sameScore U a b with
  | none => Score.zero
  | some same =>
    if opposition U a b < 1 / 2 then Score.zero
    else ⟨same * opposition U a b, same, opposition U a b,
      "; ".intercalate ((oppositions U a b).map (·.2))⟩

end Scores

/-- The greatest score of the pairs of two lists of atoms, the first one of equal ones. -/
def bestPair (U : Unicode) (as bs : List ClaimAtom) : Score :=
  as.foldl (fun best a => bs.foldl (fun best b =>
    if best.total < (scoreContradiction U a b).total then scoreContradiction U a b else best) best)
    Score.zero

/-! ## Predicates have roots -/

/-- A predicate that is there is not empty and does not begin with a hyphen. -/
def ClaimAtom.Rooted (a : ClaimAtom) : Prop := ∀ p ∈ a.predicate, p ≠ [] ∧ p.head? ≠ some '-'

variable {U : Unicode} {a b : ClaimAtom}

/-- What is trimmed does not begin with what was trimmed. -/
lemma head_trimMatches {p : Char → Bool} {s : Text} {c : Char} (h : (trimMatches p s).head? = some c) :
    p c = false := by
  have hprefix : trimMatches p s <+: s.dropWhile p := by
    have hsuffix := List.dropWhile_suffix p (l := (s.dropWhile p).reverse)
    rw [← List.reverse_prefix, List.reverse_reverse] at hsuffix
    exact hsuffix
  obtain ⟨rest, hrest⟩ := hprefix
  have hhead : (s.dropWhile p).head? = some c := by
    rw [← hrest, List.head?_append, h]
    rfl
  cases hdrop : s.dropWhile p with
  | nil =>
    rw [hdrop] at hhead
    cases hhead
  | cons d t =>
    rw [hdrop] at hhead
    obtain rfl := Option.some.inj hhead
    have hne : s.dropWhile p ≠ [] := by
      rw [hdrop]
      exact List.cons_ne_nil _ _
    simpa [hdrop] using List.head_dropWhile_not p hne

/-- Parsed atoms are built from the parts of a line. -/
lemma exists_atomOf {hash : Text → ℕ} {memoryId : ℕ} {realm : Text} {content : Bytes}
    (h : a ∈ parseClaimAtoms U hash memoryId realm content) :
    ∃ line sslType domain parts, atomOf U hash memoryId realm line sslType domain parts = some a := by
  unfold parseClaimAtoms at h
  cases htext : fromUtf8 content with
  | none =>
    rw [htext] at h
    cases h
  | some text =>
    rw [htext] at h
    obtain ⟨rawLine, -, hline⟩ := List.mem_filterMap.mp h
    dsimp only at hline
    split_ifs at hline
    obtain ⟨⟨sslType, domain, rest⟩, -, hbody⟩ := Option.bind_eq_some_iff.mp hline
    dsimp only at hbody
    split_ifs at hbody
    exact ⟨_, _, _, _, hbody⟩

/-- Parsed atoms have predicates with roots, and belong to the memory. -/
lemma rooted_of_mem {hash : Text → ℕ} {memoryId : ℕ} {realm : Text} {content : Bytes}
    (h : a ∈ parseClaimAtoms U hash memoryId realm content) : a.Rooted ∧ a.memoryId = memoryId := by
  obtain ⟨line, sslType, domain, parts, h⟩ := exists_atomOf h
  unfold atomOf at h
  dsimp only at h
  split_ifs at h
  obtain rfl := Option.some.inj h
  refine ⟨fun p hp => ?_, rfl⟩
  obtain ⟨hmap, hne⟩ := Option.filter_eq_some_iff.mp hp
  obtain ⟨s, -, rfl⟩ := Option.map_eq_some_iff.mp hmap
  refine ⟨of_decide_eq_true hne, fun hhead => ?_⟩
  have hnot := head_trimMatches hhead
  cases hnot

/-- The hash of an atom is the hash of its key. -/
lemma claimKeyHash_of_mem {hash : Text → ℕ} {memoryId : ℕ} {realm : Text} {content : Bytes}
    (h : a ∈ parseClaimAtoms U hash memoryId realm content) : a.claimKeyHash = hash a.claimKey := by
  obtain ⟨line, sslType, domain, parts, h⟩ := exists_atomOf h
  unfold atomOf at h
  dsimp only at h
  split_ifs at h
  obtain rfl := Option.some.inj h
  rfl

/-- A qualification that begins with a hyphen cuts a predicate behind its first letter. -/
lemma predicateRoot_cons {c : Char} (s : Text) (hc : c ≠ '-') : predicateRoot (c :: s) ≠ [] := by
  have hbefore : ∀ t part : Text, before ('-' :: part) (c :: s) = some t → t ≠ [] := by
    intro t part h
    have hnot : ¬('-' :: part <+: c :: s) := fun hpre => hc (List.cons_prefix_cons.mp hpre).1.symm
    rw [before, if_neg hnot] at h
    obtain ⟨t', -, rfl⟩ := Option.map_eq_some_iff.mp h
    exact List.cons_ne_nil _ _
  unfold predicateRoot
  cases hnot : before "-not-".toList (c :: s) with
  | some t => exact hbefore t _ hnot
  | none =>
    cases honly : before "-only".toList (c :: s) with
    | some t => exact hbefore t _ honly
    | none => exact List.cons_ne_nil _ _

/-- A predicate has an empty root only if it is not there. -/
lemma ClaimAtom.Rooted.predicateRoot_eq_nil (h : a.Rooted) : predicateRoot a.pred = [] ↔ a.pred = [] := by
  unfold ClaimAtom.pred
  cases hp : a.predicate with
  | none => exact iff_of_true rfl rfl
  | some p =>
    obtain ⟨hne, hhead⟩ := h p hp
    cases p with
    | nil => exact absurd rfl hne
    | cons c s =>
      refine iff_of_false (predicateRoot_cons s ?_) (List.cons_ne_nil c s)
      rintro rfl
      exact hhead rfl

/-! ## The score is symmetric -/

lemma isAntonymPair_comm (s t : Text) : isAntonymPair U s t = isAntonymPair U t s := by
  unfold isAntonymPair
  congr 1
  funext p
  rw [Bool.or_comm, Bool.and_comm, Bool.and_comm (hasWord U s p.1)]

lemma sameScore_comm (a b : ClaimAtom) : sameScore U a b = sameScore U b a := by
  unfold sameScore
  refine if_congr eq_comm rfl (if_congr ?_ rfl (if_congr ?_ rfl (if_congr eq_comm rfl rfl)))
  · constructor <;> rintro ⟨hsubject, hsome, hpredicate⟩ <;>
      exact ⟨hsubject.symm, hpredicate ▸ hsome, hpredicate.symm⟩
  · rw [isAntonymPair_comm]
    exact and_congr eq_comm (or_congr Iff.rfl eq_comm)

lemma map_fst_rule {p : Prop} [Decidable p] {opposition : ℚ} {reason : String} :
    (rule p opposition reason).map (·.1) = if p then [opposition] else [] := by
  unfold rule
  split_ifs <;> rfl

/-- The last rule looks at one predicate alone, but both have a root or none. -/
lemma asymmetry_comm (ha : a.Rooted) (hb : b.Rooted) :
    predicateRoot a.pred = predicateRoot b.pred ∧ a.pred ≠ [] ∧ negated a.pred ≠ negated b.pred ↔
    predicateRoot b.pred = predicateRoot a.pred ∧ b.pred ≠ [] ∧ negated b.pred ≠ negated a.pred := by
  rw [eq_comm, ne_comm (a := negated a.pred)]
  refine and_congr_right fun hroot => and_congr_left' (not_congr ?_)
  rw [← ha.predicateRoot_eq_nil, ← hb.predicateRoot_eq_nil, hroot]

lemma opposition_comm (ha : a.Rooted) (hb : b.Rooted) : opposition U a b = opposition U b a := by
  have hkeys : (a.claimKeyHash = b.claimKeyHash ∧ a.polarity ≠ b.polarity ∧ a.polarity ≠ .unknown ∧
      b.polarity ≠ .unknown) ↔ (b.claimKeyHash = a.claimKeyHash ∧ b.polarity ≠ a.polarity ∧
      b.polarity ≠ .unknown ∧ a.polarity ≠ .unknown) := by
    rw [eq_comm, ne_comm, and_comm (a := a.polarity ≠ .unknown)]
  have hantonyms : (isAntonymPair U a.pred b.pred = true ∨ isAntonymPair U a.obj b.obj = true ∨
      isAntonymPair U a.pred b.obj = true ∨ isAntonymPair U a.obj b.pred = true) ↔
      (isAntonymPair U b.pred a.pred = true ∨ isAntonymPair U b.obj a.obj = true ∨
      isAntonymPair U b.pred a.obj = true ∨ isAntonymPair U b.obj a.pred = true) := by
    rw [isAntonymPair_comm b.pred a.pred, isAntonymPair_comm b.obj a.obj,
      isAntonymPair_comm b.pred a.obj, isAntonymPair_comm b.obj a.pred,
      or_comm (a := isAntonymPair U a.obj b.pred = true)]
  have hmodality : (a.pred = b.pred ∧ a.pred ≠ [] ∧ (a.modality = .must ∧ b.modality = .cannot ∨
      a.modality = .cannot ∧ b.modality = .must)) ↔ (b.pred = a.pred ∧ b.pred ≠ [] ∧
      (b.modality = .must ∧ a.modality = .cannot ∨ b.modality = .cannot ∧ a.modality = .must)) := by
    constructor <;> rintro ⟨heq, hne, hmod⟩ <;>
      exact ⟨heq.symm, heq ▸ hne, hmod.symm.imp And.symm And.symm⟩
  have hperm : ((oppositions U a b).map (·.1)).Perm ((oppositions U b a).map (·.1)) := by
    unfold oppositions
    simp only [List.map_append, map_fst_rule, hkeys, hantonyms, hmodality, asymmetry_comm ha hb]
    refine List.Perm.append_right _ (List.Perm.append_right _ (List.Perm.append_right _ ?_))
    rw [List.append_assoc, List.append_assoc]
    exact List.Perm.append_left _ List.perm_append_comm
  exact hperm.foldl_eq 0

/-- **The score is symmetric** on atoms whose predicates have roots. -/
theorem score_comm (ha : a.Rooted) (hb : b.Rooted) :
    (scoreContradiction U a b).total = (scoreContradiction U b a).total ∧
    (scoreContradiction U a b).sameScore = (scoreContradiction U b a).sameScore ∧
    (scoreContradiction U a b).oppositionScore = (scoreContradiction U b a).oppositionScore := by
  unfold scoreContradiction
  rw [sameScore_comm a b, opposition_comm ha hb]
  cases sameScore U b a with
  | none => exact ⟨rfl, rfl, rfl⟩
  | some same =>
    dsimp only
    split_ifs <;> exact ⟨rfl, rfl, rfl⟩

/-- Only atoms of one key or of one subject have a score. -/
lemma related_of_pos {x : ℚ} (hx : 0 < x) (h : x ≤ (scoreContradiction U a b).total) :
    a.claimKeyHash = b.claimKeyHash ∨ a.subject = b.subject := by
  by_contra hnot
  rw [not_or] at hnot
  have hsame : sameScore U a b = none := by
    unfold sameScore
    rw [if_neg hnot.1, if_neg fun hp => hnot.2 hp.1, if_neg fun hp => hnot.2 hp.1, if_neg hnot.2]
  unfold scoreContradiction at h
  rw [hsame] at h
  exact absurd hx (not_lt.mpr h)

/-- The best pair reaches a bound exactly if some pair does. -/
lemma le_bestPair {x : ℚ} (hx : 0 < x) {as bs : List ClaimAtom} :
    x ≤ (bestPair U as bs).total ↔ ∃ a ∈ as, ∃ b ∈ bs, x ≤ (scoreContradiction U a b).total := by
  have hinner : ∀ (a : ClaimAtom) (bs : List ClaimAtom) (best : Score),
      x ≤ (bs.foldl (fun best b => if best.total < (scoreContradiction U a b).total
        then scoreContradiction U a b else best) best).total ↔
      x ≤ best.total ∨ ∃ b ∈ bs, x ≤ (scoreContradiction U a b).total := by
    intro a bs
    induction bs with
    | nil => simp
    | cons b bs ih =>
      intro best
      rw [List.foldl_cons, ih, List.exists_mem_cons_iff, ← or_assoc]
      refine or_congr_left ?_
      split_ifs with hlt
      · exact ⟨Or.inr, fun h => h.elim (fun h => h.trans hlt.le) id⟩
      · exact ⟨Or.inl, fun h => h.elim id fun h => h.trans (not_lt.mp hlt)⟩
  have houter : ∀ (as : List ClaimAtom) (best : Score),
      x ≤ (as.foldl (fun best a => bs.foldl (fun best b =>
        if best.total < (scoreContradiction U a b).total then scoreContradiction U a b else best) best)
        best).total ↔
      x ≤ best.total ∨ ∃ a ∈ as, ∃ b ∈ bs, x ≤ (scoreContradiction U a b).total := by
    intro as
    induction as with
    | nil => simp
    | cons a as ih =>
      intro best
      rw [List.foldl_cons, ih, hinner, List.exists_mem_cons_iff, or_assoc]
  rw [bestPair, houter, or_iff_right]
  exact not_le.mpr hx

/-- Whether the best pair reaches a bound does not depend on which side is which. -/
lemma le_bestPair_comm {x : ℚ} (hx : 0 < x) {as bs : List ClaimAtom} (has : ∀ a ∈ as, a.Rooted)
    (hbs : ∀ b ∈ bs, b.Rooted) : x ≤ (bestPair U as bs).total ↔ x ≤ (bestPair U bs as).total := by
  rw [le_bestPair hx, le_bestPair hx]
  constructor
  · rintro ⟨a, ha, b, hb, h⟩
    exact ⟨b, hb, a, ha, (score_comm (has a ha) (hbs b hb)).1 ▸ h⟩
  · rintro ⟨b, hb, a, ha, h⟩
    exact ⟨a, ha, b, hb, (score_comm (has a ha) (hbs b hb)).1 ▸ h⟩

end ChittaField.Claims
