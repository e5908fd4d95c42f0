import ChittaField.Lib.HashMaps
import ChittaField.Lib.Lists
import ChittaField.Organs.CdawgOutcomes
import ChittaField.Organs.OrgansCache
import Mathlib.Data.UInt

/-!
# The tape and its automaton among concurrent calls

A call appends its event to the tape under the lock of the tape, and feeds it to the automaton under the
lock of the automaton.  Between the two other calls may do the same, and a consolidation may remove events
that the automaton predicts, without a change to the automaton.

`live_agrees` says when the automaton is the one that a rebuild from the tape makes.
-/

namespace ChittaField

open Factors

variable {F : Type}

/-- Numbers with logarithms and powers. -/
class F32Log (F : Type) extends F32 F where
  sub : F → F → F
  neg : F → F
  ln : F → F
  powf : F → F → F
  powi : F → ℕ → F
  negInfinity : F
  isNegInfinity : F → Bool

namespace CdawgOrgan

/-- The credit of the states that the last symbols lead to; the further back, the less. -/
def pushCredit [F32Log F] (delta gamma : F) (n : ℕ) : ℕ → CdawgOrgan F → ℕ → List ℕ → CdawgOrgan F
  | _, o, _, [] => o
  | i, o, state, sym :: syms =>
    match o.next state sym with
    | none => o
    | some next =>
      let lag := n - 1 - i
      let o := { o with states := o.states.modify next fun st =>
        { st with credit := F32.add st.credit (F32.mul delta (F32Log.powi gamma lag)) } }
      pushCredit delta gamma n (i + 1) o next syms

def pushTdCredit [F32Log F] (o : CdawgOrgan F) (lastNSyms : List ℕ) (delta gamma : F) : CdawgOrgan F :=
  pushCredit delta gamma lastNSyms.length 0 o 0 lastNSyms

/-- A value that comes closer to a target. -/
def nearer [F32Log F] (target alpha decay : F) (st : CdawgState F) : CdawgState F :=
  let weight : F := F32.div (F32.lit 1) (F32.lit ((max st.endpos.card 1 : ℕ) : ℚ))
  let step := F32.mul (F32.mul (F32.mul alpha weight) decay) (F32Log.sub target st.qValue)
  { st with qValue := F32.add st.qValue step }

/-- Update the values of a state and of those that its links lead to, until one was visited or the link is
the first state.  There is no result where a state is asked for that is not there. -/
def updateLinks [F32Log F] (target alpha gamma : F) :
    ℕ → Finset ℕ → List (CdawgState F) → ℕ → F → Option (List (CdawgState F))
  | 0, _, states, _, _ => some states
  | fuel + 1, visited, states, sid, decay =>
    if sid ∈ visited then some states
    else
      match states[sid]? with
      | none => none
      | some st =>
        let states := states.modify sid (nearer target alpha decay)
        match st.link with
        | none => none
        | some link =>
          if link = sid ∨ link = 0 then some states
          else updateLinks target alpha gamma fuel (insert sid visited) states link (F32.mul decay gamma)

/-- Update the value of where a symbol leads, and of the states that are linked from there.  No state is
visited twice, so that their number bounds the steps. -/
def updateQ [F32Log F] (o : CdawgOrgan F) (order : HashOrder) (terminalSym : ℕ) (utility alpha gamma : F) :
    Option (CdawgOrgan F) :=
  match o.next 0 terminalSym with
  | none => some o
  | some terminal => do
    let st ← o.states[terminal]?
    let values ← (order.iter st.transitions).mapM fun e => (o.states[e.2]?).map (·.qValue)
    let best := values.foldl F32.max F32Log.negInfinity
    let best := if F32Log.isNegInfinity best then F32.lit 0 else best
    let target := F32.add utility (F32.mul gamma best)
    let states ← updateLinks target alpha gamma (o.states.length + 1) ∅ o.states terminal (F32.lit 1)
    pure { o with states }

/-- How little a symbol is expected behind a context. -/
def surprisal [F32Log F] (o : CdawgOrgan F) (order : HashOrder) (context : List ℕ) (sym : ℕ) : Option F :=
  let preds := o.ppmPredict order context
  if preds.isEmpty then none
  else
    let p := ((preds.find? (·.1 = sym)).map (·.2)).getD (F32.lit 0)
    if F32.le p (F32.lit 0) then none else some (F32Log.neg (F32Log.ln p))

/-- What comes before the turns at which a pattern ends, with how often it does. -/
def causalCounts (tape : EventTape) (patLen : ℕ) (turns : List ℕ) : Finmap fun _ : ℕ => ℕ :=
  turns.foldl (fun counts t =>
    if patLen ≤ t then
      match tape.events[t - patLen]? with
      | some ev => counts.insert ev.pack ((counts.lookup ev.pack).getD 0 + 1)
      | none => counts
    else counts) ∅

/-- A symbol with its count and its score: `pmi` is that of four counts. -/
def scoreAntecedent (o : CdawgOrgan F) (pmi : ℕ → ℕ → ℕ → ℕ → F) (total yCount : ℕ) (e : Σ _ : ℕ, ℕ) :
    Option (List ℕ × ℕ × F) :=
  let xCount : Option ℕ := match o.walk [e.1] with
    | some xState => (o.collectEndposBitmap xState).map (·.card)
    | none => some e.2
  xCount.map fun xCount => ([e.1], e.2, pmi e.2 total xCount yCount)

/-- What comes before a pattern, with how often it does; what does so more often than by chance is first. -/
def causalAntecedents [F32 F] (o : CdawgOrgan F) (order : HashOrder) (pmi : ℕ → ℕ → ℕ → ℕ → F)
    (syms : List ℕ) (k : ℕ) (tape : EventTape) : Option (List (List ℕ × ℕ × F)) :=
  match o.walk syms with
  | none => some []
  | some state => do
    let y ← o.collectEndposBitmap state
    let counts := causalCounts tape syms.length (y.sort (· ≤ ·))
    let scored ← (order.iter counts).mapM (o.scoreAntecedent pmi tape.events.length y.card)
    pure ((scored.mergeSort fun a b => (partialCmp b.2.2 a.2.2).isLE).take k)

end CdawgOrgan

/-! ## Consolidation -/

namespace EventTape

/-- The events at the bounds of sessions: the first and the last ones of each. -/
def sessionBound (tape : EventTape) (i : ℕ) : Bool :=
  let starts (i : ℕ) : Bool :=
    (tape.events[i]?).any fun e =>
      e.sessionId ≠ (if i = 0 then 2 ^ 64 - 1 else ((tape.events[i - 1]?).map (·.sessionId)).getD 0)
  starts i || starts (i + 1) || i + 1 = tape.events.length

/-- Mark the events that the automaton predicts with more confidence than a threshold.  Failures and the
bounds of sessions are not marked, and nothing is on a short tape. -/
def computeLowSurprisalRemovals [F32Log F] (tape : EventTape) (o : CdawgOrgan F) (order : HashOrder)
    (threshold : F) : List Bool :=
  let n := tape.events.length
  let minTape := 200
  let ctxWindow := 4
  (tape.events.zipIdx).map fun e =>
    let i := e.2
    let ctx := ((tape.events.take i).drop (i - ctxWindow)).map TurnEvent.pack
    minTape ≤ n ∧ ctxWindow ≤ i ∧ i < n - 1 ∧ e.1.outcomeClass = 0 ∧ tape.sessionBound i = false ∧
      ((o.surprisal order ctx e.1.pack).any fun s =>
        F32.lt threshold (F32Log.powf (F32.lit 2) (F32Log.neg s))) = true

end EventTape

/-! ## Concurrent calls -/

/-- A call that has appended its event and not yet fed it, with what it will learn from it. -/
structure Waiting (F : Type) where
  sym : ℕ
  turn : ℕ
  lastN : List ℕ
  /-- The credit of the last symbols. -/
  delta : Option F
  /-- The utility of the event. -/
  utility : Option F

/-- The tape and its automaton, the calls between the two, and the marks of a consolidation. -/
structure LiveTape (F : Type) where
  tape : EventTape
  cdawg : Option (CdawgOrgan F)
  waiting : List (Waiting F)
  remove : Option (List Bool)

/-- A step of one of the calls, under a lock. -/
inductive LiveStep where
  | logEventEx (tool entity : String) (outcome : UInt8) (sessionId : UInt64) (tsMs : ℤ)
      (tokenCost latencyMs : UInt32) (retryCount : UInt8)
  | putMemory (realm : String) (authoredAtMs : ℤ)
  | feed (i : ℕ) (order : HashOrder)
  | compute (order : HashOrder)
  | apply

namespace LiveTape

variable [F32Log F] [Zero F] (T : Casing) (home : Option String)

/-- The tape and the automaton that an open makes of it. -/
def opened (tape : EventTape) : LiveTape F := ⟨tape, CdawgOrgan.rebuildFromTape tape, [], none⟩

/-- Append an event; its call waits for the automaton. -/
def append (s : LiveTape F) (tape : EventTape) (tool entity : String) (outcome : UInt8) (sessionId : UInt64)
    (tsMs : ℤ) (delta utility : Option F) : LiveTape F :=
  let out := tape.log T home tool entity outcome sessionId tsMs
  let turn := UInt32.ofNat out.2.events.length - 1
  { s with
    tape := out.2
    waiting := s.waiting ++ [⟨out.1, turn.toNat, out.2.lastNSyms 16, delta, utility⟩] }

/-- The utility of an event: what it costs is taken from its outcome. -/
def utilityOf (outcome : UInt8) (tokenCost latencyMs : UInt32) (retryCount : UInt8) : F :=
  let base : F := F32.lit (if outcome = 0 then 1 else -1)
  let cost : F := F32.mul (F32.lit (1 / 1000)) (F32.lit (tokenCost.toNat : ℚ))
  let latency : F := F32.mul (F32.lit (1 / 100000)) (F32.lit (latencyMs.toNat : ℚ))
  let retries : F := F32.mul (F32.lit (1 / 10)) (F32.lit (retryCount.toNat : ℚ))
  F32Log.sub (F32Log.sub (F32Log.sub base cost) latency) retries

/-- Feed the event of a call that waits, and learn from it. -/
def feedWaiting (o : CdawgOrgan F) (order : HashOrder) (c : Waiting F) : Option (CdawgOrgan F) := do
  let o ← o.extend c.sym c.turn
  let o := c.delta.elim o fun delta => o.pushTdCredit c.lastN delta (F32.lit (9 / 10))
  c.utility.elim (some o) fun utility =>
    o.updateQ order c.sym utility (F32.lit (5 / 100)) (F32.lit (95 / 100))

def step (s : LiveTape F) : LiveStep → LiveTape F
  | .logEventEx tool entity outcome sessionId tsMs tokenCost latencyMs retryCount =>
    if tool ≠ "legacy" ∧ tool ≠ "remember" then
      s.append T home s.tape tool entity outcome sessionId tsMs
        (some (F32.lit (if outcome = 0 then 1 / 10 else -2 / 10)))
        (some (utilityOf outcome tokenCost latencyMs retryCount))
    else s.append T home s.tape tool entity outcome sessionId tsMs none none
  | .putMemory realm authoredAtMs =>
    s.append T home (s.tape.symbolOf T home "remember" realm 0).2 "remember" realm 0 0 authoredAtMs
      (some (F32.lit (5 / 100))) none
  | .feed i order =>
    match s.waiting[i]? with
    | none => s
    | some c => { s with
      cdawg := s.cdawg.bind fun o => feedWaiting o order c
      waiting := s.waiting.eraseIdx i }
  | .compute order =>
    { s with remove := s.cdawg.map fun o => s.tape.computeLowSurprisalRemovals o order (F32.lit (85 / 100)) }
  | .apply =>
    match s.remove with
    | none => s
    | some remove => { s with tape := (s.tape.applyRemovals remove).2, remove := none }

/-- No call has begun and not ended. -/
def Quiescent (s : LiveTape F) : Prop := s.waiting = [] ∧ s.remove = none

/-- Do steps. -/
def run (s : LiveTape F) (steps : List LiveStep) : LiveTape F :=
  (Replayed.run (fun s c => (step T home s c, ([] : List Unit))) s steps).1

/-- The events go to the automaton in their order, none is removed, and a turn is not cut. -/
def InOrder (s : LiveTape F) : LiveStep → Prop
  | .logEventEx .. => s.tape.events.length < 2 ^ 32
  | .putMemory .. => s.tape.events.length < 2 ^ 32
  | .feed i _ => i = 0
  | .compute _ => True
  | .apply => ∀ remove ∈ s.remove, true ∉ remove

instance (s : LiveTape F) (c : LiveStep) : Decidable (s.InOrder c) :=
  match c with
  | .logEventEx .. => inferInstanceAs (Decidable (s.tape.events.length < 2 ^ 32))
  | .putMemory .. => inferInstanceAs (Decidable (s.tape.events.length < 2 ^ 32))
  | .feed i _ => inferInstanceAs (Decidable (i = 0))
  | .compute _ => inferInstanceAs (Decidable True)
  | .apply => inferInstanceAs (Decidable (∀ remove ∈ s.remove, true ∉ remove))

instance (s : LiveTape F) : Decidable s.Quiescent := inferInstanceAs (Decidable (_ ∧ _))

/-- All steps of a run are in order. -/
def AllInOrder (s : LiveTape F) (steps : List LiveStep) : Prop :=
  Replayed.All (fun s c => (step T home s c, ([] : List Unit))) InOrder s steps

instance (s : LiveTape F) (steps : List LiveStep) : Decidable (s.AllInOrder T home steps) :=
  inferInstanceAs (Decidable (Replayed.All _ _ _ _))

end LiveTape

/-- How often an event comes directly before a pattern. -/
def precedes (w syms : List ℕ) (x : ℕ) : ℕ :=
  (List.range w.length).countP fun i => w[i]? = some x ∧ syms <+: w.drop (i + 1)

/-- The turns of events are their positions. -/
def EventTape.Numbered (tape : EventTape) : Prop :=
  ∀ (i : ℕ) (e : TurnEvent), tape.events[i]? = some e → e.turnId.toNat = i

/-- The answers of the automaton are those of one that is made from the tape, the turns are positions, and
what comes before a pattern is counted right. -/
structure LiveTape.Agrees [F32Log F] [Zero F] (s : LiveTape F) : Prop where
  rebuilt : ∃ o r : CdawgOrgan F, s.cdawg = some o ∧ CdawgOrgan.rebuildFromTape s.tape = some r ∧
    (∀ p, o.walk p = r.walk p) ∧ (∀ v, o.collectEndpos v = r.collectEndpos v) ∧
    ∀ p, o.lastOccurrence p = r.lastOccurrence p
  numbered : s.tape.Numbered
  causal : ∀ o, s.cdawg = some o → ∀ (order : HashOrder) (pmi : ℕ → ℕ → ℕ → ℕ → F) (syms : List ℕ) (k : ℕ),
    ∃ l, o.causalAntecedents order pmi syms k s.tape = some l ∧ (l.map (·.1)).Nodup ∧
      (∀ e ∈ l, ∃ x, e.1 = [x] ∧ e.2.1 = precedes (s.tape.events.map TurnEvent.pack) syms x ∧ 0 < e.2.1) ∧
      l.length = min k (((s.tape.events.map TurnEvent.pack).toFinset.filter fun x =>
        0 < precedes (s.tape.events.map TurnEvent.pack) syms x).card)

/-! ## Values that are not read -/

namespace CdawgOrgan

/-- An automaton without its values. -/
def bare [Zero F] (o : CdawgOrgan F) : CdawgOrgan F := revaluedOrgan (fun _ => 0) (fun _ => 0) o

variable {o o' : CdawgOrgan F} {turn : ℕ → ℕ} {w : List ℕ} {name : ℕ → List ℕ}

section

variable [Zero F]

lemma next_bare (o : CdawgOrgan F) (v sym : ℕ) : o.bare.next v sym = o.next v sym := by
  unfold next bare revaluedOrgan
  rw [List.getElem?_map]
  cases o.states[v]? <;> rfl

lemma walk_bare (o : CdawgOrgan F) (p : List ℕ) : o.bare.walk p = o.walk p := by
  have hfrom : ∀ v, o.bare.walkFrom v p = o.walkFrom v p := by
    induction p with
    | nil => exact fun v => rfl
    | cons sym p ih =>
      intro v
      rw [walkFrom, walkFrom, next_bare]
      exact congrArg _ (funext ih)
  exact hfrom 0

lemma collectEndposBitmap_bare (o : CdawgOrgan F) (v : ℕ) :
    o.bare.collectEndposBitmap v = o.collectEndposBitmap v := by
  have hnode : (fun v : ℕ => (o.bare.states[v]?).map fun st : CdawgState F => (st.slChildren, st.endpos)) =
      fun v : ℕ => (o.states[v]?).map fun st : CdawgState F => (st.slChildren, st.endpos) := by
    funext v
    unfold bare revaluedOrgan
    rw [List.getElem?_map]
    cases o.states[v]? <;> rfl
  have hlen : o.bare.states.length = o.states.length := List.length_map _
  rw [collectEndposBitmap, collectEndposBitmap, hnode, hlen]

/-- Automata that differ in their values have states of one shape. -/
lemma sameShape_of_bare (h : o.bare = o'.bare) {v : ℕ} {st' : CdawgState F}
    (hst' : o'.states[v]? = some st') :
    ∃ st, o.states[v]? = some st ∧ SameShape st st' := by
  have hstates := congrArg (fun o : CdawgOrgan F => o.states[v]?) h
  unfold bare revaluedOrgan at hstates
  dsimp only at hstates
  rw [List.getElem?_map, List.getElem?_map, hst', Option.map_some] at hstates
  obtain ⟨st, hst, heq⟩ := Option.map_eq_some_iff.mp hstates
  unfold revalued at heq
  obtain ⟨hlen, hlink, htransitions, hendpos, -, -, -, -, hchildren⟩ := CdawgState.mk.injEq .. ▸ heq
  exact ⟨st, hst, hlen.symm, hlink.symm, htransitions.symm, hendpos.symm, hchildren.symm⟩

lemma length_states_of_bare (h : o.bare = o'.bare) : o.states.length = o'.states.length := by
  have hlen := congrArg (fun o : CdawgOrgan F => o.states.length) h
  unfold bare revaluedOrgan at hlen
  simpa using hlen

/-- Values do not matter for what an automaton was fed. -/
lemma Reads.of_bare (h : Reads turn w name o) (heq : o.bare = o'.bare) : Reads turn w name o' := by
  have hlen := length_states_of_bare heq
  have hlast := congrArg CdawgOrgan.last heq
  change o.last = o'.last at hlast
  exact ⟨h.exact.congr hlen.symm fun v st' hst' => sameShape_of_bare heq hst', hlen ▸ hlast ▸ h.last,
    hlast ▸ h.name_last, hlen ▸ h.length_le⟩

/-- A symbol is fed to automata that differ in their values. -/
lemma exists_extend_of_bare (h : o.bare = o'.bare) {sym turn : ℕ} {fed : CdawgOrgan F}
    (hfed : o'.extend sym turn = some fed) : ∃ o₁, o.extend sym turn = some o₁ ∧ o₁.bare = fed.bare := by
  have hmap : (o.extend sym turn).map bare = some fed.bare := by
    unfold bare
    rw [← extend_revalued rfl rfl]
    change o.bare.extend sym turn = _
    rw [h, bare, extend_revalued rfl rfl, hfed]
    rfl
  exact Option.map_eq_some_iff.mp hmap

end

variable [F32Log F] [Zero F]

lemma bare_pushCredit (delta gamma : F) (n i : ℕ) (o : CdawgOrgan F) (state : ℕ) (syms : List ℕ) :
    (pushCredit delta gamma n i o state syms).bare = o.bare := by
  induction syms generalizing i o state with
  | nil => rfl
  | cons sym syms ih =>
    unfold pushCredit
    cases o.next state sym with
    | none => rfl
    | some next =>
      dsimp only
      rw [ih]
      unfold bare revaluedOrgan
      have hmap := Lists.map_modify_of_fixed (g := revalued (fun _ => 0) fun _ => 0)
        (f := fun st : CdawgState F =>
          { st with credit := F32.add st.credit (F32.mul delta (F32Log.powi gamma (n - 1 - i))) })
        (fun _ => rfl) o.states next
      dsimp only
      rw [hmap]

/-- The values of the states that links lead to are updated. -/
lemma exists_updateLinks (target alpha gamma : F) (fuel : ℕ) (visited : Finset ℕ) (decay : F)
    {S : List (CdawgState F)} {sid : ℕ} (h : Exact turn w name S) (hsid : sid < S.length)
    (hne : sid ≠ 0) :
    ∃ S', updateLinks target alpha gamma fuel visited S sid decay = some S' ∧
      S'.map (revalued (fun _ => 0) fun _ => 0) = S.map (revalued (fun _ => 0) fun _ => 0) := by
  induction fuel generalizing visited S sid decay with
  | zero => exact ⟨S, rfl, rfl⟩
  | succ fuel ih =>
    unfold updateLinks
    split_ifs with hvisited
    · exact ⟨S, rfl, rfl⟩
    · have hst := List.getElem?_eq_getElem hsid
      have hkept : (S.modify sid (nearer target alpha decay)).map (revalued (fun _ => 0) fun _ => 0) =
          S.map (revalued (fun _ => 0) fun _ => 0) :=
        Lists.map_modify_of_fixed (f := nearer target alpha decay) (fun _ => rfl) S sid
      rw [hst]
      dsimp only
      cases hlink : (S[sid]).link with
      | none => exact absurd (h.eq_zero hsid ((h.link_eq_none_iff hst).mp hlink)) hne
      | some link =>
        dsimp only
        split_ifs with hdone
        · exact ⟨_, rfl, hkept⟩
        · obtain ⟨hlt, -⟩ := (h.link sid _ hst link).mp hlink
          rw [not_or] at hdone
          have hmodified : Exact turn w name (S.modify sid (nearer target alpha decay)) :=
            h.modify sid fun st => ⟨rfl, rfl, rfl, rfl, rfl⟩
          obtain ⟨S', hS', hmap⟩ := ih (insert sid visited) (F32.mul decay gamma) hmodified
            (by rwa [List.length_modify]) hdone.2
          exact ⟨S', hS', hmap.trans hkept⟩

/-- The values can be updated. -/
lemma exists_updateQ (h : Reads turn w name o) (order : HashOrder) (sym : ℕ) (utility alpha gamma : F) :
    ∃ o', o.updateQ order sym utility alpha gamma = some o' ∧ o'.bare = o.bare := by
  unfold updateQ
  cases hnext : o.next 0 sym with
  | none => exact ⟨o, rfl, rfl⟩
  | some terminal =>
    obtain ⟨hlt, hext⟩ := (h.exact.next_eq_some_iff h.exact.pos sym terminal).mp hnext
    have hne : terminal ≠ 0 := by
      rintro rfl
      have hsuffix := hext.suffix
      rw [h.exact.root, List.nil_append] at hsuffix
      cases List.suffix_nil.mp hsuffix
    have hst := List.getElem?_eq_getElem hlt
    have hvalues : ∀ e ∈ order.iter (o.states[terminal]).transitions,
        ∃ value, (o.states[e.2]?).map (·.qValue) = some value := by
      rintro ⟨c, u⟩ he
      obtain ⟨hu, -⟩ := (h.exact.next terminal _ hst c u).mp ((order.mem_iter _ c u).mp he)
      exact ⟨_, by rw [List.getElem?_eq_getElem hu]; rfl⟩
    obtain ⟨values, hvalues⟩ := Lists.exists_forall₂ hvalues
    obtain ⟨S', hS', hmap⟩ := exists_updateLinks (F32.add utility (F32.mul gamma
      (if F32Log.isNegInfinity (values.foldl F32.max F32Log.negInfinity) then F32.lit 0
        else values.foldl F32.max F32Log.negInfinity))) alpha gamma (o.states.length + 1) ∅ (F32.lit 1)
      h.exact hlt hne
    refine ⟨{ o with states := S' }, ?_, ?_⟩
    · simp only [hst, Option.bind_eq_bind, Option.bind_some, Lists.mapM_eq_some.mpr hvalues]
      rw [hS']
      rfl
    · unfold bare revaluedOrgan
      dsimp only
      rw [hmap]

lemma bare_finish (o : CdawgOrgan F) : o.finish.bare = o.bare := by
  unfold finish seedQValues bare revaluedOrgan
  dsimp only
  rw [List.map_map]
  rfl

end CdawgOrgan

/-! ## Steps in order -/

namespace EventTape

variable {T : Casing} {home : Option String} {tape : EventTape} {tool entity : String}

lemma events_intern : (tape.intern T home tool entity).2.2.events = tape.events := by
  unfold intern internTool internEntity
  dsimp only
  split <;> split <;> rfl

/-- An event is put behind the others, with its position. -/
lemma exists_log (outcome : UInt8) (sessionId : UInt64) (tsMs : ℤ) :
    ∃ ev : TurnEvent, (tape.log T home tool entity outcome sessionId tsMs).2.events = tape.events ++ [ev] ∧
      (tape.log T home tool entity outcome sessionId tsMs).1 = ev.pack ∧
      ev.turnId = UInt32.ofNat tape.events.length := by
  unfold log
  refine ⟨_, ?_, rfl, ?_⟩
  · dsimp only
    rw [events_intern]
  · dsimp only
    rw [events_intern]

lemma events_symbolOf (outcome : UInt8) : (tape.symbolOf T home tool entity outcome).2.events = tape.events :=
  events_intern

/-- Where nothing is marked, nothing is removed. -/
lemma applyRemovals_of_notMem {remove : List Bool} (h : true ∉ remove) :
    (tape.applyRemovals remove).2 = tape := by
  unfold applyRemovals
  rw [List.count_eq_zero_of_not_mem h]
  rfl

end EventTape

variable {tape : EventTape} {name : ℕ → List ℕ}

namespace LiveTape

open CdawgOrgan

variable [Zero F] {T : Casing} {home : Option String} {s : LiveTape F}

/-- The automaton was fed the first events, and the calls that wait have the others. -/
structure Following (s : LiveTape F) : Prop where
  numbered : s.tape.Numbered
  fed : ∃ (fed rest : List TurnEvent) (o o₀ : CdawgOrgan F), s.tape.events = fed ++ rest ∧
    s.waiting.map (fun c => (c.sym, c.turn)) = rest.map (fun e => (e.pack, e.turnId.toNat)) ∧
    s.cdawg = some o ∧ (new : CdawgOrgan F).feed fed = some o₀ ∧ o.bare = o₀.bare

/-- What an automaton was fed, where the turns are positions. -/
lemma reads_of_feed (h : tape.Numbered) {fed rest : List TurnEvent}
    (hevents : tape.events = fed ++ rest) {o : CdawgOrgan F}
    (ho : (new : CdawgOrgan F).feed fed = some o) :
    ∃ name, Reads id (fed.map TurnEvent.pack) name o := by
  obtain ⟨o', name, ho', hreads⟩ := (reads_new : Reads id [] _ (new : CdawgOrgan F)).feed fed fun i e he => by
    rw [List.length_nil, Nat.zero_add, id_eq]
    refine (h i e ?_).symm
    rw [hevents, List.getElem?_append_left (List.getElem?_eq_some_iff.mp he).1]
    exact he
  rw [ho] at ho'
  obtain rfl := Option.some.inj ho'
  exact ⟨name, hreads⟩

lemma Following.append (h : s.Following) (htape : tape.events = s.tape.events)
    (hlt : s.tape.events.length < 2 ^ 32) (tool entity : String) (outcome : UInt8)
    (sessionId : UInt64) (tsMs : ℤ) (delta utility : Option F) :
    (s.append T home tape tool entity outcome sessionId tsMs delta utility).Following := by
  obtain ⟨fed, rest, o, o₀, hevents, hwaiting, ho, ho₀, hbare⟩ := h.fed
  obtain ⟨ev, hlog, hsym, hturn⟩ := @EventTape.exists_log T home tape tool entity outcome sessionId tsMs
  rw [htape] at hlog hturn
  have hnat : ev.turnId.toNat = s.tape.events.length := by
    rw [hturn, UInt32.toNat_ofNat', Nat.mod_eq_of_lt hlt]
  refine ⟨fun i e he => ?_, fed, rest ++ [ev], o, o₀, ?_, ?_, ho, ho₀, hbare⟩
  · unfold LiveTape.append at he
    dsimp only at he
    rw [hlog, List.getElem?_append] at he
    split_ifs at he with hi
    · exact h.numbered i e he
    · have hzero : i - s.tape.events.length = 0 := by
        have hlen := (List.getElem?_eq_some_iff.mp he).1
        rw [List.length_singleton] at hlen
        omega
      rw [hzero] at he
      obtain rfl := Option.some.inj he
      rw [hnat]
      omega
  · unfold LiveTape.append
    dsimp only
    rw [hlog, hevents, List.append_assoc]
  · unfold LiveTape.append
    dsimp only
    have hone : UInt32.ofNat (s.tape.events.length + 1) - 1 = ev.turnId := by
      rw [UInt32.ofNat_add, hturn]
      exact UInt32.add_sub_cancel _ _
    rw [List.map_append, List.map_append, hwaiting, hlog, List.length_append, List.length_singleton, hone,
      hsym]
    rfl

variable [F32Log F]

lemma following_opened (h : tape.Numbered) : Following (opened tape : LiveTape F) := by
  obtain ⟨o, ho⟩ := exists_feed (F := F) tape.events
  refine ⟨h, tape.events, [], o.finish, o, (List.append_nil _).symm, rfl, ?_, ho, bare_finish o⟩
  rw [opened, rebuildFromTape, ho]
  rfl

/-- A call that feeds its event learns from it. -/
lemma exists_feedWaiting {w : List ℕ} {o o₁ o₂ : CdawgOrgan F} {c : Waiting F}
    (hreads : Reads id w name o₁) (order : HashOrder) (ho₂ : o.extend c.sym c.turn = some o₂)
    (hbare : o₂.bare = o₁.bare) : ∃ o₃, feedWaiting o order c = some o₃ ∧ o₃.bare = o₁.bare := by
  generalize hcredited : (c.delta.elim o₂ fun delta => o₂.pushTdCredit c.lastN delta (F32.lit (9 / 10))) = o'
  have hbare' : o'.bare = o₁.bare := by
    rw [← hcredited, ← hbare]
    cases c.delta with
    | none => rfl
    | some delta => exact bare_pushCredit ..
  have hfeed : feedWaiting o order c = c.utility.elim (some o') fun utility =>
      o'.updateQ order c.sym utility (F32.lit (5 / 100)) (F32.lit (95 / 100)) := by
    unfold feedWaiting
    rw [ho₂, Option.bind_eq_bind, Option.bind_some, hcredited]
  rw [hfeed]
  cases c.utility with
  | none => exact ⟨o', rfl, hbare'⟩
  | some utility =>
    obtain ⟨o₃, ho₃, hbare₃⟩ := exists_updateQ (hreads.of_bare hbare'.symm) order c.sym utility
      (F32.lit (5 / 100)) (F32.lit (95 / 100))
    exact ⟨o₃, ho₃, hbare₃.trans hbare'⟩

/-- The first call that waits feeds its event. -/
lemma Following.feed (h : s.Following) (order : HashOrder) : (s.step T home (.feed 0 order)).Following := by
  obtain ⟨fed, rest, o, o₀, hevents, hwaiting, ho, ho₀, hbare⟩ := h.fed
  unfold step
  dsimp only
  cases hs : s.waiting with
  | nil => exact h
  | cons c cs =>
    rw [hs, List.map_cons] at hwaiting
    cases rest with
    | nil => cases hwaiting
    | cons e rest =>
      obtain ⟨hce, hcs⟩ := List.cons.inj (hwaiting.trans (List.map_cons ..))
      obtain ⟨hsym, hturn⟩ := Prod.mk.inj hce
      have hevents' : s.tape.events = (fed ++ [e]) ++ rest := by
        rw [hevents, List.append_assoc]
        rfl
      obtain ⟨o₁, ho₁⟩ := exists_feed (F := F) (fed ++ [e])
      obtain ⟨name, hreads⟩ := reads_of_feed h.numbered hevents' ho₁
      have hextend : o₀.extend e.pack e.turnId.toNat = some o₁ := by
        rw [feed_append, ho₀, Option.bind_some] at ho₁
        unfold CdawgOrgan.feed at ho₁
        simpa using ho₁
      obtain ⟨o₂, ho₂, hbare₂⟩ := exists_extend_of_bare hbare hextend
      rw [← hsym, ← hturn] at ho₂
      obtain ⟨o₃, ho₃, hbare₃⟩ := exists_feedWaiting hreads order ho₂ hbare₂
      refine ⟨h.numbered, fed ++ [e], rest, o₃, o₁, hevents', hcs, ?_, ho₁, hbare₃⟩
      change s.cdawg.bind _ = _
      rw [ho]
      exact ho₃

/-- A step in order keeps the automaton behind the tape. -/
lemma Following.step (h : s.Following) (c : LiveStep) (hc : s.InOrder c) : (s.step T home c).Following := by
  cases c with
  | logEventEx tool entity outcome sessionId tsMs =>
    unfold LiveTape.step
    dsimp only
    by_cases hlearns : tool ≠ "legacy" ∧ tool ≠ "remember"
    · rw [if_pos hlearns]
      exact h.append rfl hc tool entity outcome sessionId tsMs _ _
    · rw [if_neg hlearns]
      exact h.append rfl hc tool entity outcome sessionId tsMs none none
  | putMemory realm authoredAtMs =>
    exact h.append (EventTape.events_symbolOf 0) hc "remember" realm 0 0 authoredAtMs _ none
  | feed i order =>
    obtain rfl : i = 0 := hc
    exact h.feed order
  | compute order => exact ⟨h.numbered, h.fed⟩
  | apply =>
    unfold LiveTape.step
    cases hremove : s.remove with
    | none => exact h
    | some remove =>
      have htape : (s.tape.applyRemovals remove).2 = s.tape :=
        EventTape.applyRemovals_of_notMem (hc remove hremove)
      dsimp only
      rw [htape]
      exact ⟨h.numbered, h.fed⟩

lemma following_run (h : tape.Numbered) {steps : List LiveStep}
    (hall : (opened tape : LiveTape F).AllInOrder T home steps) :
    ((opened tape : LiveTape F).run T home steps).Following :=
  Replayed.invariant_run Following (fun _ c hs hc => hs.step c hc) (following_opened h) hall

end LiveTape

/-! ## What comes before a pattern -/

/-- A pattern ends at a place iff it begins as much before as it is long. -/
lemma suffix_take_iff {w p : List ℕ} {m : ℕ} (hm : m ≤ w.length) (hp : p.length ≤ m) :
    p <:+ w.take m ↔ p <+: w.drop (m - p.length) := by
  rw [List.suffix_iff_eq_drop, List.prefix_iff_eq_take, List.length_take, min_eq_left hm, List.drop_take,
    Nat.sub_sub_self hp]

/-- The events directly before the ends of a pattern are those directly before its beginnings. -/
lemma countP_occurrences (w p : List ℕ) (x : ℕ) :
    (CdawgOrgan.occurrences w p).countP (fun t => p.length ≤ t ∧ w[t - p.length]? = some x) =
      precedes w p x := by
  have hcard : ∀ q : ℕ → Bool,
      (List.range w.length).countP q = ((Finset.range w.length).filter (q · = true)).card := by
    intro q
    rw [List.countP_eq_length_filter, ← List.toFinset_card_of_nodup (List.nodup_range.filter _),
      List.toFinset_filter, List.toFinset_range]
  rw [CdawgOrgan.occurrences, List.countP_filter, precedes, hcard, hcard]
  refine Finset.card_nbij' (· - p.length) (· + p.length) ?_ ?_ ?_ ?_
  · intro t ht
    simp only [Finset.coe_filter, Finset.mem_range, Set.mem_ofPred_eq,
      Bool.and_eq_true, decide_eq_true_eq] at ht ⊢
    obtain ⟨hlt, ⟨hle, hx⟩, hsuffix⟩ := ht
    rw [suffix_take_iff (by omega) (by omega), Nat.sub_add_comm hle] at hsuffix
    exact ⟨by omega, hx, hsuffix⟩
  · intro i hi
    simp only [Finset.coe_filter, Finset.mem_range, Set.mem_ofPred_eq,
      Bool.and_eq_true, decide_eq_true_eq] at hi ⊢
    obtain ⟨hlt, hx, hpre⟩ := hi
    have hlen := hpre.length_le
    rw [List.length_drop] at hlen
    refine ⟨by omega, ⟨by omega, by rwa [Nat.add_sub_cancel]⟩, ?_⟩
    rw [suffix_take_iff (by omega) (by omega)]
    rwa [Nat.add_right_comm, Nat.add_sub_cancel]
  · intro t ht
    simp only [Finset.coe_filter, Finset.mem_range, Set.mem_ofPred_eq,
      Bool.and_eq_true, decide_eq_true_eq] at ht
    exact Nat.sub_add_cancel ht.2.1.1
  · intro i _
    exact Nat.add_sub_cancel i p.length

namespace CdawgOrgan

/-- Each symbol is counted. -/
lemma lookup_causalCounts (tape : EventTape) (patLen : ℕ) (turns : List ℕ) (x : ℕ) :
    ((causalCounts tape patLen turns).lookup x) =
      if (turns.countP fun t => patLen ≤ t ∧ (tape.events.map TurnEvent.pack)[t - patLen]? = some x) = 0
        then none
      else some (turns.countP fun t =>
        patLen ≤ t ∧ (tape.events.map TurnEvent.pack)[t - patLen]? = some x) := by
  induction turns using List.reverseRecOn with
  | nil => exact Finmap.lookup_empty x
  | append_singleton turns t ih =>
    rw [List.countP_append, List.countP_singleton]
    have hstep : causalCounts tape patLen (turns ++ [t]) =
        if patLen ≤ t then
          match tape.events[t - patLen]? with
          | some ev => (causalCounts tape patLen turns).insert ev.pack
            (((causalCounts tape patLen turns).lookup ev.pack).getD 0 + 1)
          | none => causalCounts tape patLen turns
        else causalCounts tape patLen turns := by
      unfold causalCounts
      rw [List.foldl_append]
      rfl
    rw [hstep, List.getElem?_map]
    by_cases hle : patLen ≤ t
    · rw [if_pos hle]
      cases hev : tape.events[t - patLen]? with
      | none => simpa [hle] using ih
      | some ev =>
        dsimp only
        by_cases hx : ev.pack = x
        · subst hx
          rw [Finmap.lookup_insert, ih]
          simp only [Option.map_some, hle, decide_true, and_self, if_true]
          rw [if_neg (Nat.succ_ne_zero _)]
          split_ifs with hzero
          · rw [hzero]
            rfl
          · rfl
        · rw [Finmap.lookup_insert_of_ne _ (Ne.symm hx), ih]
          simp [hx]
    · rw [if_neg hle, ih]
      simp [hle]

lemma exists_scoreAntecedent {turn : ℕ → ℕ} {w : List ℕ} {o : CdawgOrgan F}
    (h : Exact turn w name o.states) (pmi : ℕ → ℕ → ℕ → ℕ → F) (total yCount : ℕ) (e : Σ _ : ℕ, ℕ) :
    ∃ score : F, o.scoreAntecedent pmi total yCount e = some ([e.1], e.2, score) := by
  unfold scoreAntecedent
  cases hwalk : o.walk [e.1] with
  | none => exact ⟨_, rfl⟩
  | some v =>
    obtain ⟨hv, -⟩ := (h.walk_eq_some_iff [e.1] v).mp hwalk
    dsimp only
    rw [h.collectEndposBitmap_eq hv]
    exact ⟨_, rfl⟩

/-- The symbols with a count are the keys, each once. -/
lemma map_fst_iter (order : HashOrder) (m : Finmap fun _ : ℕ => ℕ) :
    (((order.iter m).map Sigma.fst : List ℕ) : Multiset ℕ) = m.keys.val := by
  rw [← Multiset.map_coe, order.coe_iter]
  rfl

/-- Where nothing precedes it, and where something does, a pattern is counted right. -/
lemma exists_causalAntecedents [F32 F] {o : CdawgOrgan F}
    (h : Exact id (tape.events.map TurnEvent.pack) name o.states) (order : HashOrder)
    (pmi : ℕ → ℕ → ℕ → ℕ → F) (syms : List ℕ) (k : ℕ) :
    ∃ l, o.causalAntecedents order pmi syms k tape = some l ∧ (l.map (·.1)).Nodup ∧
      (∀ e ∈ l, ∃ x, e.1 = [x] ∧ e.2.1 = precedes (tape.events.map TurnEvent.pack) syms x ∧ 0 < e.2.1) ∧
      l.length = min k (((tape.events.map TurnEvent.pack).toFinset.filter fun x =>
        0 < precedes (tape.events.map TurnEvent.pack) syms x).card) := by
  generalize hw : tape.events.map TurnEvent.pack = w at h ⊢
  have hpos : ∀ x, 0 < precedes w syms x → x ∈ w ∧ syms <:+: w := by
    intro x hx
    obtain ⟨i, -, hi⟩ := List.countP_pos_iff.mp hx
    obtain ⟨hmem, hpre⟩ := of_decide_eq_true hi
    exact ⟨List.mem_of_getElem? hmem, hpre.isInfix.trans (List.drop_suffix _ _).isInfix⟩
  unfold causalAntecedents
  cases hwalk : o.walk syms with
  | none =>
    refine ⟨[], rfl, List.nodup_nil, fun e he => absurd he List.not_mem_nil, ?_⟩
    have hnot := (h.walk_eq_none_iff syms).mp hwalk
    rw [Finset.filter_false_of_mem fun x _ hx => hnot (hpos x hx).2, Finset.card_empty, Nat.min_zero]
    rfl
  | some v =>
    obtain ⟨hv, hext⟩ := (h.walk_eq_some_iff syms v).mp hwalk
    have hturns : o.collectEndposBitmap v = some (occurrences w syms).toFinset := by
      rw [h.collectEndposBitmap_eq hv, List.map_id, occurrences_congr hext]
    generalize hcounts : causalCounts tape syms.length (occurrences w syms) = counts
    have hlookup : ∀ x, counts.lookup x =
        if precedes w syms x = 0 then none else some (precedes w syms x) := by
      intro x
      rw [← hcounts, lookup_causalCounts, hw, countP_occurrences]
    choose score hscore using
      exists_scoreAntecedent h pmi tape.events.length (occurrences w syms).toFinset.card
    have hscored : (order.iter counts).mapM
        (o.scoreAntecedent pmi tape.events.length (occurrences w syms).toFinset.card) =
        some ((order.iter counts).map fun e => ([e.1], e.2, score e)) :=
      Lists.mapM_eq_some.mpr (List.forall₂_map_right_iff.mpr (List.forall₂_same.mpr fun e _ => hscore e))
    have hkeys := map_fst_iter order counts
    have hmem : ∀ x, x ∈ counts.keys ↔ 0 < precedes w syms x := by
      intro x
      rw [HashMaps.mem_keys_iff, hlookup]
      split_ifs with hzero
      · simp [hzero]
      · simp [Nat.pos_of_ne_zero hzero]
    refine ⟨(((order.iter counts).map fun e => ([e.1], e.2, score e)).mergeSort
      fun a b => (partialCmp b.2.2 a.2.2).isLE).take k, ?_, ?_, ?_, ?_⟩
    · dsimp only
      rw [hturns, Option.bind_eq_bind, Option.bind_some, sort_occurrences,
        hcounts, Option.bind_eq_bind, hscored]
      rfl
    · refine ((List.take_sublist k _).map _).nodup ?_
      rw [((List.mergeSort_perm _ _).map _).nodup_iff, List.map_map]
      have hnodup : ((order.iter counts).map Sigma.fst).Nodup := by
        rw [← Multiset.coe_nodup, hkeys]
        exact counts.keys.nodup
      have hsingle := hnodup.map (f := fun x => [x]) fun x y hxy => (List.cons.inj hxy).1
      rwa [List.map_map] at hsingle
    · intro e he
      have he := (List.mergeSort_perm _ _).mem_iff.mp (List.mem_of_mem_take he)
      obtain ⟨a, ha, rfl⟩ := List.mem_map.mp he
      have hlook := (order.mem_iter counts a.1 a.2).mp ha
      rw [hlookup] at hlook
      split_ifs at hlook with hzero
      rw [← Option.some.inj hlook]
      exact ⟨a.1, rfl, rfl, Nat.pos_of_ne_zero hzero⟩
    · have hfilter : (w.toFinset.filter fun x => 0 < precedes w syms x) = counts.keys := by
        ext x
        rw [Finset.mem_filter, hmem, List.mem_toFinset]
        exact and_iff_right_of_imp fun hx => (hpos x hx).1
      have hlen : (order.iter counts).length = counts.keys.card := by
        rw [← List.length_map Sigma.fst, ← Multiset.coe_card, hkeys]
        rfl
      rw [List.length_take, List.length_mergeSort, List.length_map, hlen, hfilter]

end CdawgOrgan

/-! ## Agreement -/

namespace LiveTape

open CdawgOrgan

variable [F32Log F] [Zero F] {T : Casing} {home : Option String} {s : LiveTape F}

/-- Where no call waits, the automaton is the one of the tape. -/
lemma Following.agrees (h : s.Following) (hwaits : s.waiting = []) : s.Agrees := by
  obtain ⟨fed, rest, o, o₀, hevents, hwaiting, ho, ho₀, hbare⟩ := h.fed
  rw [hwaits, List.map_nil] at hwaiting
  rw [List.map_eq_nil_iff.mp hwaiting.symm, List.append_nil] at hevents
  subst hevents
  have hfinish : o.bare = o₀.finish.bare := hbare.trans (bare_finish o₀).symm
  have hwalk : ∀ p, o.walk p = o₀.finish.walk p := fun p => by
    rw [← walk_bare, hfinish, walk_bare]
  have hturns : ∀ v, o.collectEndposBitmap v = o₀.finish.collectEndposBitmap v := fun v => by
    rw [← collectEndposBitmap_bare, hfinish, collectEndposBitmap_bare]
  refine ⟨⟨o, o₀.finish, ho, ?_, hwalk, fun v => ?_, fun p => ?_⟩, h.numbered, fun o' ho' => ?_⟩
  · rw [rebuildFromTape, ho₀]
    rfl
  · rw [collectEndpos, collectEndpos, hturns]
  · rw [lastOccurrence, lastOccurrence, hwalk]
    simp only [hturns]
  · rw [ho] at ho'
    obtain rfl := Option.some.inj ho'
    obtain ⟨name, hreads⟩ := reads_of_feed h.numbered (List.append_nil _).symm ho₀
    exact exists_causalAntecedents (hreads.of_bare hbare.symm).exact

/-- **The live automaton is the one that a rebuild makes** behind every run in which the events are fed in
the order in which they were appended, none is removed, and there are fewer than `2 ^ 32`. -/
theorem live_agrees (T : Casing) (home : Option String) (tape : EventTape) (htape : tape.Numbered)
    (steps : List LiveStep) (hsteps : (opened tape : LiveTape F).AllInOrder T home steps)
    (hquiescent : ((opened tape : LiveTape F).run T home steps).Quiescent) :
    ((opened tape : LiveTape F).run T home steps).Agrees :=
  (following_run htape hsteps).agrees hquiescent.1

/-- Numbers that do not round, with a logarithm and powers that are right at one and at integers. -/
instance : F32Log ℚ where
  sub a b := a - b
  neg a := -a
  ln a := a - 1
  powf a b := a ^ b.num
  powi a n := a ^ n
  negInfinity := -10 ^ 39
  isNegInfinity a := decide (a ≤ -10 ^ 39)

/-- A map that is walked in an order of its keys. -/
def keyOrder (order : HashMaps.KeyOrder ℕ) : HashOrder where
  iter m := (HashMaps.entries order m).map fun e => ⟨e.1, e.2⟩
  coe_iter m := by
    have hnodup : ((HashMaps.entries order m).map fun e => (⟨e.1, e.2⟩ : Σ _ : ℕ, ℕ)).Nodup := by
      refine List.Nodup.of_map Sigma.fst ?_
      rw [List.map_map]
      exact HashMaps.nodup_entries order
    refine (Multiset.Nodup.ext (Multiset.coe_nodup.mpr hnodup) m.nodupKeys.nodup).mpr ?_
    rintro ⟨x, v⟩
    rw [← Finmap.mem_lookup_iff, Multiset.mem_coe, List.mem_map]
    constructor
    · rintro ⟨e, he, heq⟩
      cases heq
      exact HashMaps.mem_entries.mp he
    · exact fun hlook => ⟨(x, v), HashMaps.mem_entries.mpr hlook, rfl⟩

/-- Two events, one fed behind the other, and a consolidation that removes none. -/
theorem live_agrees_of_two : ((opened .new : LiveTape ℚ).run .ascii none
    [.logEventEx "Edit" "a" 0 0 0 0 0 0, .feed 0 (keyOrder HashMaps.upwards), .putMemory "b" 0,
      .feed 0 (keyOrder HashMaps.upwards), .compute (keyOrder HashMaps.upwards), .apply]).Agrees :=
  live_agrees .ascii none .new (fun i e he => by cases he) _ (by decide +kernel) (by decide +kernel)

/-- Two memories are stored at once, and the later event is fed first. -/
theorem fed_out_of_order : ¬∀ steps : List LiveStep,
    ((opened .new : LiveTape ℚ).run .ascii none steps).Quiescent →
      ((opened .new : LiveTape ℚ).run .ascii none steps).Agrees := by
  intro h
  have hagrees := h [.putMemory "a" 0, .putMemory "b" 0, .feed 1 (keyOrder HashMaps.upwards),
    .feed 0 (keyOrder HashMaps.upwards)] (by decide +kernel)
  obtain ⟨o, r, ho, hr, hwalk, -⟩ := hagrees.rebuilt
  have hlive : ((opened .new : LiveTape ℚ).run .ascii none [.putMemory "a" 0, .putMemory "b" 0,
      .feed 1 (keyOrder HashMaps.upwards), .feed 0 (keyOrder HashMaps.upwards)]).cdawg.bind
        (fun o => o.walk [0, 1]) = none := by
    decide +kernel
  have hrebuilt : ((rebuildFromTape ((opened .new : LiveTape ℚ).run .ascii none [.putMemory "a" 0,
      .putMemory "b" 0, .feed 1 (keyOrder HashMaps.upwards),
      .feed 0 (keyOrder HashMaps.upwards)]).tape : Option (CdawgOrgan ℚ)).bind
        (fun r => r.walk [0, 1])).isSome = true := by
    decide +kernel
  rw [ho, Option.bind_some, hwalk] at hlive
  rw [hr, Option.bind_some, hlive] at hrebuilt
  cases hrebuilt

end LiveTape

end ChittaField
