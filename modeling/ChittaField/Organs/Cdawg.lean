import Mathlib.Data.Finmap
import Mathlib.Data.Finset.Sort
import ChittaField.Lib.Factors
import ChittaField.Lib.Forest

/-!
# The suffix automaton

The symbols of a tape are fed one by one to a suffix automaton.  A state stands for the patterns that
end at the same positions; it has the turns at which it was reached, the transitions by symbols, the
link to the longest shorter pattern and the states that are linked to it.

That it answers for all patterns is in the modules about one symbol and about a sequence.
-/

namespace ChittaField

variable {F : Type}

/-! ## The automaton -/

/-- A state. -/
structure CdawgState (F : Type) where
  /-- The length of the longest pattern. -/
  len : ℕ
  link : Option ℕ
  transitions : Finmap fun _ : ℕ => ℕ
  endpos : Finset ℕ
  credit : F
  qValue : F
  failCount : ℕ
  succCount : ℕ
  slChildren : List ℕ

/-- The automaton; `last` is the state of all that was fed. -/
structure CdawgOrgan (F : Type) where
  states : List (CdawgState F)
  last : ℕ
  rebuilt : Bool

/-- A state without transitions. -/
def CdawgState.new [Zero F] (len : ℕ) (link : Option ℕ) : CdawgState F where
  len := len
  link := link
  transitions := ∅
  endpos := ∅
  credit := 0
  qValue := 0
  failCount := 0
  succCount := 0
  slChildren := []

/-- Let a symbol lead to a state. -/
def CdawgState.lead (st : CdawgState F) (sym target : ℕ) : CdawgState F :=
  { st with transitions := st.transitions.insert sym target }

namespace CdawgOrgan

/-- Nothing was fed. -/
def new [Zero F] : CdawgOrgan F where
  states := [.new 0 none]
  last := 0
  rebuilt := false

/-- Walk up the links and change the states as long as a condition holds; the first state where it
does not.  Each link is shorter, so that the length of the first state bounds the steps. -/
def climb (cond : CdawgState F → Bool) (change : CdawgState F → CdawgState F) :
    ℕ → List (CdawgState F) → ℕ → Option (List (CdawgState F) × Option ℕ)
  | 0, _, _ => none
  | fuel + 1, states, p =>
    match states[p]? with
    | none => none
    | some st =>
      if cond st then
        match st.link with
        | none => some (states.modify p change, none)
        | some link => climb cond change fuel (states.modify p change) link
      else some (states, some p)

/-- Walk from `p` upward, adding transitions to `cur` where missing. -/
def addTransitions (sym cur : ℕ) : ℕ → List (CdawgState F) → ℕ →
    Option (List (CdawgState F) × Option ℕ) :=
  climb (fun st => (st.transitions.lookup sym).isNone) (·.lead sym cur)

/-- Redirect transitions from `p` upward: any that pointed to `q` now point to `clone`. -/
def redirect (sym q clone : ℕ) : ℕ → List (CdawgState F) → ℕ →
    Option (List (CdawgState F) × Option ℕ) :=
  climb (fun st => st.transitions.lookup sym = some q) (·.lead sym clone)

/-- Link `cur` to `q`. -/
def attach (states : List (CdawgState F)) (q cur : ℕ) : List (CdawgState F) :=
  (states.modify cur ({ · with link := some q })).modify q
    fun st => { st with slChildren := st.slChildren ++ [cur] }

/-- Put a child in the place of another. -/
def replaceChild (children : List ℕ) (q clone : ℕ) : List ℕ :=
  match children.findIdx? fun x => x = q with
  | some pos => children.set pos clone
  | none => children ++ [clone]

/-- A copy of `q` with a length of its own. -/
def cloneState [Zero F] (q : CdawgState F) (len : ℕ) : CdawgState F where
  len := len
  link := q.link
  transitions := q.transitions
  endpos := q.endpos
  credit := 0
  qValue := 0
  failCount := 0
  succCount := 0
  slChildren := []

/-- Link `q` and `cur` to a copy of `q`. -/
def split [Zero F] (states : List (CdawgState F)) (q : ℕ) (qState : CdawgState F)
    (len cur : ℕ) : List (CdawgState F) :=
  let clone := states.length
  let states := states ++ [cloneState qState len]
  let states := states.modify q ({ · with link := some clone })
  let states := states.modify cur ({ · with link := some clone })
  let states := match qState.link with
    | none => states
    | some oldQLink => states.modify oldQLink fun st =>
      { st with slChildren := replaceChild st.slChildren q clone }
  states.modify clone fun st => { st with slChildren := st.slChildren ++ [q, cur] }

/-- Feed a symbol.  There is no result where a state is asked for that is not there, or a walk up the
links does not end. -/
def extend [Zero F] (o : CdawgOrgan F) (sym turn : ℕ) : Option (CdawgOrgan F) := do
  let cur := o.states.length
  let curLen := (← o.states[o.last]?).len + 1
  let newState : CdawgState F := { CdawgState.new curLen none with endpos := {turn} }
  let (states, p) ← addTransitions sym cur curLen (o.states ++ [newState]) o.last
  match p with
  | none => pure { o with states := attach states 0 cur, last := cur }
  | some p =>
    let pState ← states[p]?
    let q ← pState.transitions.lookup sym
    let qState ← states[q]?
    if qState.len = pState.len + 1 then
      pure { o with states := attach states q cur, last := cur }
    else
      let clone := states.length
      let states := split states q qState (pState.len + 1) cur
      let (states, _) ← redirect sym q clone (pState.len + 1) states p
      pure { o with states := states, last := cur }

/-- Feed symbols, each with its position. -/
def extendAll [Zero F] (o : CdawgOrgan F) (turn : ℕ) : List ℕ → Option (CdawgOrgan F)
  | [] => some o
  | sym :: syms => (o.extend sym turn).bind fun o => o.extendAll (turn + 1) syms

/-! ## Queries -/

/-- Where a symbol leads. -/
def next (o : CdawgOrgan F) (v sym : ℕ) : Option ℕ :=
  (o.states[v]?).bind fun st => st.transitions.lookup sym

/-- The state that symbols lead to. -/
def walkFrom (o : CdawgOrgan F) : ℕ → List ℕ → Option ℕ
  | v, [] => some v
  | v, sym :: syms => (o.next v sym).bind fun u => o.walkFrom u syms

/-- The state that a pattern leads to. -/
def walk (o : CdawgOrgan F) (syms : List ℕ) : Option ℕ := o.walkFrom 0 syms

/-- The turns of a state and of those below it in the tree of links. -/
def collectEndposBitmap (o : CdawgOrgan F) (start : ℕ) : Option (Finset ℕ) :=
  Forest.gather (fun v => (o.states[v]?).map fun st => (st.slChildren, st.endpos))
    o.states.length [start] ∅

/-- The turns of a state and of those below it, sorted. -/
def collectEndpos (o : CdawgOrgan F) (start : ℕ) : Option (List ℕ) :=
  (o.collectEndposBitmap start).map fun bitmap => bitmap.sort (· ≤ ·)

/-- The last turn at which a pattern ended. -/
def lastOccurrence (o : CdawgOrgan F) (syms : List ℕ) : Option ℕ :=
  (o.walk syms).bind fun state =>
    (o.collectEndposBitmap state).bind fun bitmap => (bitmap.sort (· ≤ ·)).getLast?

end CdawgOrgan

end ChittaField
