import ChittaField.Log.Directory
import ChittaField.Recall.Calendar
import ChittaField.Store.KeyText

/-!
# Time windows

A temporal phrase of a query is read as a window that gates recall.  Ten rules are tried, the most
specific one first; the expressions of the rules are matched by an engine that is not in the source.
The window is a real interval of dates that exist except where it is open to one side and the date on
the other side is beyond its end, and where a date does not exist (`window_real_iff`).
-/

namespace ChittaField

open Gregorian

/-- What an expression has found: a range of the text, and what its groups have captured. -/
structure Captures where
  start : ℕ
  stop : ℕ
  group1 : Option (List Char)
  group2 : Option (List Char)

/-- What is not in the source: the engine that searches a text for an expression, and the Unicode
tables. -/
structure TextTools where
  captures : String → List Char → Option Captures
  /-- What `\d` matches. -/
  digit : Char → Bool
  lowercase : List Char → List Char

/-- A window in UTC, and the query without the phrase. -/
structure TimeWindow where
  fromMs : ℤ
  toMs : ℤ
  stripped : List Char

def msHour : ℤ := 3600000

def msDay : ℤ := 86400000

/-- `parse::<i64>()`. -/
def parseI64 (s : List Char) : Option ℤ :=
  let (neg, digits) := match s with
    | '-' :: ds => (true, ds)
    | '+' :: ds => (false, ds)
    | ds => (false, ds)
  let n : ℤ := Nat.ofDigitChars 10 digits 0
  let v := if neg then -n else n
  if digits ≠ [] ∧ digits.all Char.isDigit = true ∧ -2 ^ 63 ≤ v ∧ v < 2 ^ 63 then some v else none

/-- The number of a month. -/
def monthNum (name : List Char) : Option ℤ :=
  let i := (["january", "february", "march", "april", "may", "june", "july", "august", "september",
    "october", "november", "december"].map String.toList).idxOf name
  if i < 12 then some (i + 1) else none

/-- The local wall time. -/
structure Ctx where
  nowLocalMs : ℤ
  todayDays : ℤ
  tzMs : ℤ

namespace Ctx

variable (ctx : Ctx)

/-- Local midnight. -/
def dayStartMs (_ : Ctx) (days : ℤ) : ℤ := days * msDay

def monthStartDays (_ : Ctx) (y m : ℤ) : ℤ := daysFromCivil y m 1

def toUtc (localMs : ℤ) : ℤ := localMs - ctx.tzMs

def ymd : ℤ × ℤ × ℤ := civilFromDays ctx.todayDays

end Ctx

/-! ## The expressions -/

def monthNames : String :=
  "january|february|march|april|may|june|july|august|september|october|november|december"

def datePattern : String :=
  "(\\d\x7b4\x7d-\\d\x7b2\x7d-\\d\x7b2\x7d|\\d\x7b4\x7d-\\d\x7b2\x7d|(?:" ++ monthNames ++
    ")(?:\\s+\\d\x7b4\x7d)?|\\d\x7b4\x7d)"

/-- The rules, the most specific one first. -/
inductive Rule where
  | between
  | since
  | before
  | onDate
  | lastN
  | pastPeriod
  | calendar
  | yesterday
  | today
  | inMonth
  deriving DecidableEq

/-- The expression of a rule. -/
def Rule.pattern : Rule → String
  | .between => "(?i)\\bbetween\\s+" ++ datePattern ++ "\\s+and\\s+" ++ datePattern ++ "\\b"
  | .since => "(?i)\\b(?:since|after)\\s+" ++ datePattern ++ "\\b"
  | .before => "(?i)\\bbefore\\s+" ++ datePattern ++ "\\b"
  | .onDate => "(?i)\\bon\\s+(\\d\x7b4\x7d-\\d\x7b2\x7d-\\d\x7b2\x7d)\\b"
  | .lastN => "(?i)\\b(?:last|past)\\s+(\\d\x7b1,3\x7d)\\s+(hour|day|week|month)s?\\b"
  | .pastPeriod => "(?i)\\bpast\\s+(week|month|year)\\b"
  | .calendar => "(?i)\\b(this|last)\\s+(week|month|year)\\b"
  | .yesterday => "(?i)\\byesterday\\b"
  | .today => "(?i)\\btoday\\b"
  | .inMonth => "(?i)\\bin\\s+" ++ datePattern ++ "\\b"

/-! ## Date phrases -/

/-- What a date phrase says. -/
inductive Phrase where
  | date (y m d : ℤ)
  | month (y m : ℤ)
  | year (y : ℤ)
  | monthName (m : ℤ) (y : Option ℤ)
  deriving DecidableEq

section Phrases

variable (t : TextTools) (ctx : Ctx)

/-- The date phrase that a text is. -/
def readPhrase (text : List Char) : Option Phrase :=
  let s := t.lowercase (trim text)
  match (splitOnce '-' s).bind fun p => (splitOnce '-' p.2).map fun q => (p.1, q.1, q.2) with
  | some (y, m, d) =>
    (parseI64 y).bind fun y => (parseI64 m).bind fun m => (parseI64 d).map fun d => .date y m d
  | none =>
    match splitOnce '-' s with
    | some (y, m) => (parseI64 y).bind fun y => (parseI64 m).map fun m => .month y m
    | none =>
      match parseI64 s with
      | some y => some (.year y)
      | none =>
        match splitWhitespace s with
        | [] => none
        | name :: parts =>
          (monthNum name).bind fun m =>
            match parts.head? with
            | some y => (parseI64 y).map fun y => .monthName m (some y)
            | none => some (.monthName m none)

/-- The local range of a date phrase. -/
def Phrase.range : Phrase → Option (ℤ × ℤ)
  | .date y m d =>
    let start := ctx.dayStartMs (daysFromCivil y m d)
    some (start, start + msDay)
  | .month y m =>
    if 1 ≤ m ∧ m ≤ 12 then
      let start := ctx.dayStartMs (ctx.monthStartDays y m)
      some (start, start + monthLen y m * msDay)
    else none
  | .year y =>
    if 1990 ≤ y ∧ y ≤ 2100 then
      some (ctx.dayStartMs (daysFromCivil y 1 1), ctx.dayStartMs (daysFromCivil (y + 1) 1 1))
    else none
  | .monthName m y =>
    let (cy, cm, _) := ctx.ymd
    -- without a year, the most recent occurrence that is not in the future
    let y := y.getD (if cm < m then cy - 1 else cy)
    let start := ctx.dayStartMs (ctx.monthStartDays y m)
    some (start, start + monthLen y m * msDay)

/-- Read a date phrase, with the local range that it denotes. -/
def parseDatePhrase (text : List Char) : Option (Phrase × ℤ × ℤ) :=
  (readPhrase t text).bind fun p => (p.range ctx).map fun r => (p, r)

end Phrases

/-! ## The rules -/

/-- A rule that fires: the range of its phrase, the date phrases in it, and the local window. -/
structure Hit where
  rule : Rule
  start : ℕ
  stop : ℕ
  phrases : List Phrase
  window : ℤ × ℤ
  deriving DecidableEq

section Rules

variable (t : TextTools) (ctx : Ctx) (query : List Char)

/-- A rule about a single date. -/
def dateHit (rule : Rule) (window : ℤ × ℤ → ℤ × ℤ) : Option Hit :=
  (t.captures rule.pattern query).bind fun c => c.group1.bind fun g =>
    (parseDatePhrase t ctx g).map fun d => ⟨rule, c.start, c.stop, [d.1], window d.2⟩

def betweenHit : Option Hit :=
  (t.captures Rule.between.pattern query).bind fun c =>
    c.group1.bind fun g => (parseDatePhrase t ctx g).bind fun a =>
      c.group2.bind fun g => (parseDatePhrase t ctx g).map fun b =>
        ⟨.between, c.start, c.stop, [a.1, b.1], (min a.2.1 b.2.1, max a.2.2 b.2.2)⟩

def sinceHit : Option Hit := dateHit t ctx query .since fun d => (d.1, ctx.nowLocalMs)

def beforeHit : Option Hit := dateHit t ctx query .before fun d => (0, d.1)

def onDateHit : Option Hit := dateHit t ctx query .onDate id

def lastNHit : Option Hit :=
  (t.captures Rule.lastN.pattern query).bind fun c => c.group1.bind fun g => (parseI64 g).bind fun n =>
    c.group2.map fun unit =>
      let unit := t.lowercase unit
      let unitMs :=
        if unit = "hour".toList then msHour
        else if unit = "day".toList then msDay
        else if unit = "week".toList then 7 * msDay
        else 30 * msDay
      ⟨.lastN, c.start, c.stop, [], (ctx.nowLocalMs - n * unitMs, ctx.nowLocalMs)⟩

def pastPeriodHit : Option Hit :=
  (t.captures Rule.pastPeriod.pattern query).bind fun c => c.group1.map fun unit =>
    let unit := t.lowercase unit
    let span :=
      if unit = "week".toList then 7 * msDay
      else if unit = "month".toList then 30 * msDay
      else 365 * msDay
    ⟨.pastPeriod, c.start, c.stop, [], (ctx.nowLocalMs - span, ctx.nowLocalMs)⟩

/-- The calendar period that a word and a unit name. -/
def calendarWindow (which unit : List Char) : ℤ × ℤ :=
  let (cy, cm, _) := ctx.ymd
  if unit = "week".toList then
    let monday := ctx.todayDays - weekdayFromDays ctx.todayDays
    if which = "this".toList then (ctx.dayStartMs monday, ctx.nowLocalMs)
    else (ctx.dayStartMs (monday - 7), ctx.dayStartMs monday)
  else if unit = "month".toList then
    if which = "this".toList then (ctx.dayStartMs (ctx.monthStartDays cy cm), ctx.nowLocalMs)
    else
      let (py, pm) := if cm = 1 then (cy - 1, 12) else (cy, cm - 1)
      let s := ctx.monthStartDays py pm
      (ctx.dayStartMs s, ctx.dayStartMs (s + monthLen py pm))
  else
    if which = "this".toList then (ctx.dayStartMs (daysFromCivil cy 1 1), ctx.nowLocalMs)
    else (ctx.dayStartMs (daysFromCivil (cy - 1) 1 1), ctx.dayStartMs (daysFromCivil cy 1 1))

def calendarHit : Option Hit :=
  (t.captures Rule.calendar.pattern query).bind fun c => c.group1.bind fun which =>
    c.group2.map fun unit =>
      ⟨.calendar, c.start, c.stop, [], calendarWindow ctx (t.lowercase which) (t.lowercase unit)⟩

def yesterdayHit : Option Hit :=
  (t.captures Rule.yesterday.pattern query).map fun c => ⟨.yesterday, c.start, c.stop, [],
    (ctx.dayStartMs (ctx.todayDays - 1), ctx.dayStartMs ctx.todayDays)⟩

def todayHit : Option Hit :=
  (t.captures Rule.today.pattern query).map fun c => ⟨.today, c.start, c.stop, [],
    (ctx.dayStartMs ctx.todayDays, ctx.nowLocalMs)⟩

def inMonthHit : Option Hit := dateHit t ctx query .inMonth id

/-- The first rule that fires. -/
def firstHit : Option Hit :=
  [betweenHit t ctx query, sinceHit t ctx query, beforeHit t ctx query, onDateHit t ctx query,
    lastNHit t ctx query, pastPeriodHit t ctx query, calendarHit t ctx query, yesterdayHit t ctx query,
    todayHit t ctx query, inMonthHit t ctx query].findSome? id

end Rules

/-- The wall time of a moment. -/
def localTime (nowMs tzOffsetMin : ℤ) : Ctx :=
  let tzMs := tzOffsetMin * 60000
  ⟨nowMs + tzMs, (nowMs + tzMs) / msDay, tzMs⟩

/-- Read a temporal phrase out of a query.  The source computes in 64 bits: the clock is at least
`10 ^ 15` milliseconds away from their ends, where no sum overflows. -/
def parseTimeWindow (t : TextTools) (query : List Char) (nowMs tzOffsetMin : ℤ) : Option TimeWindow :=
  let ctx := localTime nowMs tzOffsetMin
  (firstHit t ctx query).map fun hit =>
    { fromMs := ctx.toUtc hit.window.1
      toMs := ctx.toUtc hit.window.2
      stripped := [' '].intercalate
        (splitWhitespace (query.take hit.start ++ ' ' :: query.drop hit.stop)) }

/-! ## Real intervals -/

section

variable (t : TextTools) (query : List Char) (nowMs tzOffsetMin : ℤ)

/-- The windows of a query are what they should be: they do not end before they begin, their dates
exist, and with a bare month they do not begin in the future. -/
def RealInterval : Prop :=
  ∀ w, parseTimeWindow t query nowMs tzOffsetMin = some w → w.fromMs ≤ w.toMs ∧
    ∀ hit, firstHit t (localTime nowMs tzOffsetMin) query = some hit →
      (∀ y m d, .date y m d ∈ hit.phrases → IsDate y m d) ∧
        ∀ m, .monthName m none ∈ hit.phrases → w.fromMs ≤ nowMs

/-- The start of a date phrase. -/
def Phrase.StartsBy (ctx : Ctx) (p : Phrase) (localMs : ℤ) : Prop :=
  ∀ r, p.range ctx = some r → r.1 ≤ localMs

/-- The rule that fires does not ask for what is since a later day or before the epoch, and its dates
exist. -/
def InReach : Prop :=
  ∀ hit, firstHit t (localTime nowMs tzOffsetMin) query = some hit →
    (hit.rule = .since → ∀ p ∈ hit.phrases,
      p.StartsBy (localTime nowMs tzOffsetMin) (nowMs + tzOffsetMin * 60000)) ∧
    (hit.rule = .before → ∀ p ∈ hit.phrases, ∀ r,
      p.range (localTime nowMs tzOffsetMin) = some r → 0 ≤ r.1) ∧
    ∀ y m d, .date y m d ∈ hit.phrases → IsDate y m d

/-- The number of a `last N` phrase is made of digits, and a minus sign is none. -/
structure TextTools.Sound : Prop where
  digits : ∀ query c g, t.captures Rule.lastN.pattern query = some c → c.group1 = some g →
    ∀ ch ∈ g, t.digit ch = true
  minus : t.digit '-' = false

end

/-! ## Ranges of date phrases -/

lemma monthNum_spec {name : List Char} {m : ℤ} (h : monthNum name = some m) : 1 ≤ m ∧ m ≤ 12 := by
  unfold monthNum at h
  dsimp only at h
  split_ifs at h with hlt
  have heq := Option.some.inj h
  omega

/-- What has no minus sign is no negative number. -/
lemma parseI64_nonneg {s : List Char} {v : ℤ} (hminus : '-' ∉ s) (h : parseI64 s = some v) : 0 ≤ v := by
  unfold parseI64 at h
  split at h
  · rename_i neg digits heq
    split at heq
    · exact absurd List.mem_cons_self hminus
    all_goals
      cases heq
      dsimp only at h
      rw [if_neg Bool.false_ne_true] at h
      split_ifs at h
      exact Option.some.inj h ▸ Int.natCast_nonneg _

/-- A date phrase that was read has a month of the year, if it has a name. -/
lemma readPhrase_month {t : TextTools} {text : List Char} {m : ℤ} {y : Option ℤ}
    (h : readPhrase t text = some (.monthName m y)) : 1 ≤ m ∧ m ≤ 12 := by
  unfold readPhrase at h
  dsimp only at h
  split at h
  · simp only [Option.bind_eq_some_iff, Option.map_eq_some_iff, reduceCtorEq, and_false,
      exists_false] at h
  split at h
  · simp only [Option.bind_eq_some_iff, Option.map_eq_some_iff, reduceCtorEq, and_false,
      exists_false] at h
  split at h
  · simp at h
  split at h
  · simp at h
  · obtain ⟨m', hm', heq⟩ := Option.bind_eq_some_iff.mp h
    have hm : m' = m := by
      split at heq
      · obtain ⟨y', -, heq⟩ := Option.map_eq_some_iff.mp heq
        exact (Phrase.monthName.inj heq).1
      · exact (Phrase.monthName.inj (Option.some.inj heq)).1
    exact hm ▸ monthNum_spec hm'

lemma first_le {y m d y' m' d' : ℤ} (h : IsDate y m d) (h' : IsDate y' m' d')
    (hle : Before y m d y' m' d' ∨ y = y' ∧ m = m' ∧ d = d') :
    daysFromCivil y m d ≤ daysFromCivil y' m' d' := by
  rcases hle with hlt | ⟨rfl, rfl, rfl⟩
  · exact (numbering_daysFromCivil.strictMono h h' hlt).le
  · exact le_rfl

/-- The first day of a month is a date. -/
lemma isDate_first {y m : ℤ} (hm : 1 ≤ m) (hm' : m ≤ 12) : IsDate y m 1 :=
  ⟨hm, hm', le_rfl, by have := monthDays_pos y m; omega⟩

/-- The range of a date phrase does not end before it begins. -/
lemma range_le {t : TextTools} {ctx : Ctx} {text : List Char} {p : Phrase} {r : ℤ × ℤ}
    (h : parseDatePhrase t ctx text = some (p, r)) :
    p.range ctx = some r ∧ r.1 ≤ r.2 := by
  obtain ⟨p', hp', hmap⟩ := Option.bind_eq_some_iff.mp h
  obtain ⟨r', hr', heq⟩ := Option.map_eq_some_iff.mp hmap
  cases heq
  refine ⟨hr', ?_⟩
  have hlen : ∀ y m, 1 ≤ m → m ≤ 12 → 0 ≤ monthLen y m * msDay := by
    intro y m hm hm'
    have hpos := monthDays_pos y m
    rw [monthLen_eq hm hm', msDay]
    omega
  cases p with
  | date y m d =>
    cases hr'
    dsimp only
    rw [msDay]
    omega
  | month y m =>
    rw [Phrase.range] at hr'
    split_ifs at hr' with hm
    cases hr'
    have := hlen y m hm.1 hm.2
    dsimp only
    omega
  | year y =>
    rw [Phrase.range] at hr'
    split_ifs at hr' with hy
    cases hr'
    have hnext : daysFromCivil y 1 1 ≤ daysFromCivil (y + 1) 1 1 :=
      first_le (isDate_first (by decide) (by decide)) (isDate_first (by decide) (by decide))
        (Or.inl (Or.inl (by omega)))
    simp only [Ctx.dayStartMs, msDay]
    omega
  | monthName m y =>
    obtain ⟨hm, hm'⟩ := readPhrase_month hp'
    cases hr'
    exact le_add_of_nonneg_right (hlen _ m hm hm')

/-- The first of this month, or of a month before, is not after today. -/
lemma first_le_today {z y m : ℤ} (hm : 1 ≤ m) (hm' : m ≤ 12)
    (hle : y < (civilFromDays z).1 ∨ y = (civilFromDays z).1 ∧ m ≤ (civilFromDays z).2.1) :
    daysFromCivil y m 1 ≤ z := by
  obtain ⟨hdate, hback⟩ := civilFromDays_spec z
  have hday := hdate.day_pos
  have horder : Before y m 1 (civilFromDays z).1 (civilFromDays z).2.1 (civilFromDays z).2.2 ∨
      y = (civilFromDays z).1 ∧ m = (civilFromDays z).2.1 ∧ 1 = (civilFromDays z).2.2 := by
    unfold Before
    omega
  exact (first_le (isDate_first hm hm') hdate horder).trans hback.le

/-- A bare month begins by now. -/
lemma startsBy_bare {ctx : Ctx} {m : ℤ} (hm : 1 ≤ m) (hm' : m ≤ 12)
    (hctx : ctx.todayDays * msDay ≤ ctx.nowLocalMs) :
    (Phrase.monthName m none).StartsBy ctx ctx.nowLocalMs := by
  intro r hr
  have hfirst : daysFromCivil (if ctx.ymd.2.1 < m then ctx.ymd.1 - 1 else ctx.ymd.1) m 1 ≤
      ctx.todayDays := by
    refine first_le_today hm hm' ?_
    change (if ctx.ymd.2.1 < m then ctx.ymd.1 - 1 else ctx.ymd.1) < ctx.ymd.1 ∨
      (if ctx.ymd.2.1 < m then ctx.ymd.1 - 1 else ctx.ymd.1) = ctx.ymd.1 ∧ m ≤ ctx.ymd.2.1
    split_ifs <;> omega
  rw [← Option.some.inj hr]
  exact (Int.mul_le_mul_of_nonneg_right hfirst (by decide)).trans hctx

/-! ## Rules that fire -/

section

variable {t : TextTools} {ctx : Ctx} {query : List Char} {hit : Hit} {nowMs tzOffsetMin : ℤ}

lemma dateHit_eq_some {rule : Rule} {window : ℤ × ℤ → ℤ × ℤ}
    (h : dateHit t ctx query rule window = some hit) : ∃ g p r,
      parseDatePhrase t ctx g = some (p, r) ∧ hit.rule = rule ∧ hit.phrases = [p] ∧
        hit.window = window r := by
  obtain ⟨c, -, hg⟩ := Option.bind_eq_some_iff.mp h
  obtain ⟨g, -, hd⟩ := Option.bind_eq_some_iff.mp hg
  obtain ⟨⟨p, r⟩, hparse, heq⟩ := Option.map_eq_some_iff.mp hd
  cases heq
  exact ⟨g, p, r, hparse, rfl, rfl, rfl⟩

/-- A bare month among the phrases of a text begins by now. -/
lemma bare_le (hctx : ctx.todayDays * msDay ≤ ctx.nowLocalMs) {g : List Char} {m : ℤ} {r : ℤ × ℤ}
    (h : parseDatePhrase t ctx g = some (.monthName m none, r)) : r.1 ≤ ctx.nowLocalMs := by
  obtain ⟨p', hp', hmap⟩ := Option.bind_eq_some_iff.mp h
  obtain ⟨r', hr', heq⟩ := Option.map_eq_some_iff.mp hmap
  cases heq
  obtain ⟨hm, hm'⟩ := readPhrase_month hp'
  exact startsBy_bare hm hm' hctx r hr'

/-- A calendar period does not end before it begins. -/
lemma calendarWindow_le (hctx : ctx.todayDays * msDay ≤ ctx.nowLocalMs) (which unit : List Char) :
    (calendarWindow ctx which unit).1 ≤ (calendarWindow ctx which unit).2 := by
  obtain ⟨hdate, -⟩ := civilFromDays_spec ctx.todayDays
  have hmonth : daysFromCivil ctx.ymd.1 ctx.ymd.2.1 1 ≤ ctx.todayDays :=
    first_le_today hdate.month_pos hdate.month_le (Or.inr ⟨rfl, le_rfl⟩)
  have hyear : daysFromCivil ctx.ymd.1 1 1 ≤ ctx.todayDays :=
    first_le_today (by decide) (by decide) (Or.inr ⟨rfl, hdate.month_pos⟩)
  have hlast : daysFromCivil (ctx.ymd.1 - 1) 1 1 ≤ daysFromCivil ctx.ymd.1 1 1 :=
    first_le (isDate_first (by decide) (by decide)) (isDate_first (by decide) (by decide))
      (Or.inl (Or.inl (by omega)))
  have hlen : ∀ y m, 1 ≤ m → m ≤ 12 → 0 ≤ monthLen y m := by
    intro y m hm hm'
    have hpos := monthDays_pos y m
    rw [monthLen_eq hm hm']
    omega
  have hpm : 1 ≤ ctx.ymd.2.1 ∧ ctx.ymd.2.1 ≤ 12 := ⟨hdate.month_pos, hdate.month_le⟩
  unfold calendarWindow
  generalize ctx.ymd = today at hmonth hyear hlast hpm ⊢
  obtain ⟨cy, cm, cd⟩ := today
  simp only [Ctx.dayStartMs, Ctx.monthStartDays, weekdayFromDays, msDay] at hctx hmonth hyear hlast hpm ⊢
  split_ifs with hweek hthis hmon hthis' hone hthis''
  · dsimp only
    omega
  · dsimp only
    omega
  · dsimp only
    omega
  · have hdec := hlen (cy - 1) 12 (by decide) (by decide)
    dsimp only
    omega
  · have hprev := hlen cy (cm - 1) (by omega) (by omega)
    dsimp only
    omega
  · dsimp only
    omega
  · dsimp only
    omega

/-- What the window of a rule that fires is: open to one side, or an interval that a bare month makes
begin by now. -/
inductive WindowOf (ctx : Ctx) (hit : Hit) : Prop
  | since (p : Phrase) (r : ℤ × ℤ) (hrule : hit.rule = .since) (hphrases : hit.phrases = [p])
      (hrange : p.range ctx = some r) (hwindow : hit.window = (r.1, ctx.nowLocalMs))
  | before (p : Phrase) (r : ℤ × ℤ) (hrule : hit.rule = .before) (hphrases : hit.phrases = [p])
      (hrange : p.range ctx = some r) (hwindow : hit.window = (0, r.1))
      (hbare : ∀ m, p = .monthName m none → r.1 ≤ ctx.nowLocalMs)
  | closed (hsince : hit.rule ≠ .since) (hbefore : hit.rule ≠ .before)
      (hle : hit.window.1 ≤ hit.window.2)
      (hbare : ∀ m, .monthName m none ∈ hit.phrases → hit.window.1 ≤ ctx.nowLocalMs)

lemma windowOf_date (hctx : ctx.todayDays * msDay ≤ ctx.nowLocalMs) {rule : Rule}
    (hsince : rule ≠ .since) (hbefore : rule ≠ .before) (h : dateHit t ctx query rule id = some hit) :
    WindowOf ctx hit := by
  obtain ⟨g, p, r, hparse, hrule, hphrases, hwindow⟩ := dateHit_eq_some h
  refine .closed (hrule ▸ hsince) (hrule ▸ hbefore) ?_ fun m hm => ?_
  · rw [hwindow]
    exact (range_le hparse).2
  · rw [hphrases, List.mem_singleton] at hm
    rw [hwindow]
    exact bare_le hctx (hm ▸ hparse)

/-- Every rule that fires has such a window. -/
lemma windowOf_firstHit (ht : t.Sound) (hctx : ctx.todayDays * msDay ≤ ctx.nowLocalMs)
    (h : firstHit t ctx query = some hit) : WindowOf ctx hit := by
  obtain ⟨o, hmem, heq⟩ := List.exists_of_findSome?_eq_some h
  rw [id] at heq
  simp only [List.mem_cons, List.not_mem_nil, or_false] at hmem
  have hopen : ∀ w : ℤ × ℤ, hit.rule ≠ .since → hit.rule ≠ .before → hit.phrases = [] →
      hit.window = w → w.1 ≤ w.2 → WindowOf ctx hit := by
    rintro w hsince hbefore hphrases rfl hle
    refine .closed hsince hbefore hle fun m hm => ?_
    rw [hphrases] at hm
    exact absurd hm List.not_mem_nil
  rcases hmem with rfl | rfl | rfl | rfl | rfl | rfl | rfl | rfl | rfl | rfl
  · -- between
    obtain ⟨c, -, hc⟩ := Option.bind_eq_some_iff.mp heq
    obtain ⟨g, -, hg⟩ := Option.bind_eq_some_iff.mp hc
    obtain ⟨⟨p, a⟩, ha, hrest⟩ := Option.bind_eq_some_iff.mp hg
    obtain ⟨g', -, hg'⟩ := Option.bind_eq_some_iff.mp hrest
    obtain ⟨⟨p', b⟩, hb, hmk⟩ := Option.map_eq_some_iff.mp hg'
    cases hmk
    have hale := (range_le ha).2
    have hble := (range_le hb).2
    refine .closed (by simp) (by simp) (by dsimp only; omega) fun m hm => ?_
    simp only [List.mem_cons, List.not_mem_nil, or_false] at hm
    rcases hm with rfl | rfl
    · exact (min_le_left _ _).trans (bare_le hctx ha)
    · exact (min_le_right _ _).trans (bare_le hctx hb)
  · -- since
    obtain ⟨g, p, r, hparse, hrule, hphrases, hwindow⟩ := dateHit_eq_some heq
    exact .since p r hrule hphrases (range_le hparse).1 hwindow
  · -- before
    obtain ⟨g, p, r, hparse, hrule, hphrases, hwindow⟩ := dateHit_eq_some heq
    exact .before p r hrule hphrases (range_le hparse).1 hwindow fun m hm => bare_le hctx (hm ▸ hparse)
  · exact windowOf_date hctx (by decide) (by decide) heq
  · -- last n
    obtain ⟨c, hc, hg⟩ := Option.bind_eq_some_iff.mp heq
    obtain ⟨g, hg', hn⟩ := Option.bind_eq_some_iff.mp hg
    obtain ⟨n, hparse, hu⟩ := Option.bind_eq_some_iff.mp hn
    obtain ⟨u, -, hmk⟩ := Option.map_eq_some_iff.mp hu
    have hnonneg : 0 ≤ n := parseI64_nonneg (fun hminus => by
      have hdigit := ht.digits _ _ _ hc hg' _ hminus
      rw [ht.minus] at hdigit
      exact Bool.false_ne_true hdigit) hparse
    cases hmk
    refine hopen _ (by simp) (by simp) rfl rfl ?_
    have hunit : 0 ≤ (if t.lowercase u = "hour".toList then msHour
        else if t.lowercase u = "day".toList then msDay
        else if t.lowercase u = "week".toList then 7 * msDay
        else 30 * msDay) := by
      split_ifs <;> decide
    have hspan := mul_nonneg hnonneg hunit
    dsimp only
    omega
  · -- past period
    obtain ⟨c, -, hc⟩ := Option.bind_eq_some_iff.mp heq
    obtain ⟨u, -, hmk⟩ := Option.map_eq_some_iff.mp hc
    cases hmk
    refine hopen _ (by simp) (by simp) rfl rfl ?_
    have hspan : 0 ≤ (if t.lowercase u = "week".toList then 7 * msDay
        else if t.lowercase u = "month".toList then 30 * msDay
        else 365 * msDay) := by
      split_ifs <;> decide
    dsimp only
    omega
  · -- calendar
    obtain ⟨c, -, hc⟩ := Option.bind_eq_some_iff.mp heq
    obtain ⟨which, -, hw⟩ := Option.bind_eq_some_iff.mp hc
    obtain ⟨u, -, hmk⟩ := Option.map_eq_some_iff.mp hw
    cases hmk
    exact hopen _ (by simp) (by simp) rfl rfl (calendarWindow_le hctx _ _)
  · -- yesterday
    obtain ⟨c, -, hmk⟩ := Option.map_eq_some_iff.mp heq
    cases hmk
    refine hopen _ (by simp) (by simp) rfl rfl ?_
    simp only [Ctx.dayStartMs, msDay]
    omega
  · -- today
    obtain ⟨c, -, hmk⟩ := Option.map_eq_some_iff.mp heq
    cases hmk
    exact hopen _ (by simp) (by simp) rfl rfl hctx
  · exact windowOf_date hctx (by decide) (by decide) heq

lemma todayDays_le (nowMs tzOffsetMin : ℤ) : (localTime nowMs tzOffsetMin).todayDays * msDay ≤
    (localTime nowMs tzOffsetMin).nowLocalMs :=
  Int.ediv_mul_le _ (by decide)

/-- **When windows are real.**  The windows of a query do not end before they begin, their dates exist
and with a bare month they do not begin in the future, exactly when the rule that fires does not ask
for what is since a later moment or before the local epoch, and its dates exist. -/
theorem window_real_iff {t : TextTools} (ht : t.Sound) (query : List Char) (nowMs tzOffsetMin : ℤ) :
    RealInterval t query nowMs tzOffsetMin ↔ InReach t query nowMs tzOffsetMin := by
  have hctx := todayDays_le nowMs tzOffsetMin
  have hnow : (localTime nowMs tzOffsetMin).nowLocalMs = nowMs + tzOffsetMin * 60000 := rfl
  have htz : (localTime nowMs tzOffsetMin).tzMs = tzOffsetMin * 60000 := rfl
  unfold RealInterval InReach parseTimeWindow
  cases hfirst : firstHit t (localTime nowMs tzOffsetMin) query with
  | none => simp [hfirst]
  | some hit =>
    have hwindowOf := windowOf_firstHit ht hctx hfirst
    simp only [hfirst, Option.map_some, Option.some.injEq, forall_eq', Ctx.toUtc, htz]
    cases hwindowOf with
    | since p r hrule hphrases hrange hwindow =>
      rw [hwindow, hphrases, hrule, hnow]
      constructor
      · rintro ⟨hle, hdates, -⟩
        refine ⟨fun _ q hq r' hr' => ?_, fun h => absurd h (by decide), hdates⟩
        rw [List.mem_singleton.mp hq, hrange] at hr'
        cases hr'
        dsimp only at hle
        omega
      · rintro ⟨hstarts, -, hdates⟩
        have hle := hstarts rfl p List.mem_cons_self r hrange
        refine ⟨by dsimp only; omega, hdates, fun m _ => by dsimp only; omega⟩
    | before p r hrule hphrases hrange hwindow hbare =>
      rw [hwindow, hphrases, hrule]
      rw [hnow] at hbare
      constructor
      · rintro ⟨hle, hdates, -⟩
        refine ⟨fun h => absurd h (by decide), fun _ q hq r' hr' => ?_, hdates⟩
        rw [List.mem_singleton.mp hq, hrange] at hr'
        cases hr'
        dsimp only at hle
        omega
      · rintro ⟨-, hstarts, hdates⟩
        have hle := hstarts rfl p List.mem_cons_self r hrange
        refine ⟨by dsimp only; omega, hdates, fun m hm => ?_⟩
        have hby := hbare m (List.mem_singleton.mp hm).symm
        dsimp only
        omega
    | closed hsince hbefore hle hbare =>
      rw [hnow] at hbare
      constructor
      · rintro ⟨-, hdates, -⟩
        exact ⟨fun h => absurd h hsince, fun h => absurd h hbefore, hdates⟩
      · rintro ⟨-, -, hdates⟩
        refine ⟨by omega, hdates, fun m hm => ?_⟩
        have hby := hbare m hm
        omega

end

/-! ## An engine -/

/-- An engine that finds a `since` phrase at the front of one query, and nothing else. -/
def sinceTools (query : String) (stop : ℕ) (date : String) : TextTools where
  captures pattern text :=
    if pattern = Rule.since.pattern ∧ text = query.toList then some ⟨0, stop, some date.toList, none⟩
    else none
  digit := Char.isDigit
  lowercase := id

lemma sound_sinceTools (query : String) (stop : ℕ) (date : String) :
    (sinceTools query stop date).Sound where
  digits q c g hc := by
    have hne : Rule.lastN.pattern ≠ Rule.since.pattern := by decide +kernel
    have hnone : (sinceTools query stop date).captures Rule.lastN.pattern q = none := by
      change (if Rule.lastN.pattern = Rule.since.pattern ∧ q = query.toList then
        some (Captures.mk 0 stop (some date.toList) none) else none) = none
      exact if_neg fun h => hne h.1
    rw [hnone] at hc
    exact absurd hc (by simp)
  minus := by
    change Char.isDigit '-' = false
    decide

/-- `since 2026-05-15 what merged`, asked on 2026-07-06. -/
theorem window_real_since_may :
    RealInterval (sinceTools "since 2026-05-15 what merged" 16 "2026-05-15")
      "since 2026-05-15 what merged".toList 1783346400000 120 := by
  have hfirst : firstHit (sinceTools "since 2026-05-15 what merged" 16 "2026-05-15")
      (localTime 1783346400000 120) "since 2026-05-15 what merged".toList =
      some ⟨.since, 0, 16, [.date 2026 5 15], (1778803200000, 1783353600000)⟩ := by
    decide +kernel
  refine (window_real_iff (sound_sinceTools _ _ _) _ _ _).mpr fun hit hhit => ?_
  rw [hfirst] at hhit
  cases hhit
  refine ⟨fun _ p hp r hr => ?_, fun h => absurd h (by decide), fun y m d hdate => ?_⟩
  · cases List.mem_singleton.mp hp
    rw [← Option.some.inj hr]
    decide +kernel
  · cases List.mem_singleton.mp hdate
    decide +kernel

/-- `since 2999-01-01`, asked on 2026-07-06, is a window that ends before it begins. -/
theorem since_future_is_empty : ∃ t : TextTools, t.Sound ∧ ∃ query nowMs tzOffsetMin,
    ¬RealInterval t query nowMs tzOffsetMin := by
  refine ⟨sinceTools "since 2999-01-01" 16 "2999-01-01", sound_sinceTools _ _ _,
    "since 2999-01-01".toList, 1783346400000, 120, fun hreal => ?_⟩
  have hfirst : firstHit (sinceTools "since 2999-01-01" 16 "2999-01-01")
      (localTime 1783346400000 120) "since 2999-01-01".toList =
      some ⟨.since, 0, 16, [.date 2999 1 1], (32472144000000, 1783353600000)⟩ := by
    decide +kernel
  simp only [RealInterval, parseTimeWindow, hfirst, Option.map_some, Option.some.injEq,
    forall_eq'] at hreal
  exact absurd hreal.1 (by decide +kernel)

end ChittaField
