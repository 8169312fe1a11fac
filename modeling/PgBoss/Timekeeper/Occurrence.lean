import PgBoss.Schema
import PgBoss.Timekeeper.ClaimTimer

/-!
# Reading a schedule's occurrences

The cron parser and the recurrence rule library stand as parameters: what `prev()` of a parsed
expression answers with, one call after another, and what `between()` of a parsed rule does. The
readings built on them are here: the due window, and the catch-up on what fell before it. Instants
are whole milliseconds, the resolution of a `Date`.
-/

namespace PgBoss

/-- `SCHEDULE_KINDS`. -/
inductive ScheduleKind
  | cron | rrule
  deriving DecidableEq, Repr

/-- `SCHEDULE_MISSED_POLICIES`. -/
inductive MissedPolicy
  | skip | once
  deriving DecidableEq, Repr

/-- The name of a policy. -/
def MissedPolicy.text : MissedPolicy → String
  | .skip => "skip"
  | .once => "once"

/-- The stored options of a schedule: the policy named, and the text of all of them. -/
structure ScheduleOptions where
  missed : Option String := none
  text : Json := "\x7b\x7d"
  deriving DecidableEq, Repr

/-- A row of the schedule table. -/
structure Schedule where
  name : String
  key : String
  kind : ScheduleKind
  cron : String
  timezone : String
  data : Option Json := none
  options : Option ScheduleOptions := none
  createdOn : Option Int := none
  deriving DecidableEq, Repr

/-- A parsed cron expression: whether its hour field names every hour, and what `prev()` answers with
from a reference date on, one call after another, until it throws. -/
structure CronInterval where
  everyHour : Bool
  prev : Int → List Int
  exhausted : String

/-- `between()` of a parsed rule: the occurrences strictly between two instants, in order. -/
abbrev Between := Int → Int → Except String (List Int)

/-- The two libraries, and the offset in minutes a zone has at an instant. -/
structure RecurrenceLibrary where
  parseCron : String → String → Except String CronInterval
  parseRule : String → String → Except String Between
  getUTCOffset : String → Int → Int

section Shape

/-- White space, as `\\s` and `trim()` have it. -/
def whiteSpace (c : Char) : Bool :=
  c.toNat ∈ [9, 10, 11, 12, 13, 32, 0xa0, 0x1680, 0x2028, 0x2029, 0x202f, 0x205f, 0x3000, 0xfeff] ||
    (decide (0x2000 ≤ c.toNat) && decide (c.toNat ≤ 0x200a))

/-- A line ends here. -/
def lineTerminator (c : Char) : Bool := c.toNat ∈ [10, 13, 0x2028, 0x2029]

/-- `[ \t]*[a-z][a-z0-9-]*[;:]`, whatever the case. -/
def propertyHead (text : List Char) : Bool :=
  match text.dropWhile fun c => c = ' ' ∨ c = '\t' with
  | [] => false
  | c :: rest => c.isAlpha && match rest.dropWhile fun c => c.isAlphanum || c = '-' with
    | [] => false
    | c :: _ => c = ';' || c = ':'

/-- `FREQ=`, whatever the case. -/
def freqPart (text : List Char) : Bool := (text.take 5).map Char.toUpper == ['F', 'R', 'E', 'Q', '=']

/-- `RRULE_SHAPE`, from a place in the text that starts a line or follows a separator, or not. -/
def rruleShape : Bool → Bool → List Char → Bool
  | lineStart, separated, [] => (lineStart && propertyHead []) || ((lineStart || separated) && freqPart [])
  | lineStart, separated, c :: rest =>
    (lineStart && propertyHead (c :: rest)) || ((lineStart || separated) && freqPart (c :: rest)) ||
      rruleShape (lineTerminator c) (whiteSpace c || c = ';') rest

/-- `isRrule`. -/
def isRrule (expression : String) : Bool := rruleShape true false expression.toList

/-- `assertExpression`. -/
def assertExpression (expression : String) : Except String Unit :=
  if expression.toList.all whiteSpace then .error "cron expression must be a non-empty string" else .ok ()

end Shape

/-- `OCCURRENCE_WINDOW_SECONDS`. -/
def occurrenceWindowSeconds : Int := 60

/-- The width of the due window and of a throttle slot. -/
def windowMillis : Int := occurrenceWindowSeconds * 1000

section Cron

/-- `repeatsLocalTime`. -/
def repeatsLocalTime (offset : Int → Int) (instant : Int) : Bool :=
  let shift := offset (instant - 3 * 60 * 60 * 1000) - offset instant
  decide (0 < shift) && decide (offset (instant - shift * 60 * 1000) - offset instant = shift)

/-- `previousOccurrence`: the first answer whose local time is not a repeated one. -/
def previousOccurrence (offset : Int → Int) (interval : CronInterval) (currentDate : Int) : Except String Int :=
  match (interval.prev currentDate).find? fun o => interval.everyHour || !repeatsLocalTime offset o with
  | some occurrence => .ok occurrence
  | none => .error interval.exhausted

end Cron

section Rrule

/-- `occurrencesInWindow`. -/
def occurrencesInWindow (between : Between) (after until_ : Int) : Except String (List Int) :=
  between after (until_ + 1)

/-- `STEP_SECONDS`, in milliseconds. -/
def stepMillis : Int := 60 * 60 * 1000

/-- `STEP_GROWTH`. -/
def stepGrowth : Int := 4

/-- Half of a range the library would not read, no narrower than the first step. -/
def halvedWidth (range : Int) : Int := max stepMillis (range / 2)

/-- The width after a step that found nothing. -/
def grownWidth (width : Int) : Option Int → Int
  | none => width * stepGrowth
  | some ceiling => min (width * stepGrowth) ceiling

theorem halvedWidth_pos (range : Int) : 0 < halvedWidth range := lt_max_of_lt_left (by decide)

theorem grownWidth_pos {width : Int} {ceiling : Option Int} (hwidth : 0 < width)
    (hceiling : ∀ c, ceiling = some c → 0 < c) : 0 < grownWidth width ceiling := by
  have hgrown : 0 < width * stepGrowth := Int.mul_pos hwidth (by decide)
  cases ceiling with
  | none => exact hgrown
  | some c => exact lt_min hgrown (hceiling c rfl)

theorem halvedWidth_lt {range width : Int} (hrange : range ≤ width) (hfloor : ¬ range ≤ stepMillis) :
    halvedWidth range < width := by
  simp only [stepMillis] at hfloor
  simp only [halvedWidth, stepMillis]
  omega

/-- The search of `latestOccurrenceBefore`: a step back over `width`, which grows while it finds
nothing, and is halved, for good, where the library will not read so wide a range. -/
def latestSearch (between : Between) (start upper width : Int) (ceiling : Option Int) (hwidth : 0 < width)
    (hceiling : ∀ c, ceiling = some c → 0 < c) : Except String (Option Int) :=
  if _hrange : start < upper then
    let lower := max start (upper - width)
    match between lower (upper + 1) with
    | .error e =>
      if _hfloor : upper - lower ≤ stepMillis then .error e
      else latestSearch between start upper (halvedWidth (upper - lower)) (some (halvedWidth (upper - lower)))
        (halvedWidth_pos _) fun _ hc => Option.some.inj hc ▸ halvedWidth_pos _
    | .ok step =>
      match step.getLast? with
      | some occurrence => .ok (some occurrence)
      | none => latestSearch between start lower (grownWidth width ceiling) ceiling (grownWidth_pos hwidth hceiling) hceiling
  else .ok none
termination_by ((upper - start).toNat, width.toNat)
decreasing_by
  · have hle : upper - lower ≤ width := by
      have := le_max_right start (upper - width)
      omega
    exact Prod.Lex.right _ ((Int.toNat_lt_toNat hwidth).mpr (halvedWidth_lt hle ‹_›))
  · have : start ≤ lower := le_max_left _ _
    have hlt : lower < upper := max_lt ‹_› (by omega)
    exact Prod.Lex.left _ _ (by omega)

/-- `latestOccurrenceBefore` of a rule. -/
def latestRuleOccurrenceBefore (between : Between) (after until_ : Int) : Except String (Option Int) :=
  latestSearch between after until_ stepMillis none (by decide) nofun

end Rrule

namespace Timekeeper

variable (lib : RecurrenceLibrary)

/-- `readOccurrences`: every occurrence of a rule in the due window, the latest of a cron expression. -/
def readOccurrences (expression : String) (kind : ScheduleKind) (tz : String) (databaseTime : Int) :
    Except String (List Int) :=
  let window := databaseTime - windowMillis
  match kind with
  | .rrule => do
    let between ← lib.parseRule expression tz
    occurrencesInWindow between window databaseTime
  | .cron => do
    let interval ← lib.parseCron expression tz
    let previous ← previousOccurrence (lib.getUTCOffset tz) interval (databaseTime + 1)
    return if previous > window then [previous] else []

/-- `dueOccurrences`: where the expression cannot be read as the row says, it is read as it is written. -/
def dueOccurrences (expression : String) (kind : ScheduleKind) (tz : String) (databaseTime : Int) :
    Except String (ScheduleKind × List Int) := do
  assertExpression expression
  match readOccurrences lib expression kind tz databaseTime with
  | .ok occurrences => return (kind, occurrences)
  | .error e =>
    let detected := if isRrule expression then ScheduleKind.rrule else ScheduleKind.cron
    if detected = kind then throw e
    let occurrences ← readOccurrences lib expression detected tz databaseTime
    return (detected, occurrences)

/-- `latestOccurrenceBefore`. -/
def latestOccurrenceBefore (expression : String) (kind : ScheduleKind) (tz : String) (after until_ : Int) :
    Except String (Option Int) :=
  match kind with
  | .rrule => do
    let between ← lib.parseRule expression tz
    latestRuleOccurrenceBefore between after until_
  | .cron => do
    let interval ← lib.parseCron expression tz
    let occurrence ← previousOccurrence (lib.getUTCOffset tz) interval (until_ + 1)
    return if occurrence > after then some occurrence else none

/-- `missedPolicy`. -/
def missedPolicy (options : Option ScheduleOptions) : MissedPolicy :=
  match options.bind ScheduleOptions.missed with
  | none => .skip
  | some missed => if missed = MissedPolicy.once.text then .once else .skip

/-- `missedOccurrence`. -/
def missedOccurrence (schedule : Schedule) (kind : ScheduleKind) (lastPass : Option Int) (windowStart : Int) :
    Except String (Option Int) :=
  match lastPass with
  | none => .ok none
  | some lastPass =>
    if missedPolicy schedule.options = .skip then .ok none
    else
      let from_ := max lastPass (schedule.createdOn.getD lastPass)
      if from_ ≥ windowStart then .ok none
      else latestOccurrenceBefore lib schedule.cron kind schedule.timezone from_ windowStart

end Timekeeper

end PgBoss
