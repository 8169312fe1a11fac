import PgBoss.Timekeeper.LatestSearch

/-!
# What a schedule's readings answer with

Where the libraries answer as they are documented to, the reading of the due window gives every
occurrence of a rule in it and the latest of a cron expression, and the catch-up the latest
occurrence of its range, whatever widths the search for it goes through.
-/

namespace PgBoss

open Recurrence

variable {O R : Set ℤ} {t x : ℤ}

section Cron

variable {interval : CronInterval} {offset : ℤ → ℤ}

/-- `prev()` goes back through the occurrences of `R` before its reference date, one after another. -/
structure CronInterval.Walks (interval : CronInterval) (R : Set ℤ) : Prop where
  mem : ∀ ref, ∀ o ∈ interval.prev ref, o ∈ R ∧ o < ref
  backwards : ∀ ref, (interval.prev ref).Pairwise fun a b => b < a
  each : ∀ ref, ∀ a ∈ interval.prev ref, ∀ o ∈ R, a ≤ o → o < ref → o ∈ interval.prev ref

/-- The occurrences of `R` that run: those at a repeated local time do not, unless every hour is named. -/
def CronInterval.runs (interval : CronInterval) (offset : ℤ → ℤ) (R : Set ℤ) : Set ℤ :=
  {o ∈ R | interval.everyHour = true ∨ repeatsLocalTime offset o = false}

/-- Read with a reference date past `t`, the answer is the latest occurrence up to `t` that runs. -/
theorem previousOccurrence_latest (h : interval.Walks R)
    (hsome : ∃ o ∈ interval.prev (t + 1), o ∈ interval.runs offset R) :
    ∃ x, previousOccurrence offset interval (t + 1) = .ok x ∧ Latest (interval.runs offset R) t x := by
  have hruns : ∀ o ∈ interval.prev (t + 1), ((interval.everyHour || !repeatsLocalTime offset o) = true ↔
      o ∈ interval.runs offset R) := by
    intro o ho
    simp [CronInterval.runs, (h.mem _ o ho).1]
  obtain ⟨o, ho, hrun⟩ := hsome
  cases hfind : (interval.prev (t + 1)).find? fun o => interval.everyHour || !repeatsLocalTime offset o with
  | none => exact absurd ((hruns o ho).mpr hrun) (List.find?_eq_none.mp hfind o ho)
  | some x =>
    obtain ⟨hx, before, after, hlist, hskipped⟩ := List.find?_eq_some_iff_append.mp hfind
    have hmem : x ∈ interval.prev (t + 1) := by rw [hlist]; simp
    refine ⟨x, by rw [previousOccurrence, hfind], ⟨(hruns x hmem).mp hx, by have := (h.mem _ x hmem).2; omega⟩, ?_⟩
    rintro p ⟨hp, hpt⟩
    by_contra hlater
    -- a later one that runs is listed before `x`, and was passed over
    have hplisted := h.each _ x hmem p hp.1 (by omega) (by omega)
    have hsorted := h.backwards (t + 1)
    rw [hlist] at hplisted hsorted
    rcases List.mem_append.mp hplisted with hbefore | hrest
    · have hpass := hskipped p hbefore
      have hin : p ∈ interval.prev (t + 1) := by rw [hlist]; exact List.mem_append_left _ hbefore
      rw [(hruns p hin).mpr hp] at hpass
      contradiction
    · rcases List.mem_cons.mp hrest with rfl | hafter
      · exact hlater le_rfl
      · exact hlater ((List.pairwise_cons.mp (List.pairwise_append.mp hsorted).2.1).1 p hafter).le

end Cron

section Rrule

variable {between : Between} {start upper width : ℤ} {ceiling : Option ℤ}

/-- `between()` lists the occurrences strictly between two instants in order, and reads any range up to
the first step of a search. -/
structure Between.Lists (between : Between) (O : Set ℤ) : Prop where
  mem : ∀ a b l, between a b = .ok l → ∀ o, o ∈ l ↔ o ∈ O ∧ a < o ∧ o < b
  forwards : ∀ a b l, between a b = .ok l → l.Pairwise (· < ·)
  reads : ∀ a b, b ≤ a + stepMillis + 1 → ∃ l, between a b = .ok l

theorem Between.Lists.answers (h : between.Lists O) : between.Answers O :=
  ⟨h.mem, fun a b l hl => (h.forwards a b l hl).imp fun hlt => hlt.le⟩

/-- The search comes to the latest occurrence of its range, or finds that it holds none. -/
theorem latestSearch_spec (h : between.Lists O) (hwidth : 0 < width) (hceiling : ∀ c, ceiling = some c → 0 < c) :
    ∃ r, latestSearch between start upper width ceiling hwidth hceiling = .ok r ∧
      ∀ x, r = some x ↔ LatestIn O start upper x := by
  have hfound : between.Found O start upper (latestSearch between start upper width ceiling hwidth hceiling) :=
    latestSearch_found h.answers hwidth hceiling
  generalize latestSearch between start upper width ceiling hwidth hceiling = result at hfound
  match result, hfound with
  | .ok (some latest), hlatest =>
    refine ⟨some latest, rfl, fun x => ⟨fun hx => Option.some.inj hx ▸ hlatest, fun hx => ?_⟩⟩
    rw [hlatest.unique hx]
  | .ok none, hnone => exact ⟨none, rfl, fun x => ⟨nofun, fun hx => absurd hx.1.2 (hnone x hx.1.1)⟩⟩
  | .error e, ⟨a, b, _, _, _, hnarrow, herror⟩ =>
    obtain ⟨l, hl⟩ := h.reads a (b + 1) (by omega)
    rw [herror] at hl
    contradiction

theorem latestRuleOccurrenceBefore_spec (h : between.Lists O) (a b : ℤ) :
    ∃ r, latestRuleOccurrenceBefore between a b = .ok r ∧ ∀ x, r = some x ↔ LatestIn O a b x :=
  latestSearch_spec h _ _

/-- The reading of the due window. -/
theorem occurrencesInWindow_spec (h : between.Lists O) {a b : ℤ} (hwindow : b ≤ a + stepMillis) :
    ∃ l, occurrencesInWindow between a b = .ok l ∧ ∀ o, o ∈ l ↔ o ∈ O ∧ o ∈ Set.Ioc a b := by
  obtain ⟨l, hl⟩ := h.reads a (b + 1) (by omega)
  refine ⟨l, hl, fun o => ?_⟩
  rw [h.mem _ _ _ hl, Set.mem_Ioc, Int.lt_add_one_iff]

end Rrule

section Schedules

variable {lib : RecurrenceLibrary} {kind : ScheduleKind} {s : Schedule}

/-- The occurrences of a cron expression come at the same seconds of every minute it matches. A parsed one
goes back through them, down to one that runs at least, and zones change their offsets on the minute. -/
structure RecurrenceLibrary.ReadsCron (lib : RecurrenceLibrary) (expression tz : String) (O : Set ℤ) : Prop where
  answers : ∃ interval R, lib.parseCron expression tz = .ok interval ∧ interval.Walks R ∧ Patterned windowMillis R ∧
    (∀ t, ∃ o ∈ interval.prev t, o ∈ interval.runs (lib.getUTCOffset tz) R) ∧
    O = interval.runs (lib.getUTCOffset tz) R
  onMinutes : ∀ t, lib.getUTCOffset tz t = lib.getUTCOffset tz (t / windowMillis * windowMillis)

/-- The library reads the expression as the kind says, and `O` are its occurrences. -/
def RecurrenceLibrary.Reads (lib : RecurrenceLibrary) (expression : String) (kind : ScheduleKind) (tz : String)
    (O : Set ℤ) : Prop :=
  match kind with
  | .cron => lib.ReadsCron expression tz O
  | .rrule => ∃ between, lib.parseRule expression tz = .ok between ∧ between.Lists O

/-- The schedule recurs at `O`, read as `kind`: as its row says, or as it is written where the library
refuses the kind on the row. -/
structure Schedule.Recurs (lib : RecurrenceLibrary) (s : Schedule) (kind : ScheduleKind) (O : Set ℤ) : Prop where
  nonempty : assertExpression s.cron = .ok ()
  reads : lib.Reads s.cron kind s.timezone O
  written : kind = s.kind ∨ (isRrule s.cron = true ↔ kind = .rrule) ∧ match s.kind with
    | .cron => ∃ e, lib.parseCron s.cron s.timezone = .error e
    | .rrule => ∃ e, lib.parseRule s.cron s.timezone = .error e

/-- What a pass at `t` finds due: every occurrence of a rule in the window, the latest of a cron expression
where it is in the window. -/
def dueAt (kind : ScheduleKind) (O : Set ℤ) (t : ℤ) : Set ℤ :=
  match kind with
  | .rrule => {o ∈ O | o ∈ Set.Ioc (t - windowMillis) t}
  | .cron => {o | Latest O t o ∧ t - windowMillis < o}

/-- Instants of one minute repeat a local time alike. -/
theorem RecurrenceLibrary.ReadsCron.repeats_minute {expression tz : String} (h : lib.ReadsCron expression tz O) (o : ℤ) :
    repeatsLocalTime (lib.getUTCOffset tz) o = repeatsLocalTime (lib.getUTCOffset tz) (o / windowMillis * windowMillis) := by
  have hsame (k : ℤ) : lib.getUTCOffset tz (o - k * windowMillis) =
      lib.getUTCOffset tz (o / windowMillis * windowMillis - k * windowMillis) := by
    have hminute : (o - k * windowMillis) / windowMillis =
        (o / windowMillis * windowMillis - k * windowMillis) / windowMillis := by
      simp only [windowMillis, occurrenceWindowSeconds]
      omega
    rw [h.onMinutes, hminute, ← h.onMinutes]
  have hback := hsame 180
  have hnow := hsame 0
  have hshift := hsame (lib.getUTCOffset tz (o - 180 * windowMillis) - lib.getUTCOffset tz o)
  have hmillis : (3 * 60 * 60 * 1000 : ℤ) = 180 * windowMillis ∧ ∀ k : ℤ, k * 60 * 1000 = k * windowMillis := by
    refine ⟨rfl, fun k => ?_⟩
    simp only [windowMillis, occurrenceWindowSeconds]
    omega
  rw [zero_mul, Int.sub_zero, Int.sub_zero] at hnow
  simp only [repeatsLocalTime, hmillis.1, hmillis.2]
  rw [hshift, hback, hnow]

/-- The occurrences of a cron expression that run come at the same offsets of every minute too. -/
theorem RecurrenceLibrary.ReadsCron.patterned {expression tz : String} (h : lib.ReadsCron expression tz O) :
    Patterned windowMillis O := by
  obtain ⟨interval, R, -, -, ⟨slots, offsets, hR⟩, -, rfl⟩ := h.answers
  refine ⟨{m ∈ slots | interval.everyHour = true ∨
    repeatsLocalTime (lib.getUTCOffset tz) (m * windowMillis) = false}, offsets, fun o => ?_⟩
  simp only [CronInterval.runs, Set.mem_ofPred_eq, hR, ← h.repeats_minute o]
  tauto

theorem RecurrenceLibrary.ReadsCron.latest {expression tz : String} (h : lib.ReadsCron expression tz O) (t : ℤ) :
    ∃ interval x, lib.parseCron expression tz = .ok interval ∧
      previousOccurrence (lib.getUTCOffset tz) interval (t + 1) = .ok x ∧ Latest O t x := by
  obtain ⟨interval, R, hparse, hwalks, -, hsome, rfl⟩ := h.answers
  obtain ⟨x, hx, hlatest⟩ := previousOccurrence_latest hwalks (hsome (t + 1))
  exact ⟨interval, x, hparse, hx, hlatest⟩

/-- The reading answers with what is due. -/
theorem readOccurrences_spec {expression tz : String} (h : lib.Reads expression kind tz O) (t : ℤ) :
    ∃ l, Timekeeper.readOccurrences lib expression kind tz t = .ok l ∧ ∀ o, o ∈ l ↔ o ∈ dueAt kind O t := by
  cases kind with
  | rrule =>
    obtain ⟨between, hparse, hlists⟩ := h
    obtain ⟨l, hl, hmem⟩ := occurrencesInWindow_spec hlists (a := t - windowMillis) (b := t)
      (by simp only [windowMillis, occurrenceWindowSeconds, stepMillis]; omega)
    refine ⟨l, ?_, hmem⟩
    simp only [Timekeeper.readOccurrences, hparse]
    exact hl
  | cron =>
    obtain ⟨interval, x, hparse, hprevious, hlatest⟩ := RecurrenceLibrary.ReadsCron.latest h t
    by_cases hdue : t - windowMillis < x
    · refine ⟨[x], ?_, fun o => ?_⟩
      · simp only [Timekeeper.readOccurrences, hparse, hprevious, bind, Except.bind, gt_iff_lt, hdue, if_true]
        rfl
      · rw [List.mem_singleton]
        constructor
        · rintro rfl
          exact ⟨hlatest, hdue⟩
        · exact fun ho => ho.1.unique hlatest
    · refine ⟨[], ?_, fun o => ⟨fun hin => absurd hin List.not_mem_nil, fun ho => ?_⟩⟩
      · simp only [Timekeeper.readOccurrences, hparse, hprevious, bind, Except.bind, gt_iff_lt, hdue, if_false]
        rfl
      · exact absurd (ho.1.unique hlatest ▸ ho.2) hdue

/-- The catch-up reading answers with the latest occurrence of its range. -/
theorem latestOccurrenceBefore_spec {expression tz : String} (h : lib.Reads expression kind tz O) (a b : ℤ) :
    ∃ r, Timekeeper.latestOccurrenceBefore lib expression kind tz a b = .ok r ∧
      ∀ x, r = some x ↔ LatestIn O a b x := by
  cases kind with
  | rrule =>
    obtain ⟨between, hparse, hlists⟩ := h
    obtain ⟨r, hr, hspec⟩ := latestRuleOccurrenceBefore_spec hlists a b
    refine ⟨r, ?_, hspec⟩
    simp only [Timekeeper.latestOccurrenceBefore, hparse]
    exact hr
  | cron =>
    obtain ⟨interval, x, hparse, hprevious, hlatest⟩ := RecurrenceLibrary.ReadsCron.latest h b
    by_cases hin : a < x
    · refine ⟨some x, ?_, fun y => ⟨fun hy => Option.some.inj hy ▸ hlatest.in hin, fun hy => ?_⟩⟩
      · simp only [Timekeeper.latestOccurrenceBefore, hparse, hprevious, bind, Except.bind, gt_iff_lt, hin, if_true]
        rfl
      · rw [(hlatest.in hin).unique hy]
    · refine ⟨none, ?_, fun y => ⟨nofun, fun hy => ?_⟩⟩
      · simp only [Timekeeper.latestOccurrenceBefore, hparse, hprevious, bind, Except.bind, gt_iff_lt, hin, if_false]
        rfl
      · exact absurd (hy.1.2.1.trans_le (hlatest.ge hy.1.1 hy.1.2.2)) hin

/-- A pass reads what is due of a schedule that recurs, as the kind it recurs as. -/
theorem dueOccurrences_spec (h : s.Recurs lib kind O) (t : ℤ) : ∃ l,
    Timekeeper.dueOccurrences lib s.cron s.kind s.timezone t = .ok (kind, l) ∧ ∀ o, o ∈ l ↔ o ∈ dueAt kind O t := by
  obtain ⟨l, hl, hmem⟩ := readOccurrences_spec h.reads t
  refine ⟨l, ?_, hmem⟩
  by_cases hkind : kind = s.kind
  · rw [← hkind]
    simp only [Timekeeper.dueOccurrences, h.nonempty, hl, bind, Except.bind]
    rfl
  · obtain ⟨hwritten, hrefused⟩ := h.written.resolve_left hkind
    have hdetected : (if isRrule s.cron then ScheduleKind.rrule else ScheduleKind.cron) = kind := by
      cases kind <;> simp_all
    have herror : ∃ e, Timekeeper.readOccurrences lib s.cron s.kind s.timezone t = .error e := by
      cases hrow : s.kind <;> rw [hrow] at hrefused <;> obtain ⟨e, he⟩ := hrefused <;>
        exact ⟨e, by simp only [Timekeeper.readOccurrences, he]; rfl⟩
    obtain ⟨e, he⟩ := herror
    simp only [Timekeeper.dueOccurrences, h.nonempty, he, hdetected, hkind, hl, bind, Except.bind, if_false]
    rfl

/-- What a pass owes for the gap before the due window, under the policy `once`: the latest occurrence after
the last pass and after the schedule was created. -/
def missedAt (s : Schedule) (O : Set ℤ) (lastPass : Option ℤ) (windowStart : ℤ) : Set ℤ :=
  {x | Timekeeper.missedPolicy s.options = .once ∧ ∃ last, lastPass = some last ∧
    LatestIn O (max last (s.createdOn.getD last)) windowStart x}

theorem missedOccurrence_spec (h : s.Recurs lib kind O) (lastPass : Option ℤ) (windowStart : ℤ) : ∃ r,
    Timekeeper.missedOccurrence lib s kind lastPass windowStart = .ok r ∧
      ∀ x, r = some x ↔ x ∈ missedAt s O lastPass windowStart := by
  cases lastPass with
  | none => exact ⟨none, rfl, fun x => ⟨nofun, fun hx => by obtain ⟨-, last, hlast, -⟩ := hx; contradiction⟩⟩
  | some last =>
    cases hpolicy : Timekeeper.missedPolicy s.options with
    | skip =>
      refine ⟨none, by simp [Timekeeper.missedOccurrence, hpolicy], fun x => ⟨nofun, fun hx => ?_⟩⟩
      exact nomatch hpolicy.symm.trans hx.1
    | once =>
      by_cases hgap : windowStart ≤ max last (s.createdOn.getD last)
      · refine ⟨none, by simp [Timekeeper.missedOccurrence, hpolicy, hgap], fun x => ⟨nofun, fun hx => ?_⟩⟩
        obtain ⟨-, last', hlast, hx⟩ := hx
        obtain rfl := Option.some.inj hlast
        exact absurd (hx.1.2.1.trans_le hx.1.2.2) (not_lt.mpr hgap)
      · obtain ⟨r, hr, hspec⟩ := latestOccurrenceBefore_spec h.reads (max last (s.createdOn.getD last)) windowStart
        refine ⟨r, ?_, fun x => ?_⟩
        · simp only [Timekeeper.missedOccurrence, hpolicy, ge_iff_le, hgap, if_false, reduceCtorEq]
          exact hr
        · rw [hspec x]
          constructor
          · exact fun hx => ⟨hpolicy, last, rfl, hx⟩
          · rintro ⟨-, last', hlast, hx⟩
            exact Option.some.inj hlast ▸ hx

end Schedules

end PgBoss
