import PgBoss.Ecma.Dates
import PgBoss.Ecma.OrderedMap
import PgBoss.Ecma.Values
import PgBoss.Timekeeper.Pass

/-!
# The last job of a schedule

The send-it handler forwards a batch of occurrences, and points each schedule it made a job of at that of the
latest slot. Sends that were rejected or dropped leave nothing to point at, and a payload of an older instance
names no slot, for which the current one stands in.
-/

namespace PgBoss

open Ecma

/-- The payload of a send-it job, as whichever instance inserted it wrote it. -/
structure ScheduledPayload where
  name : String
  key : Option String
  slot : Option String
  data : Value
  options : Option Properties

/-- A request to `send()`. -/
structure SendRequest where
  name : String
  data : Value
  options : Properties

/-- What is left of the payload without the pass's own fields, and without the connection of an old row. -/
def ScheduledPayload.request (p : ScheduledPayload) : SendRequest where
  name := p.name
  data := p.data
  options option := if option = "db" then none else p.options.bind fun options => options option

/-- Why a send was rejected. -/
inductive Rejection
  | malformed
  | send (message : String)
  deriving DecidableEq

/-- How a send settled. -/
inductive SendResult
  | rejected (reason : Rejection)
  | fulfilled (value : Option String)

/-- A job of the batch, how its send ended, and what the clock reads when the handler comes to it. -/
structure SettledSend where
  data : Option ScheduledPayload
  result : SendResult
  databaseTime : ℤ

/-- `FiredSchedule`. -/
structure FiredSchedule where
  name : String
  key : String
  jobId : String
  deriving DecidableEq

/-- A record, and the slot its occurrence was filed in. -/
structure Fired where
  record : FiredSchedule
  slot : String

/-- The reason the handler reports. -/
def SettledSend.rejection (s : SettledSend) : Option Rejection :=
  match s.result with
  | .rejected reason => some reason
  | .fulfilled _ => none

namespace Timekeeper

/-- `text.replace('T', ' ')`. -/
def replaceT : List Char → List Char
  | [] => []
  | c :: rest => if c = 'T' then ' ' :: rest else c :: replaceT rest

/-- `throttleSlot`, as the text a payload carries. -/
def throttleSlotText (instant : ℤ) : String :=
  String.ofList ((replaceT (Date.toISOString (instant / windowMillis * windowMillis)).toList).take 19)

/-- A send of the batch. A payload that is not an object rejects its own. -/
def settle (send : ℕ → SendRequest → SendResult) (clock : ℕ → ℤ) (index : ℕ) (data : Option ScheduledPayload) : SettledSend where
  data := data
  result := match data with
    | some payload => send index payload.request
    | none => .rejected .malformed
  databaseTime := clock index

/-- What the loop of `onSendIt` does with a settlement. -/
def fire (fired : OrderedMap String Fired) (s : SettledSend) : OrderedMap String Fired :=
  match s.result, s.data with
  | .fulfilled (some jobId), some ⟨name, some key, slot, _, _⟩ =>
    let id := jsonPair name key
    let filed := slot.getD (throttleSlotText s.databaseTime)
    match fired.get id with
    | none => fired.set id ⟨⟨name, key, jobId⟩, filed⟩
    | some latest => if textLE latest.slot filed then fired.set id ⟨⟨name, key, jobId⟩, filed⟩ else fired
  | _, _ => fired

/-- The records of a batch. -/
def records (settlements : List SettledSend) : List FiredSchedule :=
  (settlements.foldl fire .empty).entries.map fun e => e.2.record

/-- `onSendIt`: what it reports, and the records it hands to `setLastJobIds` if there are any. -/
def onSendIt (send : ℕ → SendRequest → SendResult) (clock : ℕ → ℤ) (jobs : List (Option ScheduledPayload)) :
    List Rejection × Option (List FiredSchedule) :=
  let settlements := jobs.mapIdx (settle send clock)
  (settlements.filterMap SettledSend.rejection, if records settlements = [] then none else some (records settlements))

section Slots

open Date

theorem replaceT_of_ne {c : Char} (h : c ≠ 'T') (rest : List Char) : replaceT (c :: rest) = c :: replaceT rest := by
  rw [replaceT, if_neg h]

theorem replaceT_digit (n : ℕ) (rest : List Char) : replaceT (digit (n % 10) :: rest) = digit (n % 10) :: replaceT rest := by
  have hlt : n % 10 < 10 := Nat.mod_lt n (by decide)
  refine replaceT_of_ne ?_ rest
  interval_cases n % 10 <;> decide

theorem replaceT_dash (rest : List Char) : replaceT ('-' :: rest) = '-' :: replaceT rest := replaceT_of_ne (by decide) rest

theorem replaceT_T (rest : List Char) : replaceT ('T' :: rest) = ' ' :: rest := rfl

theorem padStart_two {n : ℕ} (h : n < 100) : padStart 2 n = [digit (n / 10 % 10), digit (n % 10)] := by
  have hzero : n / 10 / 10 = 0 := by omega
  simp [padStart, hzero]

theorem padStart_four {n : ℕ} (h : n < 10000) :
    padStart 4 n = [digit (n / 10 / 10 / 10 % 10), digit (n / 10 / 10 % 10), digit (n / 10 % 10), digit (n % 10)] := by
  have hzero : n / 10 / 10 / 10 / 10 = 0 := by omega
  simp [padStart, hzero]

/-- The start of a minute is of the year of its instants. -/
theorem year_minute (a : ℤ) : (fields (a / windowMillis * windowMillis)).year = (fields a).year := by
  have hday : a / windowMillis * windowMillis / dayMillis = a / dayMillis := by
    simp only [windowMillis, occurrenceWindowSeconds, dayMillis]; omega
  simp only [fields, hday]

/-- The text is that of the minute's start to the second, with a blank between its date and its time. -/
theorem throttleSlotText_eq {a : ℤ} (h : FourDigitYear a) :
    throttleSlotText a = String.ofList (secondText ' ' (fields (a / windowMillis * windowMillis))) := by
  have hyear : FourDigitYear (a / windowMillis * windowMillis) := by rwa [FourDigitYear, year_minute]
  have hwidth := inWidth_fields hyear
  have hfour : (fields (a / windowMillis * windowMillis)).year.toNat < 10000 := by have := hwidth.year; omega
  rw [throttleSlotText, Date.toISOString, String.toList_ofList]
  simp only [secondText, yearText, hwidth.year, and_self, if_true, padStart_four hfour, padStart_two hwidth.month,
    padStart_two hwidth.day, padStart_two hwidth.hour, padStart_two hwidth.minute, padStart_two hwidth.second,
    List.cons_append, List.nil_append, replaceT_digit, replaceT_dash, replaceT_T]
  rfl

example : throttleSlotText 1709210096789 = "2024-02-29 12:34:00" := by decide

/-- Slots are in the order of their texts. -/
theorem throttleSlotText_le_iff {a b : ℤ} (ha : FourDigitYear a) (hb : FourDigitYear b) :
    textLE (throttleSlotText a) (throttleSlotText b) = true ↔ Timekeeper.throttleSlot a ≤ Timekeeper.throttleSlot b := by
  have hlt : ∀ {a b : ℤ}, FourDigitYear a → FourDigitYear b → a / windowMillis < b / windowMillis →
      codeUnits (throttleSlotText a) < codeUnits (throttleSlotText b) := by
    intro a b ha hb hab
    rw [throttleSlotText_eq ha, throttleSlotText_eq hb, codeUnits, codeUnits, String.toList_ofList, String.toList_ofList]
    have hyear : ∀ {t}, FourDigitYear t → FourDigitYear (t / windowMillis * windowMillis) := fun h => by
      rwa [FourDigitYear, year_minute]
    refine units_secondText_lt (inWidth_fields (hyear ha)) (inWidth_fields (hyear hb)) (before_of_lt ?_)
    simp only [windowMillis, occurrenceWindowSeconds] at hab ⊢
    omega
  rw [textLE_iff]
  rcases lt_trichotomy (a / windowMillis) (b / windowMillis) with h | h | h
  · refine iff_of_true (hlt ha hb h).le ?_
    change a / windowMillis * windowMillis * 1000 ≤ b / windowMillis * windowMillis * 1000
    simp only [windowMillis, occurrenceWindowSeconds] at h ⊢
    omega
  · rw [throttleSlotText, throttleSlotText, Timekeeper.throttleSlot, Timekeeper.throttleSlot, h]
    exact iff_of_true le_rfl le_rfl
  · refine iff_of_false (hlt hb ha h).not_ge ?_
    change ¬ a / windowMillis * windowMillis * 1000 ≤ b / windowMillis * windowMillis * 1000
    simp only [windowMillis, occurrenceWindowSeconds] at h ⊢
    omega

end Slots

/-- The send a settlement made a job of a schedule with, if it did. -/
def sent (s : SettledSend) : Option Fired :=
  match s.result, s.data with
  | .fulfilled (some jobId), some ⟨name, some key, slot, _, _⟩ =>
    some ⟨⟨name, key, jobId⟩, slot.getD (throttleSlotText s.databaseTime)⟩
  | _, _ => none

theorem sent_eq_some {s : SettledSend} {f : Fired} :
    sent s = some f ↔ ∃ payload key jobId, s.data = some payload ∧ payload.key = some key ∧ s.result = .fulfilled (some jobId) ∧
      f = ⟨⟨payload.name, key, jobId⟩, payload.slot.getD (throttleSlotText s.databaseTime)⟩ := by
  constructor
  · intro h
    obtain ⟨data, result, databaseTime⟩ := s
    rcases result with _ | (_ | jobId)
    · cases h
    · cases h
    · rcases data with _ | ⟨name, _ | key, slot, data, options⟩
      · cases h
      · cases h
      · exact ⟨_, key, jobId, rfl, rfl, rfl, (Option.some.inj h).symm⟩
  · rintro ⟨⟨name, _, slot, data, options⟩, key, jobId, hdata, rfl, hresult, rfl⟩
    rw [sent, hdata, hresult]

/-- What was sent: a job of the batch that names a schedule, and the send of its request made a job. -/
theorem mem_sends {send : ℕ → SendRequest → SendResult} {clock : ℕ → ℤ} {jobs : List (Option ScheduledPayload)} {f : Fired} :
    f ∈ (jobs.mapIdx (settle send clock)).filterMap sent ↔
      ∃ i payload key jobId, jobs[i]? = some (some payload) ∧ payload.key = some key ∧
        send i payload.request = .fulfilled (some jobId) ∧
        f = ⟨⟨payload.name, key, jobId⟩, payload.slot.getD (throttleSlotText (clock i))⟩ := by
  rw [List.mem_filterMap]
  constructor
  · rintro ⟨s, hs, hsent⟩
    obtain ⟨i, hi, rfl⟩ := List.mem_mapIdx.mp hs
    obtain ⟨payload, key, jobId, hdata, hkey, hresult, rfl⟩ := sent_eq_some.mp hsent
    have hjob : jobs[i]? = some (some payload) := List.getElem?_eq_some_iff.mpr ⟨hi, hdata⟩
    refine ⟨i, payload, key, jobId, hjob, hkey, ?_, rfl⟩
    simpa only [settle, show jobs[i] = some payload from hdata] using hresult
  · rintro ⟨i, payload, key, jobId, hjob, hkey, hsend, rfl⟩
    obtain ⟨hi, hjob⟩ := List.getElem?_eq_some_iff.mp hjob
    exact ⟨_, List.mem_mapIdx.mpr ⟨i, hi, congrArg _ hjob⟩, sent_eq_some.mpr ⟨payload, key, jobId, rfl, hkey, hsend, rfl⟩⟩

/-- The key of a send in the map. -/
def mapKey (f : Fired) : String := jsonPair f.record.name f.record.key

/-- Two sends are of one schedule. -/
def SameSchedule (f g : Fired) : Prop := f.record.name = g.record.name ∧ f.record.key = g.record.key

theorem mapKey_eq_iff {f g : Fired} : mapKey f = mapKey g ↔ SameSchedule f g := jsonPair_inj

/-- A send in the map, unless one of a later slot is there. -/
def file (fired : OrderedMap String Fired) (f : Fired) : OrderedMap String Fired :=
  match fired.get (mapKey f) with
  | none => fired.set (mapKey f) f
  | some latest => if textLE latest.slot f.slot then fired.set (mapKey f) f else fired

/-- The loop files what was sent, and leaves the map alone otherwise. -/
theorem fire_eq (fired : OrderedMap String Fired) (s : SettledSend) : fire fired s = (sent s).elim fired (file fired) := by
  obtain ⟨data, result, databaseTime⟩ := s
  rcases result with _ | (_ | jobId)
  · rfl
  · rfl
  · rcases data with _ | ⟨name, _ | key, slot, data, options⟩
    · rfl
    · rfl
    · rfl

theorem foldl_fire (fired : OrderedMap String Fired) (settlements : List SettledSend) :
    settlements.foldl fire fired = (settlements.filterMap sent).foldl file fired := by
  induction settlements generalizing fired with
  | nil => rfl
  | cons s rest ih =>
    rw [List.foldl_cons, ih, fire_eq]
    cases h : sent s with
    | none => rw [List.filterMap_cons_none h]; rfl
    | some f => rw [List.filterMap_cons_some h]; rfl

section Latest

variable {sends : List Fired} {f g : Fired} {fired : OrderedMap String Fired}

/-- The last of the sends of its schedule that have the greatest slot. -/
def LastOfGreatest (sends : List Fired) (f : Fired) : Prop :=
  ∃ before after, sends = before ++ f :: after ∧ (∀ g ∈ before, SameSchedule g f → textLE g.slot f.slot = true) ∧
    ∀ g ∈ after, SameSchedule g f → ¬ textLE f.slot g.slot = true

theorem LastOfGreatest.mem (h : LastOfGreatest sends f) : f ∈ sends := by
  obtain ⟨before, after, rfl, -, -⟩ := h
  simp

theorem LastOfGreatest.greatest (h : LastOfGreatest sends f) (hg : g ∈ sends) (hsame : SameSchedule g f) :
    textLE g.slot f.slot = true := by
  obtain ⟨before, after, rfl, hbefore, hafter⟩ := h
  rcases List.mem_append.mp hg with hg | hg
  · exact hbefore g hg hsame
  · rcases List.mem_cons.mp hg with rfl | hg
    · exact textLE_refl
    · exact textLE_of_not (hafter g hg hsame)

/-- A send that is not later leaves the one it was. -/
theorem LastOfGreatest.append (h : LastOfGreatest sends f) (hg : SameSchedule g f → ¬ textLE f.slot g.slot = true) :
    LastOfGreatest (sends ++ [g]) f := by
  obtain ⟨before, after, rfl, hbefore, hafter⟩ := h
  refine ⟨before, after ++ [g], by simp, hbefore, fun g' hg' hsame => ?_⟩
  rcases List.mem_append.mp hg' with hg' | hg'
  · exact hafter g' hg' hsame
  · obtain rfl := List.mem_singleton.mp hg'
    exact hg hsame

/-- The map holds, for each schedule of the sends and no other, the last of its greatest. -/
structure Tracks (fired : OrderedMap String Fired) (sends : List Fired) : Prop where
  entry : ∀ {k f}, (k, f) ∈ fired.entries → k = mapKey f ∧ LastOfGreatest sends f
  covers : ∀ {g}, g ∈ sends → ∃ f, (mapKey g, f) ∈ fired.entries

theorem Tracks.set (h : Tracks fired sends) (hf : ∀ g ∈ sends, SameSchedule g f → textLE g.slot f.slot = true) :
    Tracks (fired.set (mapKey f) f) (sends ++ [f]) where
  entry {k g} hmem := by
    rcases OrderedMap.mem_set.mp hmem with heq | ⟨hold, hne⟩
    · obtain ⟨rfl, rfl⟩ := Prod.mk.inj heq
      exact ⟨rfl, sends, [], rfl, hf, by simp⟩
    · obtain ⟨rfl, hlast⟩ := h.entry hold
      exact ⟨rfl, hlast.append fun hsame => absurd (mapKey_eq_iff.mpr hsame).symm hne⟩
  covers {g} hg := by
    by_cases hkey : mapKey g = mapKey f
    · exact ⟨f, OrderedMap.mem_set.mpr (.inl (by rw [hkey]))⟩
    · rcases List.mem_append.mp hg with hg | hg
      · obtain ⟨latest, hlatest⟩ := h.covers hg
        exact ⟨latest, OrderedMap.mem_set.mpr (.inr ⟨hlatest, hkey⟩)⟩
      · exact absurd (congrArg mapKey (List.mem_singleton.mp hg)) hkey

theorem Tracks.file (h : Tracks fired sends) (f : Fired) : Tracks (file fired f) (sends ++ [f]) := by
  unfold Timekeeper.file
  cases hget : fired.get (mapKey f) with
  | none =>
    refine h.set fun g hg hsame => ?_
    obtain ⟨latest, hlatest⟩ := h.covers hg
    rw [mapKey_eq_iff.mpr hsame] at hlatest
    exact absurd hlatest (OrderedMap.get_eq_none_iff.mp hget latest)
  | some latest =>
    obtain ⟨hkey, hlast⟩ := h.entry (OrderedMap.get_eq_some_iff.mp hget)
    have hsame : SameSchedule f latest := mapKey_eq_iff.mp hkey
    have hof : ∀ {g}, SameSchedule g f → SameSchedule g latest := fun hg => ⟨hg.1.trans hsame.1, hg.2.trans hsame.2⟩
    dsimp only
    split_ifs with hle
    · exact h.set fun g hg hgf => textLE_trans (hlast.greatest hg (hof hgf)) hle
    · refine ⟨fun {k g} hmem => ?_, fun {g} hg => ?_⟩
      · obtain ⟨rfl, hlast'⟩ := h.entry hmem
        refine ⟨rfl, hlast'.append fun hfg => ?_⟩
        obtain rfl : g = latest :=
          OrderedMap.entry_unique hmem (mapKey_eq_iff.mpr hfg ▸ OrderedMap.get_eq_some_iff.mp hget)
        exact hle
      · rcases List.mem_append.mp hg with hg | hg
        · exact h.covers hg
        · obtain rfl := List.mem_singleton.mp hg
          exact ⟨latest, OrderedMap.get_eq_some_iff.mp hget⟩

theorem tracks_foldl (h : Tracks fired sends) (later : List Fired) :
    Tracks (later.foldl Timekeeper.file fired) (sends ++ later) := by
  induction later generalizing fired sends with
  | nil => simpa using h
  | cons f rest ih => simpa using ih (h.file f)

theorem tracks_fire (settlements : List SettledSend) :
    Tracks (settlements.foldl fire .empty) (settlements.filterMap sent) := by
  have hempty : Tracks .empty [] := ⟨fun h => (nomatch h), fun h => (nomatch h)⟩
  rw [foldl_fire]
  exact tracks_foldl hempty _

theorem mem_records {settlements : List SettledSend} {r : FiredSchedule} :
    r ∈ records settlements ↔ ∃ f, (mapKey f, f) ∈ (settlements.foldl fire .empty).entries ∧ f.record = r := by
  simp only [records, List.mem_map, Prod.exists]
  constructor
  · rintro ⟨k, f, hmem, rfl⟩
    exact ⟨f, ((tracks_fire settlements).entry hmem).1 ▸ hmem, rfl⟩
  · rintro ⟨f, hmem, rfl⟩
    exact ⟨_, f, hmem, rfl⟩

/-- A schedule has one record. -/
theorem nodup_records (settlements : List SettledSend) : ((records settlements).map fun r => (r.name, r.key)).Nodup := by
  have hkeys : (settlements.foldl fire .empty).entries.map Prod.fst =
      ((records settlements).map fun r => (r.name, r.key)).map fun schedule => jsonPair schedule.1 schedule.2 := by
    rw [records, List.map_map, List.map_map]
    exact List.map_congr_left fun e he => ((tracks_fire settlements).entry (f := e.2) he).1
  exact List.Nodup.of_map _ (hkeys ▸ (settlements.foldl fire .empty).nodup)

theorem record_greatest {settlements : List SettledSend} {r : FiredSchedule} (hr : r ∈ records settlements) :
    ∃ f ∈ settlements.filterMap sent, f.record = r ∧
      ∀ g ∈ settlements.filterMap sent, SameSchedule g f → textLE g.slot f.slot = true := by
  obtain ⟨f, hmem, rfl⟩ := mem_records.mp hr
  have hlast := ((tracks_fire settlements).entry hmem).2
  exact ⟨f, hlast.mem, rfl, fun g hg hsame => hlast.greatest hg hsame⟩

theorem record_of_sent {settlements : List SettledSend} (hg : g ∈ settlements.filterMap sent) :
    ∃ r ∈ records settlements, r.name = g.record.name ∧ r.key = g.record.key := by
  obtain ⟨f, hmem⟩ := (tracks_fire settlements).covers hg
  have hkey := ((tracks_fire settlements).entry hmem).1
  obtain ⟨hname, hof⟩ := mapKey_eq_iff.mp hkey
  exact ⟨f.record, mem_records.mpr ⟨f, hkey ▸ hmem, rfl⟩, hname.symm, hof.symm⟩

/-- The records are those of the batch without its rejected sends. -/
theorem records_filter (settlements : List SettledSend) :
    records (settlements.filter fun s => s.rejection.isNone) = records settlements := by
  have hsent : (settlements.filter fun s => s.rejection.isNone).filterMap sent = settlements.filterMap sent := by
    rw [List.filterMap_filter]
    refine List.filterMap_congr fun s _ => ?_
    obtain ⟨data, reason | value, databaseTime⟩ := s <;> rfl
  rw [records, records, foldl_fire, foldl_fire, hsent]

end Latest

section Table

/-- A row of the schedule table, as far as the statement goes. -/
structure ScheduleRow where
  name : String
  key : Option String
  lastJobId : Option String

/-- A record joins a row. -/
def joins (r : FiredSchedule) (row : ScheduleRow) : Prop := row.name = r.name ∧ row.key.getD "" = r.key

/-- `setScheduleLastJobIds` on a row, which takes the job of any record that joins it. -/
def setScheduleLastJobIds (fired : List FiredSchedule) (row row' : ScheduleRow) : Prop :=
  (∃ r ∈ fired, joins r row ∧ row' = { row with lastJobId := some r.jobId }) ∨
    (∀ r ∈ fired, ¬ joins r row) ∧ row' = row

/-- Where a schedule has one record at most, a row has one outcome. -/
theorem setScheduleLastJobIds_unique {fired : List FiredSchedule} (h : (fired.map fun r => (r.name, r.key)).Nodup)
    {row a b : ScheduleRow} (ha : setScheduleLastJobIds fired row a) (hb : setScheduleLastJobIds fired row b) : a = b := by
  rcases ha with ⟨r, hr, hjoins, rfl⟩ | ⟨hnone, rfl⟩ <;> rcases hb with ⟨r', hr', hjoins', rfl⟩ | ⟨hnone', rfl⟩
  · obtain rfl : r = r' := List.inj_on_of_nodup_map h hr hr'
      (Prod.ext (hjoins.1.symm.trans hjoins'.1) (hjoins.2.symm.trans hjoins'.2))
    rfl
  · exact absurd hjoins (hnone' r hr)
  · exact absurd hjoins' (hnone r' hr')
  · rfl

end Table

/-- Whatever the batch, its order and how its sends settle: a send counts if it made a job of an occurrence that names a
schedule, in the slot of its payload or, without one, of the clock; a schedule is recorded once if a send made a job of it, and
else not; the record is the job of a send whose slot is the greatest of those, as a text and, where the slots are of
instants, in time; the statement then gives every row the one outcome that this says; and the rejected sends
change nothing. -/
theorem onSendIt_names_latest (send : ℕ → SendRequest → SendResult) (clock : ℕ → ℤ) (jobs : List (Option ScheduledPayload)) :
    let settlements := jobs.mapIdx (settle send clock)
    let sends := settlements.filterMap sent
    let recorded := (onSendIt send clock jobs).2.getD []
    (∀ f, f ∈ sends ↔ ∃ i payload key jobId, jobs[i]? = some (some payload) ∧ payload.key = some key ∧
      send i payload.request = .fulfilled (some jobId) ∧
      f = ⟨⟨payload.name, key, jobId⟩, payload.slot.getD (throttleSlotText (clock i))⟩) ∧
      (recorded.map fun r => (r.name, r.key)).Nodup ∧
      (∀ g ∈ sends, ∃ r ∈ recorded, r.name = g.record.name ∧ r.key = g.record.key) ∧
      (∀ r ∈ recorded, ∃ f ∈ sends, f.record = r ∧ ∀ g ∈ sends, SameSchedule g f → textLE g.slot f.slot = true ∧
        ∀ a b, Date.FourDigitYear a → Date.FourDigitYear b → f.slot = throttleSlotText a → g.slot = throttleSlotText b →
          Timekeeper.throttleSlot b ≤ Timekeeper.throttleSlot a) ∧
      (∀ row, ∃ row', (∀ after, setScheduleLastJobIds recorded row after ↔ after = row') ∧
        ((∀ g ∈ sends, ¬ joins g.record row) ∧ row' = row ∨
          ∃ f ∈ sends, joins f.record row ∧ row' = { row with lastJobId := some f.record.jobId } ∧
            ∀ g ∈ sends, joins g.record row → textLE g.slot f.slot = true)) ∧
      records (settlements.filter fun s => s.rejection.isNone) = recorded := by
  intro settlements sends recorded
  have hrecorded : recorded = records settlements := by
    simp only [recorded, onSendIt]
    split_ifs with h
    · exact h.symm
    · rfl
  have hnodup : (recorded.map fun r => (r.name, r.key)).Nodup := hrecorded ▸ nodup_records settlements
  have hof : ∀ {g : Fired} {r : FiredSchedule} {row : ScheduleRow}, r.name = g.record.name ∧ r.key = g.record.key →
      (joins g.record row ↔ joins r row) := by
    rintro g r row ⟨hname, hkey⟩
    rw [joins, joins, hname, hkey]
  refine ⟨fun f => mem_sends, hnodup, fun g hg => hrecorded ▸ record_of_sent hg, fun r hr => ?_, fun row => ?_, ?_⟩
  · obtain ⟨f, hf, hrecord, hgreatest⟩ := record_greatest (hrecorded ▸ hr)
    refine ⟨f, hf, hrecord, fun g hg hsame => ⟨hgreatest g hg hsame, fun a b ha hb hfa hgb => ?_⟩⟩
    rw [← throttleSlotText_le_iff hb ha, ← hfa, ← hgb]
    exact hgreatest g hg hsame
  · by_cases hjoined : ∃ r ∈ recorded, joins r row
    · obtain ⟨r, hr, hjoins⟩ := hjoined
      have hset : setScheduleLastJobIds recorded row { row with lastJobId := some r.jobId } := .inl ⟨r, hr, hjoins, rfl⟩
      obtain ⟨f, hf, rfl, hgreatest⟩ := record_greatest (hrecorded ▸ hr)
      refine ⟨_, fun after => ⟨fun h => setScheduleLastJobIds_unique hnodup h hset, fun h => h ▸ hset⟩,
        .inr ⟨f, hf, hjoins, rfl, fun g hg hg' => hgreatest g hg ?_⟩⟩
      exact ⟨hg'.1.symm.trans hjoins.1, hg'.2.symm.trans hjoins.2⟩
    · have hnone : ∀ r ∈ recorded, ¬ joins r row := fun r hr hjoins => hjoined ⟨r, hr, hjoins⟩
      have hset : setScheduleLastJobIds recorded row row := .inr ⟨hnone, rfl⟩
      refine ⟨row, fun after => ⟨fun h => setScheduleLastJobIds_unique hnodup h hset, fun h => h ▸ hset⟩,
        .inl ⟨fun g hg hjoins => ?_, rfl⟩⟩
      obtain ⟨r, hr, hschedule⟩ := record_of_sent hg
      exact hnone r (hrecorded ▸ hr) ((hof hschedule).mp hjoins)
  · rw [hrecorded, records_filter]

-- two schedules mixed and out of order, with a malformed payload, a rejected send, one that made no job, and an older
-- instance's payload: the later job of the two of 12:00 is the last of `hourly`, and that of the clock's minute of `daily`
example :
    let payload (name : String) (slot : Option String) : Option ScheduledPayload := some ⟨name, some "", slot, .undefined, none⟩
    let send (index : ℕ) (_ : SendRequest) : SendResult :=
      if index = 4 then .rejected (.send "connection lost")
      else .fulfilled (if index = 7 then none else some (String.ofList [Date.digit index]))
    onSendIt send (fun _ => 1709210096789)
      [payload "hourly" (some "2024-02-29 12:00:00"), payload "daily" (some "2024-02-29 00:00:00"), none,
        payload "hourly" (some "2024-02-29 11:00:00"), payload "hourly" (some "2024-02-29 13:00:00"),
        payload "hourly" (some "2024-02-29 12:00:00"), payload "daily" none, payload "daily" (some "2024-03-01 00:00:00")] =
      ([.malformed, .send "connection lost"], some [⟨"hourly", "", "5"⟩, ⟨"daily", "", "6"⟩]) := by decide

end Timekeeper

end PgBoss
