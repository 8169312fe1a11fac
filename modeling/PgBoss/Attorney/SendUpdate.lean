import PgBoss.Attorney.Options

/-!
# What `send()` and `update()` accept

The two functions run one list of validators over the options, except that `checkUpdateArgs` leaves
`validateDeletionConfig` out. So they accept the same options up to `deleteAfterSeconds`.
-/

namespace PgBoss

open Ecma

section Checks

variable {c : Coercion} {config : Properties} {condition : Bool} {message : String} {name : String} {value : Value}

@[simp] theorem throws_assertOption : Throws (assertOption condition message) ↔ condition = false := by
  cases condition <;> simp [assertOption]

/-- The options a validator reads. -/
def checkedOptions : List String :=
  ["retryDelay", "retryLimit", "retryBackoff", "retryDelayMax", "expireInSeconds", "retentionSeconds",
    "deleteAfterSeconds", "group", "heartbeatSeconds"]

/-- The validators do not look at the other options. -/
theorem get_set_of_checked {option : String} (hoption : option ∈ checkedOptions) (hname : name ∉ checkedOptions) :
    (config.set name value).get option = config.get option ∧ (config.set name value).has option = config.has option := by
  have hne : option ≠ name := by rintro rfl; exact hname hoption
  exact ⟨Properties.get_set_of_ne hne, Properties.has_set_of_ne hne⟩

section Set

variable (hname : name ∉ checkedOptions)

include hname

theorem validateRetryConfig_set : validateRetryConfig c (config.set name value) = validateRetryConfig c config := by
  simp only [validateRetryConfig, get_set_of_checked (by decide : "retryDelay" ∈ checkedOptions) hname,
    get_set_of_checked (by decide : "retryLimit" ∈ checkedOptions) hname,
    get_set_of_checked (by decide : "retryBackoff" ∈ checkedOptions) hname,
    get_set_of_checked (by decide : "retryDelayMax" ∈ checkedOptions) hname]

theorem validateExpirationConfig_set :
    validateExpirationConfig c (config.set name value) = validateExpirationConfig c config := by
  simp only [validateExpirationConfig, get_set_of_checked (by decide : "expireInSeconds" ∈ checkedOptions) hname]

theorem validateRetentionConfig_set : validateRetentionConfig c (config.set name value) = validateRetentionConfig c config := by
  simp only [validateRetentionConfig, get_set_of_checked (by decide : "retentionSeconds" ∈ checkedOptions) hname]

theorem validateDeletionConfig_set : validateDeletionConfig c (config.set name value) = validateDeletionConfig c config := by
  simp only [validateDeletionConfig, get_set_of_checked (by decide : "deleteAfterSeconds" ∈ checkedOptions) hname]

theorem validateGroupConfig_set : validateGroupConfig (config.set name value) = validateGroupConfig config := by
  simp only [validateGroupConfig, get_set_of_checked (by decide : "group" ∈ checkedOptions) hname]

theorem validateHeartbeatConfig_set : validateHeartbeatConfig c (config.set name value) = validateHeartbeatConfig c config := by
  simp only [validateHeartbeatConfig, get_set_of_checked (by decide : "heartbeatSeconds" ∈ checkedOptions) hname]

end Set

/-- The date of `startAfter` has no text. -/
def invalidDate (config : Properties) : Prop := config.get "startAfter" = .date none

theorem throws_sendStartAfter : Throws (sendStartAfter c (config.get "startAfter")) ↔ invalidDate config := by
  unfold sendStartAfter invalidDate
  cases config.get "startAfter" with
  | date iso => cases iso <;> simp [toISOString, Except.map]
  | undefined | null | boolean | number | function | object => dsimp only; split <;> simp
  | string value => dsimp only; split <;> simp

theorem throws_updateStartAfter : Throws (updateStartAfter c (config.get "startAfter")) ↔ invalidDate config := by
  unfold updateStartAfter invalidDate
  cases config.get "startAfter" with
  | date iso => cases iso <;> simp [toISOString, Except.map]
  | number value => cases value <;> simp
  | undefined | null | boolean | function | object | string => simp

/-- A validator that both functions run refuses an option. -/
def Invalid (c : Coercion) (config : Properties) : Prop :=
  Throws (validateRetryConfig c config) ∨ Throws (validateExpirationConfig c config) ∨
    Throws (validateRetentionConfig c config) ∨ Throws (validateGroupConfig config) ∨
    Throws (validateHeartbeatConfig c config)

/-- An option that both functions check is refused. -/
def RefusedByBoth (c : Coercion) (config : Properties) : Prop :=
  Throws (checkPriority config) ∨ invalidDate config ∨ Invalid c config

end Checks

section Calls

variable {c : Coercion} {upsert : Bool} {args : List Value} {name : String} {data : Value} {o : Properties}

/-- A call with a name, data and an options object, in either form. -/
def CallsWith (args : List Value) (name : String) (data : Value) (o : Properties) : Prop :=
  args = [.string name, data, .object o] ∨
    ∃ job : Properties, args = [.object job] ∧ job.get "name" = .string name ∧ job.get "data" = data ∧
      job.get "options" = .object o

theorem CallsWith.sendArgs (h : CallsWith args name data o) (hdata : data.typeOf ≠ "function") :
    PgBoss.sendArgs args = .ok (.string name, data, .object o) := by
  rcases h with rfl | ⟨job, rfl, hname, hdata, hoptions⟩
  · simp [PgBoss.sendArgs, assertOption, hdata]
  · simp [PgBoss.sendArgs, assertOption, Value.typeOf, Value.truthy, Value.properties, hname, hdata, hoptions]
    rfl

theorem CallsWith.updateArgs (h : CallsWith args name data o) (verb : String) :
    PgBoss.updateArgs verb args = .ok (.string name, data, .object o) := by
  rcases h with rfl | ⟨job, rfl, hname, hdata, hoptions⟩
  · rfl
  · simp [PgBoss.updateArgs, assertOption, Value.typeOf, Value.truthy, Value.properties, hname, hdata, hoptions]
    rfl

/-- `checkSendArgs` refuses the options that a validator refuses. -/
theorem throws_checkSendArgs (h : CallsWith args name data o) (hname : name ≠ "") (hdata : data.typeOf ≠ "function") :
    Throws (checkSendArgs c args) ↔ RefusedByBoth c o ∨ Throws (validateDeletionConfig c o) := by
  have hpriority : "priority" ∉ checkedOptions := by decide
  have hstartAfter : "startAfter" ∉ checkedOptions := by decide
  have hpresent : assertOption (Value.string name).truthy "boss requires all jobs to have a queue name" = .ok () := by
    simp [assertOption, Value.truthy, hname]
  have hobject : assertOption ((orEmpty (.object o)).typeOf = "object") "options should be an object" = .ok () := rfl
  have hoptions : (orEmpty (.object o)).properties = o := rfl
  have hget : ∀ value, (o.set "priority" value).get "startAfter" = o.get "startAfter" :=
    fun _ => Properties.get_set_of_ne (by decide)
  simp only [checkSendArgs, h.sendArgs hdata, ok_bind, hpresent, hobject, hoptions, throws_check, hget]
  rw [throws_bind (Invalid c o ∨ Throws (validateDeletionConfig c o)) fun startAfter => ?_, throws_sendStartAfter,
    RefusedByBoth]
  · tauto
  · simp only [throws_check, validateRetryConfig_set hpriority, validateRetryConfig_set hstartAfter,
      validateExpirationConfig_set hpriority, validateExpirationConfig_set hstartAfter,
      validateRetentionConfig_set hpriority, validateRetentionConfig_set hstartAfter,
      validateDeletionConfig_set hpriority, validateDeletionConfig_set hstartAfter,
      validateGroupConfig_set hpriority, validateGroupConfig_set hstartAfter,
      validateHeartbeatConfig_set hpriority, validateHeartbeatConfig_set hstartAfter, not_throws_pure, Invalid]
    tauto

/-- `checkUpdateArgs` refuses the options that a validator other than `validateDeletionConfig` refuses. -/
theorem throws_checkUpdateArgs (h : CallsWith args name data o) (hname : name ≠ "") (hdata : data.typeOf ≠ "function")
    (htarget : checkTarget (if upsert then "upsert()" else "update()") o = .ok ()) :
    Throws (checkUpdateArgs c upsert args) ↔ RefusedByBoth c o := by
  have hstartAfter : "startAfter" ∉ checkedOptions := by decide
  have hpresent : assertOption (Value.string name).truthy "boss requires all jobs to have a queue name" = .ok () := by
    simp [assertOption, Value.truthy, hname]
  have hpayload : ∀ message, assertOption (data.typeOf ≠ "function") message = .ok () := by
    simp [assertOption, hdata]
  have hoptions : (orEmpty (.object o)).properties = o := rfl
  simp only [checkUpdateArgs, h.updateArgs, ok_bind, hpresent, hpayload, hoptions, htarget, throws_check]
  cases hhas : o.has "startAfter" with
  | false =>
    have hvalid : ¬ invalidDate o := by
      intro hdate
      have hnone : o "startAfter" = none := by simpa [Properties.has] using hhas
      rw [invalidDate, Properties.get, hnone] at hdate
      cases hdate
    simp only [Bool.false_eq_true, if_false, throws_check, not_throws_pure, RefusedByBoth, Invalid]
    tauto
  | true =>
    have hdate : Throws (updateStartAfter c (o.get "startAfter")) ↔ invalidDate o := throws_updateStartAfter
    simp only [if_true]
    cases hresult : updateStartAfter c (o.get "startAfter") with
    | error message =>
      have hinvalid : invalidDate o := hdate.mp (hresult ▸ throws_error message)
      exact ⟨fun _ => .inr (.inl hinvalid), fun _ => .inr (throws_error message)⟩
    | ok startAfter =>
      have hvalid : ¬ invalidDate o := fun hinvalid => not_throws_ok startAfter (hresult ▸ hdate.mpr hinvalid)
      simp only [Except.map, ok_bind, throws_check, validateRetryConfig_set hstartAfter, validateExpirationConfig_set hstartAfter,
        validateRetentionConfig_set hstartAfter, validateGroupConfig_set hstartAfter,
        validateHeartbeatConfig_set hstartAfter, not_throws_pure, RefusedByBoth, Invalid]
      tauto

end Calls

/-- The settings that both payloads carry to their column as the options have them. -/
def sharedSettings : List String :=
  ["priority", "startAfter", "expireInSeconds", "deleteAfterSeconds", "retentionSeconds", "retryLimit", "retryDelay",
    "retryBackoff", "retryDelayMax", "heartbeatSeconds"]

/-- So a setting that only `update()` takes reaches the column that `send()` keeps it from. -/
theorem toUpdatePayload_eq_toJobPayload {field : String} (hshared : field ∈ sharedSettings) (data : Value)
    (o : Properties) : toUpdatePayload data o field = toJobPayload o field := by
  simp only [sharedSettings, List.mem_cons, List.not_mem_nil, or_false] at hshared
  rcases hshared with rfl | rfl | rfl | rfl | rfl | rfl | rfl | rfl | rfl | rfl <;> rfl

/-- For every name, payload and options object, passed in either form with a target that `update()` takes: a job option is
refused by `send()` exactly where it is refused by `update()` or `upsert()`, if and only if `deleteAfterSeconds` is
absent or at least 0, or another option is refused by both. -/
theorem checkArgs_agree_iff (c : Coercion) (upsert : Bool) (args : List Value) (name : String) (data : Value) (o : Properties)
    (hcalls : CallsWith args name data o) (hname : name ≠ "") (hdata : data.typeOf ≠ "function")
    (htarget : checkTarget (if upsert then "upsert()" else "update()") o = .ok ()) :
    (Throws (checkSendArgs c args) ↔ Throws (checkUpdateArgs c upsert args)) ↔
      (o.has "deleteAfterSeconds" = false ∨ c.atLeast (o.get "deleteAfterSeconds") 0 = true) ∨ RefusedByBoth c o := by
  rw [throws_checkSendArgs hcalls hname hdata, throws_checkUpdateArgs hcalls hname hdata htarget, validateDeletionConfig,
    throws_assertOption]
  cases o.has "deleteAfterSeconds" <;> cases c.atLeast (o.get "deleteAfterSeconds") 0 <;> simp

section Witness

/-- Decimal strings read as numbers, and objects as none. -/
def decimalCoercion : Coercion where
  stringToNumber s := (s.toInt?.map fun n => Number.finite n).getD .nan
  objectToNumber _ := .nan
  toText _ := ""

/-- The options `{ id, deleteAfterSeconds }`. -/
def deleteAfterOptions (seconds : ℚ) : Properties := fun option =>
  if option = "id" then some (.string "a7e6f3b2")
  else if option = "deleteAfterSeconds" then some (.number (.finite seconds))
  else none

theorem checkArgs_agree_hour :
    Throws (checkSendArgs decimalCoercion [.string "q", .null, .object (deleteAfterOptions 3600)]) ↔
      Throws (checkUpdateArgs decimalCoercion false [.string "q", .null, .object (deleteAfterOptions 3600)]) :=
  (checkArgs_agree_iff decimalCoercion false _ "q" .null (deleteAfterOptions 3600) (.inl rfl) (by decide) (by decide) rfl).mpr
    (.inl (.inr rfl))

/-- `update()` takes a `deleteAfterSeconds` of -1, which `send()` refuses, and hands it to the column. -/
theorem checkUpdateArgs_takes_negative :
    Throws (checkSendArgs decimalCoercion [.string "q", .null, .object (deleteAfterOptions (-1))]) ∧
      ∃ request, checkUpdateArgs decimalCoercion false [.string "q", .null, .object (deleteAfterOptions (-1))] = .ok request ∧
        toUpdatePayload request.data request.options "deleteAfterSeconds" = some (.number (.finite (-1))) :=
  ⟨⟨_, rfl⟩, _, rfl, rfl⟩

end Witness

end PgBoss
