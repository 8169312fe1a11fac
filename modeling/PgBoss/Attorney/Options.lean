import PgBoss.Ecma.Values

/-!
# The options of a job

`checkSendArgs` and `checkUpdateArgs`, with the validators they share, and the payloads that `send()` and
`update()` make of the options they let pass. An option may hold any value. What throws is a message: an
assertion's, or a `RangeError`'s where an invalid date is turned into text.
-/

namespace PgBoss

open Ecma

/-- `assert`. -/
def assertOption (condition : Bool) (message : String) : Except String Unit :=
  if condition then .ok () else .error message

/-- What the two functions return. -/
structure OptionsRequest where
  name : Value
  data : Value
  options : Properties

/-- `POLICY.MAX_EXPIRATION_HOURS`. -/
def maxExpirationHours : ℚ := 24

section Validators

variable (c : Coercion) (config : Properties)

/-- `validateRetryConfig`. -/
def validateRetryConfig : Except String Unit := do
  assertOption (!config.has "retryDelay" || ((config.get "retryDelay").isInteger && c.atLeast (config.get "retryDelay") 0))
    "retryDelay must be an integer >= 0"
  assertOption (!config.has "retryLimit" || ((config.get "retryLimit").isInteger && c.atLeast (config.get "retryLimit") 0))
    "retryLimit must be an integer >= 0"
  assertOption (!config.has "retryBackoff" || (match config.get "retryBackoff" with | .boolean _ => true | _ => false))
    "retryBackoff must be either true or false"
  assertOption (!config.has "retryDelayMax" || (config.get "retryDelayMax").isNull ||
      (match config.get "retryBackoff" with | .boolean true => true | _ => false))
    "retryDelayMax can only be set if retryBackoff is true"
  assertOption (!config.has "retryDelayMax" || (config.get "retryDelayMax").isNull ||
      ((config.get "retryDelayMax").isInteger && c.atLeast (config.get "retryDelayMax") 0))
    "retryDelayMax must be an integer >= 0"

/-- `config.expireInSeconds / 60 / 60 <= POLICY.MAX_EXPIRATION_HOURS`. -/
def withinExpiration (value : Value) : Bool := c.atMost value (maxExpirationHours * 60 * 60)

/-- `validateExpirationConfig`. -/
def validateExpirationConfig : Except String Unit := do
  assertOption (!config.has "expireInSeconds" || c.atLeast (config.get "expireInSeconds") 1)
    "configuration assert: expireInSeconds must be at least every second"
  assertOption (!(config.get "expireInSeconds").truthy || withinExpiration c (config.get "expireInSeconds"))
    "configuration assert: expiration cannot exceed 24 hours"

/-- `validateRetentionConfig`. -/
def validateRetentionConfig : Except String Unit :=
  assertOption (!config.has "retentionSeconds" || c.atLeast (config.get "retentionSeconds") 1)
    "configuration assert: retentionSeconds must be at least every second"

/-- `validateDeletionConfig`. -/
def validateDeletionConfig : Except String Unit :=
  assertOption (!config.has "deleteAfterSeconds" || c.atLeast (config.get "deleteAfterSeconds") 0)
    "configuration assert: deleteAfterSeconds must be at least 0 (0 disables deletion)"

/-- A non-empty string. -/
def nonEmptyString : Value → Bool
  | .string value => decide (value ≠ "")
  | _ => false

/-- `validateGroupConfig`. -/
def validateGroupConfig : Except String Unit :=
  if !config.has "group" || (config.get "group").isUndefined || (config.get "group").isNull then .ok ()
  else do
    let group := (config.get "group").properties
    assertOption ((config.get "group").typeOf = "object") "group must be an object"
    assertOption (nonEmptyString (group.get "id")) "group.id must be a non-empty string"
    assertOption (!group.has "tier" || nonEmptyString (group.get "tier"))
      "group.tier must be a non-empty string if provided"

/-- `validateHeartbeatConfig`. -/
def validateHeartbeatConfig : Except String Unit :=
  assertOption (!config.has "heartbeatSeconds" || (config.get "heartbeatSeconds").isNull ||
      ((config.get "heartbeatSeconds").isInteger && c.atLeast (config.get "heartbeatSeconds") 10))
    "heartbeatSeconds must be an integer >= 10"

/-- The check of `priority`. -/
def checkPriority : Except String Unit :=
  assertOption (!config.has "priority" || (config.get "priority").isInteger) "priority must be an integer"

end Validators

section StartAfter

/-- `\d`. -/
def isDigit (c : Char) : Bool := decide ('0' ≤ c) && decide (c ≤ '9')

/-- `ISO_DATE`. -/
def isoDate (value : List Char) : Bool :=
  match value with
  | y₁ :: y₂ :: y₃ :: y₄ :: '-' :: m₁ :: m₂ :: '-' :: d₁ :: d₂ :: _ => [y₁, y₂, y₃, y₄, m₁, m₂, d₁, d₂].all isDigit
  | _ => false

/-- The last groups of `ZONELESS_TIME`: `[.,]\d+`, or nothing. -/
def zonelessFraction : List Char → Bool
  | [] => true
  | mark :: digit :: rest => (mark = '.' || mark = ',') && (digit :: rest).all isDigit
  | _ => false

/-- `ZONELESS_TIME`. -/
def zonelessTime : List Char → Bool
  | [] => true
  | [t, h₁, h₂] => (t = 'T' || t = ' ') && [h₁, h₂].all isDigit
  | [t, h₁, h₂, ':', m₁, m₂] => (t = 'T' || t = ' ') && [h₁, h₂, m₁, m₂].all isDigit
  | t :: h₁ :: h₂ :: ':' :: m₁ :: m₂ :: ':' :: s₁ :: s₂ :: rest =>
    (t = 'T' || t = ' ') && [h₁, h₂, m₁, m₂, s₁, s₂].all isDigit && zonelessFraction rest
  | _ => false

/-- `pinZonelessDateTime`. -/
def pinZonelessDateTime (value : String) : String :=
  if isoDate value.toList && zonelessTime (value.toList.drop 10) then value ++ "Z" else value

/-- `Date.prototype.toISOString`. -/
def toISOString : Option String → Except String String
  | some iso => .ok iso
  | none => .error "Invalid time value"

variable (c : Coercion)

/-- What `checkSendArgs` makes of `startAfter`. -/
def sendStartAfter (value : Value) : Except String Value :=
  match value with
  | .date iso => (toISOString iso).map .string
  | value =>
    if c.isPositive value then .ok (.string (c.toText value))
    else
      match value with
      | .string value => .ok (.string (pinZonelessDateTime value))
      | _ => .ok .undefined

/-- What `checkUpdateArgs` makes of a `startAfter`. -/
def updateStartAfter (value : Value) : Except String Value :=
  match value with
  | .date iso => (toISOString iso).map .string
  | .number (.finite _) => .ok (.string (c.toText value))
  | .string value => .ok (.string (pinZonelessDateTime value))
  | _ => .ok .undefined

end StartAfter

/-- `value || {}`, by its properties. -/
def orEmpty (value : Value) : Value := if value.truthy then value else .object fun _ => none

section Args

variable (c : Coercion)

/-- The arguments of `checkSendArgs`: a name, data and options, or one object with them. -/
def sendArgs (args : List Value) : Except String (Value × Value × Value) :=
  match args.headD .undefined with
  | .string name => do
    assertOption ((args.getD 1 .undefined).typeOf ≠ "function")
      "send() cannot accept a function as the payload.  Did you intend to use work()?"
    return (.string name, args.getD 1 .undefined, args.getD 2 .undefined)
  | job =>
    if job.typeOf = "object" then do
      assertOption (args.length = 1) "send object API only accepts 1 argument"
      assertOption job.truthy "boss requires all jobs to have a name"
      return (job.properties.get "name", job.properties.get "data", job.properties.get "options")
    else return (.undefined, .undefined, .undefined)

/-- `checkSendArgs`. -/
def checkSendArgs (args : List Value) : Except String OptionsRequest := do
  let (name, data, options) ← sendArgs args
  let options := orEmpty options
  assertOption name.truthy "boss requires all jobs to have a queue name"
  assertOption (options.typeOf = "object") "options should be an object"
  let options := options.properties
  checkPriority options
  let options := options.set "priority" (if (options.get "priority").truthy then options.get "priority" else .number (.finite 0))
  let startAfter ← sendStartAfter c (options.get "startAfter")
  let options := options.set "startAfter" startAfter
  validateRetryConfig c options
  validateExpirationConfig c options
  validateRetentionConfig c options
  validateDeletionConfig c options
  validateGroupConfig options
  validateHeartbeatConfig c options
  return { name, data, options }

/-- The arguments of `checkUpdateArgs`. -/
def updateArgs (verb : String) (args : List Value) : Except String (Value × Value × Value) :=
  match args.headD .undefined with
  | .string name => return (.string name, args.getD 1 .undefined, args.getD 2 .undefined)
  | job =>
    if job.typeOf = "object" then do
      assertOption (args.length = 1) (verb ++ " object API only accepts 1 argument")
      assertOption job.truthy "boss requires all jobs to have a name"
      return (job.properties.get "name", job.properties.get "data", job.properties.get "options")
    else return (.undefined, .undefined, .undefined)

/-- `JOB_MATCH_STRATEGIES.includes(match)`. -/
def matchStrategy : Value → Bool
  | .string strategy => strategy ∈ ["newest", "oldest", "all"]
  | _ => false

/-- The checks of what an update targets. -/
def checkTarget (verb : String) (options : Properties) : Except String Unit := do
  assertOption ((options.get "id").truthy != (options.get "singletonKey").truthy)
    (verb ++ " requires exactly one of id or singletonKey")
  assertOption (!((options.get "id").truthy && !(options.get "match").isUndefined))
    "match is only valid when targeting jobs by singletonKey"
  assertOption ((options.get "match").isUndefined || matchStrategy (options.get "match"))
    "match must be one of: newest, oldest, all"

/-- `checkUpdateArgs`. -/
def checkUpdateArgs (upsert : Bool) (args : List Value) : Except String OptionsRequest := do
  let verb := if upsert then "upsert()" else "update()"
  let (name, data, rawOptions) ← updateArgs verb args
  assertOption name.truthy "boss requires all jobs to have a queue name"
  assertOption (data.typeOf ≠ "function")
    (verb ++ " cannot accept a function as the payload.  Did you intend to use work()?")
  let options := (orEmpty rawOptions).properties
  checkTarget verb options
  checkPriority options
  let options ←
    if options.has "startAfter" then (updateStartAfter c (options.get "startAfter")).map (options.set "startAfter")
    else .ok options
  validateRetryConfig c options
  validateExpirationConfig c options
  validateRetentionConfig c options
  validateGroupConfig options
  validateHeartbeatConfig c options
  return { name, data, options }

end Args

/-- `group?.id` and `group?.tier`. -/
def groupField (options : Properties) (field : String) : Value := (options.get "group").properties.get field

/-- `value ?? null`. -/
def nullIfUndefined (value : Value) : Value := if value.isUndefined then .null else value

/-- The fields of `#toJobPayload` that come from its options, with those left out that `update()` has no counterpart of. -/
def toJobPayload (options : Properties) : Properties := fun field =>
  if field = "groupId" then some (nullIfUndefined (groupField options "id"))
  else if field = "groupTier" then some (nullIfUndefined (groupField options "tier"))
  else if field ∈ ["priority", "startAfter", "expireInSeconds", "deleteAfterSeconds", "retentionSeconds", "retryLimit",
    "retryDelay", "retryBackoff", "retryDelayMax", "heartbeatSeconds"] then some (options.get field)
  else if field ∈ ["id", "singletonKey", "deadLetter"] then some (nullIfUndefined (options.get field))
  else none

/-- `#toUpdatePayload`, whose undefined fields do not reach the statement. -/
def toUpdatePayload (data : Value) (options : Properties) : Properties := fun field =>
  if field = "data" then some data
  else if field = "groupId" then some (groupField options "id")
  else if field = "groupTier" then some (groupField options "tier")
  else if field ∈ ["priority", "startAfter", "retentionSeconds", "expireInSeconds", "deleteAfterSeconds", "retryLimit",
    "retryDelay", "retryBackoff", "retryDelayMax", "deadLetter", "heartbeatSeconds", "id", "singletonKey"] then
    some (options.get field)
  else none

end PgBoss
