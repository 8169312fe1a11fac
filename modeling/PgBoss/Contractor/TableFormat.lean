import PgBoss.Plans.BamText
import PgBoss.Ecma.Text

/-!
# Commands for a job table

A migration writes an index build for `schema.job`, and it is rewritten for the common table and each partition: in the
script, for an export, and in SQL, for the rows of `bam`. Both go over the text by regular expressions, whose word
boundaries differ outside ASCII. Texts are lists of characters.
-/

namespace PgBoss

/-- `\w` and `\d` of a dialect. -/
structure WordClass where
  isWord : Char → Bool
  isDigit : Char → Bool

/-- Those of scripts. -/
def scriptWords : WordClass := ⟨isWordChar, Char.isDigit⟩

/-- `.replace(/\.job\b/g, '.' + ref)`. -/
def replaceTable (K : WordClass) (ref : List Char) : List Char → List Char
  | '.' :: 'j' :: 'o' :: 'b' :: text =>
    '.' :: (if text.head?.any K.isWord then ['j', 'o', 'b'] else ref) ++ replaceTable K ref text
  | c :: text => c :: replaceTable K ref text
  | [] => []

/-- `_i` and a digit. -/
def indexBehind (K : WordClass) : List Char → Bool
  | '_' :: 'i' :: d :: _ => K.isDigit d
  | _ => false

/-- `.replace(/\bjob_i(\d+)/g, name + '_i$1')`, behind a character or none: what a match keeps is copied. -/
def replaceIndex (K : WordClass) (name : List Char) : Option Char → List Char → List Char
  | previous, 'j' :: 'o' :: 'b' :: text =>
    (if !previous.any K.isWord && indexBehind K text then name else ['j', 'o', 'b']) ++ replaceIndex K name (some 'b') text
  | _, c :: text => c :: replaceIndex K name (some c) text
  | _, [] => []

/-- `formatJobTable`. A table's name has no `$`, which a replacement would read. -/
def formatJobTable (command table : List Char) : List Char :=
  replaceIndex scriptWords table none (replaceTable scriptWords table command)

/-- `format` with one argument. Other specifiers than `%1$I`, `%1$s` and `%%` are left out. -/
def formatOne (quoteIdent : List Char → List Char) (arg : List Char) : List Char → Option (List Char)
  | '%' :: '1' :: '$' :: 'I' :: text => (formatOne quoteIdent arg text).map (quoteIdent arg ++ ·)
  | '%' :: '1' :: '$' :: 's' :: text => (formatOne quoteIdent arg text).map (arg ++ ·)
  | '%' :: '%' :: text => (formatOne quoteIdent arg text).map ('%' :: ·)
  | '%' :: _ => none
  | c :: text => (formatOne quoteIdent arg text).map (c :: ·)
  | [] => some []

/-- `job_table_format`, in a database with classes of its own. -/
def jobTableFormat (K : WordClass) (quoteIdent : List Char → List Char) (command table : List Char) : Option (List Char) :=
  formatOne quoteIdent table
    (replaceIndex K ['%', '1', '$', 's'] none (replaceTable K ['%', '1', '$', 'I'] command))

/-- What a migration enqueues. Of the older form, a call as text, it has what the patterns read out of it, which are the
call's arguments. -/
inductive AsyncMigration
  | legacy (name : List Char) (body : List Char) (table : Option (List Char))
  | command (name command : List Char) (table : Option (List Char)) (partitionPolicy : Option (List Char))

/-- A queue, as far as a fan-out reads it. -/
structure QueueTable where
  name : List Char
  tableName : List Char
  partition : Bool
  policy : List Char

/-- `MigrationPartition`. -/
structure MigrationPartition where
  tableName : List Char
  policy : List Char

/-- A pending row of `bam`. -/
structure BamCommand where
  name : List Char
  version : ℕ
  queue : Option (List Char)
  tableName : List Char
  command : List Char

/-- `COMMON_JOB_TABLE`. -/
def commonJobTable : List Char := ['j', 'o', 'b', '_', 'c', 'o', 'm', 'm', 'o', 'n']

/-- `.trim()`. -/
def trimSpace (text : List Char) : List Char := (text.dropWhile isSpace).rdropWhile isSpace

/-- `CREATE INDEX CONCURRENTLY` or `CREATE UNIQUE INDEX CONCURRENTLY` and a blank, and what follows, without `IF NOT EXISTS`. -/
def concurrentlyAhead (text : List Char) : Option (List Char × List Char) :=
  let heads := ["CREATE INDEX CONCURRENTLY".toList, "CREATE UNIQUE INDEX CONCURRENTLY".toList]
  (heads.find? (·.isPrefixOf text)).bind fun head =>
    match text.drop head.length with
    | ' ' :: rest => if "IF NOT EXISTS".toList.isPrefixOf rest then none else some (head, rest)
    | _ => none

/-- `reRunnable`. -/
def reRunnable : List Char → List Char
  | [] => []
  | c :: text =>
    match concurrentlyAhead (c :: text) with
    | some (head, rest) => head ++ " IF NOT EXISTS ".toList ++ rest
    | none => c :: reRunnable text

/-- The comment ahead of an inlined command. -/
def inlinedComment (schema source name : List Char) (version : ℕ) : List Char :=
  "-- inlined from ".toList ++ schema ++ '.' :: source ++ " (migration v".toList ++ Nat.toDigits 10 version ++
    ", command: ".toList ++ name ++ ")\n".toList

/-- An optional text, where the empty one counts for none. -/
def given (text : Option (List Char)) : Option (List Char) := text.filter fun text => text ≠ []

/-- `inlineAsyncCommand`. -/
def inlineAsyncCommand (schema : List Char) (version : ℕ) (partitionTables : List MigrationPartition) :
    AsyncMigration → List (List Char)
  | .legacy name body table =>
    let targetTables := match table with
      | some table => [table]
      | none => commonJobTable :: partitionTables.map MigrationPartition.tableName
    targetTables.map fun table =>
      inlinedComment schema "job_table_run_async".toList name version ++ reRunnable (formatJobTable (trimSpace body) table)
  | .command name command table partitionPolicy =>
    match given table with
    | some _ => [inlinedComment schema "bam".toList name version ++ reRunnable (trimSpace command)]
    | none =>
      let eligible := partitionTables.filter fun partition => (given partitionPolicy).all fun policy => partition.policy = policy
      (commonJobTable :: eligible.map MigrationPartition.tableName).map fun table =>
        inlinedComment schema "job_table_run_async".toList name version ++ reRunnable (formatJobTable (trimSpace command) table)

section Rows

variable (K : WordClass) (quoteIdent : List Char → List Char) (queues : List QueueTable)

/-- `job_table_run_async`. -/
def jobTableRunAsync (name : List Char) (version : ℕ) (command : List Char) (tblName queueName : Option (List Char)) :
    Option (List BamCommand) :=
  let tblName := match queueName with
    | some queueName => (queues.find? fun queue => queue.name = queueName).map QueueTable.tableName
    | none => tblName
  let row (queue : Option (List Char)) (table : List Char) : Option BamCommand :=
    (jobTableFormat K quoteIdent command table).map fun command => ⟨name, version, queue, table, command⟩
  match tblName with
  | some table => (row queueName table).map fun row => [row]
  | none => ((none, commonJobTable) :: (queues.filter QueueTable.partition).map fun queue : QueueTable => (some queue.name, queue.tableName)).mapM
      fun (queue, table) => row queue table

/-- The rows that the statement of `renderAsyncCommand` writes. -/
def runAsyncCommand (version : ℕ) : AsyncMigration → Option (List BamCommand)
  | .legacy name body table => jobTableRunAsync K quoteIdent queues name version body table none
  | .command name command table partitionPolicy =>
    match given table, given partitionPolicy with
    | some table, _ => some [⟨name, version, none, table, command⟩]
    | none, none => jobTableRunAsync K quoteIdent queues name version command none none
    | none, some policy =>
      let targets := (commonJobTable, none) ::
        (queues.filter fun queue => queue.partition && queue.policy = policy).map fun queue : QueueTable => (queue.tableName, some queue.name)
      (targets.mapM fun (table, queue) => jobTableRunAsync K quoteIdent queues name version command (some table) queue).map List.flatten

end Rows

section Names

/-- `quotedNameProblem`. -/
def quotedNameProblem (resolved : List Char) : Option String :=
  if '"' ∈ resolved then some "cannot contain double quotes"
  else if '\'' ∈ resolved then some "cannot contain single quotes"
  else if '%' ∈ resolved then some "cannot contain percent signs"
  else if '$' ∈ resolved then some "cannot contain dollar signs"
  else if '.' ∈ resolved then some "cannot contain periods"
  else if '\\' ∈ resolved then some "cannot contain backslashes"
  else if resolved.any fun c => c.toNat < 0x20 || c.toNat = 0x7f then some "cannot contain control characters"
  else none

/-- A name in quotes, which are two characters. -/
def isQuoted (name : List Char) : Bool := name.head? = some '"' && name.getLast? = some '"' && decide (1 < name.length)

/-- `Buffer.byteLength(text, 'utf8')`. -/
def byteLength (text : List Char) : ℕ := (text.map Char.utf8Size).sum

/-- `assertPostgresObjectName`, of a string. -/
def assertPostgresObjectName (name : List Char) : Except String Unit :=
  let resolved := if isQuoted name then name.tail.dropLast else name
  let remedy := match quotedNameProblem name with
    | none => " Pass it quoted to use it verbatim: schema: '\"" ++ String.ofList name ++ "\"'"
    | some problem => " Quoting will not help: a quoted name " ++ problem ++ "."
  if resolved = [] then .error "Name cannot be empty"
  else if 50 < byteLength resolved then .error "Name cannot exceed 50 bytes"
  else if isQuoted name then
    match quotedNameProblem resolved with
    | some problem => .error ("Quoted name " ++ problem)
    | none => .ok ()
  else if !name.all isWordChar then
    .error ("Schema name " ++ String.ofList (Ecma.jsonString (String.ofList name)) ++
      " can only contain alphanumeric characters or underscores when unquoted." ++ remedy)
  else if name.head?.any Char.isDigit then
    .error ("Schema name " ++ String.ofList (Ecma.jsonString (String.ofList name)) ++
      " cannot start with a number when unquoted." ++ remedy)
  else .ok ()

theorem quotedNameProblem_none {resolved : List Char} (h : quotedNameProblem resolved = none) : '.' ∉ resolved ∧ '%' ∉ resolved := by
  unfold quotedNameProblem at h
  split_ifs at h with _ _ hpercent _ hperiod
  exact ⟨hperiod, hpercent⟩

theorem eq_of_isQuoted {name : List Char} (h : isQuoted name = true) : ∃ resolved, name = '"' :: resolved ++ ['"'] ∧ name.tail.dropLast = resolved := by
  simp only [isQuoted, Bool.and_eq_true, decide_eq_true_eq] at h
  obtain ⟨⟨hhead, hlast⟩, hlength⟩ := h
  cases name with
  | nil => cases hhead
  | cons c text =>
    obtain rfl : c = '"' := by simpa using hhead
    have hne : text ≠ [] := by
      rintro rfl
      simp at hlength
    have hquote : text.getLast hne = '"' := by
      rw [List.getLast?_cons_of_ne_nil hne, List.getLast?_eq_some_getLast hne] at hlast
      exact Option.some.inj hlast
    refine ⟨text.dropLast, ?_, rfl⟩
    rw [List.cons_append, ← hquote, List.dropLast_append_getLast]

/-- A schema name has a first character, and neither a period nor a percent sign. -/
theorem accepted_name {name : List Char} (h : assertPostgresObjectName name = .ok ()) : name ≠ [] ∧ '.' ∉ name ∧ '%' ∉ name := by
  unfold assertPostgresObjectName at h
  simp only at h
  split_ifs at h with hquoted hempty hlong hempty hlong hword hdigit
  · obtain ⟨resolved, hname, htail⟩ := eq_of_isQuoted hquoted
    rw [htail] at h
    cases hproblem : quotedNameProblem resolved with
    | some problem => rw [hproblem] at h; cases h
    | none =>
      obtain ⟨hperiod, hpercent⟩ := quotedNameProblem_none hproblem
      rw [hname]
      simp [hperiod, hpercent]
  · have hwords : name.all isWordChar = true := by simpa using hword
    have hchars : ∀ c ∈ name, isWordChar c = true := List.all_eq_true.mp hwords
    refine ⟨hempty, fun hin => ?_, fun hin => ?_⟩
    · exact absurd (hchars _ hin) (by decide)
    · exact absurd (hchars _ hin) (by decide)

end Names

end PgBoss
