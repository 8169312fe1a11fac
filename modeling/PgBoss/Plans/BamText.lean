import Mathlib

/-!
# The text of a background migration command

A runner tells by its text whether a command builds or drops an index concurrently, and which index
a build leaves behind. The texts are read by regular expressions that ignore case.
-/

namespace PgBoss

/-- `\s`. -/
def isSpace (c : Char) : Bool :=
  decide (c.toNat ∈ [9, 10, 11, 12, 13, 32, 0xa0, 0x1680, 0x2028, 0x2029, 0x202f, 0x205f, 0x3000, 0xfeff]) ||
    decide (0x2000 ≤ c.toNat ∧ c.toNat ≤ 0x200a)

/-- `\w`. -/
def isWordChar (c : Char) : Bool := c.isAlphanum || decide (c = '_')

/-- The keyword in either case, and what follows it. -/
def keyword (k : List Char) (text : List Char) : Option (List Char) :=
  if (text.take k.length).map Char.toUpper = k then some (text.drop k.length) else none

/-- `\s+`. -/
def someSpace (text : List Char) : Option (List Char) :=
  if text.head?.any isSpace then some (text.dropWhile isSpace) else none

/-- Keywords, each with space behind it. -/
def keywords (ks : List String) (text : List Char) : Option (List Char) :=
  ks.foldlM (fun rest k => (keyword k.toList rest).bind someSpace) text

/-- `CREATE\s+(?:UNIQUE\s+)?INDEX\s+`. -/
def createIndex (text : List Char) : Option (List Char) :=
  (keywords ["CREATE"] text).bind fun rest => keywords ["INDEX"] ((keywords ["UNIQUE"] rest).getD rest)

/-- `CREATE\s+(?:UNIQUE\s+)?INDEX\s+CONCURRENTLY\s+`. -/
def createIndexConcurrently (text : List Char) : Option (List Char) :=
  (createIndex text).bind (keywords ["CONCURRENTLY"])

/-- `\b`, behind a letter. -/
def wordEnds (rest : List Char) : Bool := !rest.head?.any isWordChar

/-- `isConcurrentIndexCommand`. -/
def isConcurrentIndexCommand (command : String) : Bool :=
  let text := command.toList.dropWhile isSpace
  (((createIndex text).or (keywords ["DROP", "INDEX"] text)).bind (keyword "CONCURRENTLY".toList)).any wordEnds

/-- `[\w$]+`. -/
def indexName (text : List Char) : Option (List Char) :=
  let name := text.takeWhile fun c => isWordChar c || decide (c = '$')
  if name = [] then none else some name

/-- `"?`. -/
def quoteMark (text : List Char) : List Char := if text.head? = some '\x22' then ['\x22'] else []

/-- The name behind an opening quote or none. -/
def bareName (text : List Char) : Option (List Char) := indexName (text.drop (quoteMark text).length)

/-- `"?[\w$]+"?`. -/
def quotedName (text : List Char) : Option (List Char) :=
  (bareName text).map fun name =>
    quoteMark text ++ name ++ quoteMark (text.drop ((quoteMark text).length + name.length))

/-- `(?:IF\s+NOT\s+EXISTS\s+)?`, and a name as `read` reads it. -/
def builtName (read : List Char → Option (List Char)) (rest : List Char) : Option (List Char) :=
  ((keywords ["IF", "NOT", "EXISTS"] rest).bind read).or (read rest)

/-- The first match of the pattern that both `bamHealDrop` and `bamHealProbe` look for. -/
def concurrentBuild (read : List Char → Option (List Char)) (command : String) : Option String :=
  (command.toList.tails.findSome? fun text => (createIndexConcurrently text).bind (builtName read)).map String.ofList

/-- `bamHealDrop`. -/
def bamHealDrop (schema : String) (command : String) : Option String :=
  (concurrentBuild quotedName command).map fun name => "DROP INDEX CONCURRENTLY IF EXISTS " ++ schema ++ "." ++ name

/-- `bamHealProbe`, by the name of the index it asks for. -/
def bamHealProbe (command : String) : Option String := concurrentBuild bareName command

theorem builtName_isSome (rest : List Char) : (builtName quotedName rest).isSome = (builtName bareName rest).isSome := by
  have hread : ∀ text, (quotedName text).isSome = (bareName text).isSome := fun text => Option.isSome_map
  rw [builtName, builtName, Option.isSome_or, Option.isSome_or, hread]
  cases keywords ["IF", "NOT", "EXISTS"] rest with
  | none => rfl
  | some behind => rw [Option.bind_some, Option.bind_some, hread]

/-- The drop is null exactly when the probe is. -/
theorem bamHealDrop_isSome (schema command : String) :
    (bamHealDrop schema command).isSome = (bamHealProbe command).isSome := by
  rw [bamHealDrop, bamHealProbe, Option.isSome_map, concurrentBuild, concurrentBuild, Option.isSome_map,
    Option.isSome_map, Bool.eq_iff_iff, List.findSome?_isSome_iff, List.findSome?_isSome_iff]
  refine exists_congr fun text => and_congr_right fun _ => ?_
  cases createIndexConcurrently text with
  | none => rfl
  | some rest => rw [Option.bind_some, Option.bind_some, builtName_isSome]

/-- What `bamHealDrop` runs is a concurrent index command. -/
theorem isConcurrentIndexCommand_bamHealDrop {schema command sql : String} (h : bamHealDrop schema command = some sql) :
    isConcurrentIndexCommand sql = true := by
  obtain ⟨name, -, rfl⟩ := Option.map_eq_some_iff.mp h
  rw [isConcurrentIndexCommand, String.toList_append, String.toList_append, String.toList_append]
  rfl

example : bamHealDrop "pgboss" "create unique index CONCURRENTLY IF NOT EXISTS job_i14 ON pgboss.job (name)" =
    some "DROP INDEX CONCURRENTLY IF EXISTS pgboss.job_i14" := by decide +kernel

end PgBoss
