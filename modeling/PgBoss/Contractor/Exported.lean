import PgBoss.Contractor.Formatters

/-!
# Exports and rows

What an export inlines for an asynchronous migration is what the rows of `bam` hold: the same statements for the same
tables, each without the space around it.
-/

namespace PgBoss

/-- A text that neither begins nor ends in space. -/
def Unspaced (text : List Char) : Prop :=
  (∃ c rest, text = c :: rest ∧ isSpace c = false) ∧ ∃ rest c, text = rest ++ [c] ∧ isSpace c = false

section Space

variable {α : Type} (blank : α → Bool) {f : α → List Char} {tokens : List α} {text behind : List Char} {c : Char}

theorem Unspaced.append (h : Unspaced text) (h' : Unspaced behind) : Unspaced (text ++ behind) := by
  obtain ⟨⟨c, rest, rfl, hc⟩, -⟩ := h
  obtain ⟨-, rest', c', rfl, hc'⟩ := h'
  exact ⟨⟨c, rest ++ (rest' ++ [c']), rfl, hc⟩, ⟨c :: rest ++ rest', c', by simp, hc'⟩⟩

theorem unspaced_of_forall (hne : text ≠ []) (h : ∀ c ∈ text, isSpace c = false) : Unspaced text := by
  refine ⟨?_, text.dropLast, text.getLast hne, (List.dropLast_append_getLast hne).symm, h _ (List.getLast_mem hne)⟩
  cases text with
  | nil => exact absurd rfl hne
  | cons c rest => exact ⟨c, rest, rfl, h c List.mem_cons_self⟩

/-- A word character is no space. -/
theorem isSpace_word (h : isWordChar c = true) : isSpace c = false := by
  obtain ⟨hlow, hhigh⟩ := isWordChar_code h
  by_contra hspace
  simp only [isSpace, Bool.not_eq_false, Bool.or_eq_true, decide_eq_true_eq, List.mem_cons, List.not_mem_nil, or_false] at hspace
  omega

/-- Of a text made up token by token, the space ahead is that of the blank tokens ahead. -/
theorem dropWhile_flatMap (hblank : ∀ t ∈ tokens, blank t = true → ∀ c ∈ f t, isSpace c = true)
    (hother : ∀ t ∈ tokens, blank t = false → ∃ c rest, f t = c :: rest ∧ isSpace c = false) :
    (tokens.flatMap f).dropWhile isSpace = (tokens.dropWhile blank).flatMap f := by
  induction tokens with
  | nil => rfl
  | cons t tokens ih =>
    rw [List.flatMap_cons]
    cases ht : blank t with
    | true =>
      rw [List.dropWhile_append_of_pos (hblank t List.mem_cons_self ht), List.dropWhile_cons_of_pos ht]
      exact ih (fun t h => hblank t (List.mem_cons_of_mem _ h)) fun t h => hother t (List.mem_cons_of_mem _ h)
    | false =>
      obtain ⟨c, rest, hfirst, hc⟩ := hother t List.mem_cons_self ht
      rw [List.dropWhile_cons_of_neg (by simp [ht]), List.flatMap_cons, hfirst, List.cons_append,
        List.dropWhile_cons_of_neg (by simp [hc])]

/-- And the space around it, that of the blank tokens around. -/
theorem trimSpace_flatMap (hblank : ∀ t ∈ tokens, blank t = true → ∀ c ∈ f t, isSpace c = true)
    (hother : ∀ t ∈ tokens, blank t = false → Unspaced (f t)) :
    trimSpace (tokens.flatMap f) = ((tokens.dropWhile blank).rdropWhile blank).flatMap f := by
  have hin : ∀ t ∈ (tokens.dropWhile blank).reverse, t ∈ tokens := fun t ht =>
    (List.dropWhile_suffix blank).subset (List.mem_reverse.mp ht)
  rw [trimSpace, dropWhile_flatMap blank hblank fun t ht hb => (hother t ht hb).1, List.rdropWhile, List.reverse_flatMap,
    dropWhile_flatMap blank, List.rdropWhile, List.reverse_flatMap]
  · simp [Function.comp_def]
  · intro t ht hb c hc
    exact hblank t (hin t ht) hb c (List.mem_reverse.mp hc)
  · intro t ht hb
    obtain ⟨-, rest, c, hlast, hc⟩ := hother t (hin t ht) hb
    exact ⟨c, rest.reverse, by simp [hlast], hc⟩

theorem mem_dropWhile {a : α} {p : α → Bool} {l : List α} (h : a ∈ l) (hp : p a = false) : a ∈ l.dropWhile p := by
  have hall : a ∈ l.takeWhile p ++ l.dropWhile p := by rwa [List.takeWhile_append_dropWhile]
  refine (List.mem_append.mp hall).resolve_left fun hin => ?_
  have htaken := List.mem_takeWhile_imp hin
  rw [hp] at htaken
  cases htaken

end Space

section Trim

open CommandToken

/-- A symbol that is space. -/
def CommandToken.isBlank : CommandToken → Bool
  | symbol c => isSpace c
  | _ => false

variable {schemaName ref name table : List Char} (command : MigrationCommand)

/-- A command without the space around it. -/
def MigrationCommand.trim : MigrationCommand where
  tokens := (command.tokens.dropWhile isBlank).rdropWhile isBlank
  valid token h := command.valid token ((List.dropWhile_suffix _).subset ((List.rdropWhile_prefix _ _).subset h))
  follows := by
    obtain ⟨behind, hbehind⟩ := List.rdropWhile_prefix isBlank (command.tokens.dropWhile isBlank)
    have hchain := command.follows.suffix (List.dropWhile_suffix isBlank)
    rw [← hbehind] at hchain
    exact hchain.left_of_append
  refers := by
    obtain ⟨token, htoken, hname⟩ := command.refers
    have hblank : token.isBlank = false := by rcases hname with rfl | rfl <;> rfl
    refine ⟨token, ?_, hname⟩
    rw [List.rdropWhile, List.mem_reverse]
    exact mem_dropWhile (List.mem_reverse.mpr (mem_dropWhile htoken hblank)) hblank

theorem unspaced_token (hschema : Unspaced schemaName) (href : Unspaced ref) (hname : Unspaced name) {token : CommandToken}
    (hvalid : token.Valid) (hblank : token.isBlank = false) : Unspaced (retarget schemaName ref name token) := by
  cases token with
  | schema => exact hschema
  | table =>
    have hperiod : Unspaced ['.'] := unspaced_of_forall (by decide) (by simp; decide)
    have htable : retarget schemaName ref name .table = schemaName ++ (['.'] ++ ref) := rfl
    exact htable ▸ hschema.append (hperiod.append href)
  | word chars =>
    obtain ⟨hne, hchars, -⟩ := hvalid
    rw [retarget_word]
    split_ifs with h
    · obtain ⟨d, digits, rfl, -⟩ := index_split h
      refine hname.append (unspaced_of_forall (List.cons_ne_nil _ _) fun c hc => ?_)
      exact isSpace_word (hchars c (List.mem_of_mem_drop hc))
    · exact unspaced_of_forall hne fun c hc => isSpace_word (hchars c hc)
  | symbol c => exact unspaced_of_forall (List.cons_ne_nil _ _) fun c' hc => List.mem_singleton.mp hc ▸ hblank

theorem trimSpace_tokens (hschema : Unspaced schemaName) (href : Unspaced ref) (hname : Unspaced name) :
    trimSpace (command.tokens.flatMap (retarget schemaName ref name)) = command.trim.tokens.flatMap (retarget schemaName ref name) := by
  refine trimSpace_flatMap isBlank (fun token _ hblank c hc => ?_) fun token htoken hblank =>
    unspaced_token hschema href hname (command.valid token htoken) hblank
  cases token with
  | symbol c' =>
    obtain rfl : c = c' := by simpa [retarget] using hc
    exact hblank
  | schema => cases hblank
  | table => cases hblank
  | word chars => cases hblank

theorem unspaced_job : Unspaced jobWord :=
  unspaced_of_forall (by decide) fun c hc => isSpace_word (List.all_eq_true.mp (rfl : jobWord.all isWordChar = true) c hc)

theorem IsJobTable.unspaced (h : IsJobTable table) : Unspaced table := by
  have hwords : ∀ c ∈ table, isWordChar c = true := by
    rcases h with rfl | ⟨hash, rfl, -, hhash⟩
    · exact List.all_eq_true.mp rfl
    · have hhex : ∀ c ∈ hashDigits, isWordChar c = true := List.all_eq_true.mp rfl
      exact List.forall_mem_cons.mpr ⟨by decide, fun c hc => hhex c (hhash c hc)⟩
  refine unspaced_of_forall ?_ fun c hc => isSpace_word (hwords c hc)
  rcases h with rfl | ⟨hash, rfl, -⟩
  · decide
  · exact List.cons_ne_nil _ _

/-- An accepted name has no space at its ends: it is in quotes, or a word. -/
theorem accepted_unspaced (h : assertPostgresObjectName schemaName = .ok ()) : Unspaced schemaName := by
  have hne := (accepted_name h).1
  cases hquoted : isQuoted schemaName with
  | true =>
    obtain ⟨resolved, hname, -⟩ := eq_of_isQuoted hquoted
    exact hname ▸ ⟨⟨'"', resolved ++ ['"'], rfl, by decide⟩, ⟨'"' :: resolved, '"', rfl, by decide⟩⟩
  | false =>
    refine unspaced_of_forall hne fun c hc => isSpace_word ?_
    unfold assertPostgresObjectName at h
    simp only [hquoted, Bool.false_eq_true, if_false] at h
    split_ifs at h with _ _ hword
    · exact List.all_eq_true.mp (by simpa using hword) c hc

end Trim

/-- The name of a migration's command, and where its statements are enqueued. -/
def AsyncMigration.name : AsyncMigration → List Char
  | legacy name _ _ => name
  | command name _ _ _ => name

def AsyncMigration.source : AsyncMigration → List Char
  | legacy _ _ _ => "job_table_run_async".toList
  | command _ _ table _ => if (given table).isSome then "bam".toList else "job_table_run_async".toList

/-- A migration that enqueues the command; in the older form, for one job table or for all. -/
def AsyncMigration.Runs (schemaName : List Char) (run : MigrationCommand) : AsyncMigration → Prop
  | legacy _ body table => body = run.text schemaName ∧ ∀ t ∈ table, IsJobTable t
  | command _ text _ _ => text = run.text schemaName

/-- What an export is told of the queues. -/
def partitionsOf (queues : List QueueTable) : List MigrationPartition :=
  (queues.filter QueueTable.partition).map fun queue => ⟨queue.tableName, queue.policy⟩

/-- Whatever migration enqueues the command, what is inlined for it is the rows' statements, in their order. -/
def ExportMatches (K : WordClass) (quoteIdent : List Char → List Char) (schemaName : List Char) (run : MigrationCommand) : Prop :=
  ∀ (queues : List QueueTable) (migration : AsyncMigration) (version : ℕ), (queues.map QueueTable.name).Nodup →
    (∀ queue ∈ queues, IsJobTable queue.tableName) → migration.Runs schemaName run →
      ∃ rows, runAsyncCommand K quoteIdent queues version migration = some rows ∧
        inlineAsyncCommand schemaName version (partitionsOf queues) migration = rows.map fun row =>
          inlinedComment schemaName migration.source migration.name version ++ reRunnable (trimSpace row.command)

section Export

variable {K : WordClass} {quoteIdent : List Char → List Char} {schemaName name table : List Char} {queues : List QueueTable}
  {version : ℕ} {run : MigrationCommand}

/-- The row of a command for a table. -/
def tableRow (schemaName name : List Char) (version : ℕ) (run : MigrationCommand) (queue : Option (List Char)) (table : List Char) :
    BamCommand := ⟨name, version, queue, table, run.forTable schemaName table⟩

theorem formatJobTable_trim (hschema : assertPostgresObjectName schemaName = .ok ()) (hclean : CleanBehind scriptWords none schemaName)
    (htable : IsJobTable table) :
    formatJobTable (trimSpace (run.text schemaName)) table = trimSpace (run.forTable schemaName table) := by
  have hunspaced := accepted_unspaced hschema
  have htext : trimSpace (run.text schemaName) = run.trim.text schemaName := trimSpace_tokens run hunspaced unspaced_job unspaced_job
  have hrow : trimSpace (run.forTable schemaName table) = run.trim.forTable schemaName table :=
    trimSpace_tokens run hunspaced htable.unspaced htable.unspaced
  rw [htext, hrow]
  exact (formatJobTable_iff run.trim (accepted_name hschema).2.1 htable).mpr hclean

theorem mapM_eq_map {α β : Type} {l : List α} {f : α → Option β} {g : α → β} (h : ∀ a ∈ l, f a = some (g a)) :
    l.mapM f = some (l.map g) := by
  induction l with
  | nil => rfl
  | cons a l ih =>
    rw [List.mapM_cons, h a List.mem_cons_self, ih fun a ha => h a (List.mem_cons_of_mem _ ha)]
    rfl

/-- What the calls write of a command that is formatted as its tokens say. -/
theorem jobTableRunAsync_table (hformat : jobTableFormat K quoteIdent (run.text schemaName) table = some (run.forTable schemaName table)) :
    jobTableRunAsync K quoteIdent queues name version (run.text schemaName) (some table) none =
      some [tableRow schemaName name version run none table] := by
  simp [jobTableRunAsync, hformat, tableRow]

theorem jobTableRunAsync_queue {queue : QueueTable} {tblName : Option (List Char)} (hqueues : (queues.map QueueTable.name).Nodup)
    (hqueue : queue ∈ queues)
    (hformat : jobTableFormat K quoteIdent (run.text schemaName) queue.tableName = some (run.forTable schemaName queue.tableName)) :
    jobTableRunAsync K quoteIdent queues name version (run.text schemaName) tblName (some queue.name) =
      some [tableRow schemaName name version run (some queue.name) queue.tableName] := by
  have hfound : (queues.find? fun q => q.name = queue.name) = some queue := by
    obtain ⟨q, hq⟩ := Option.isSome_iff_exists.mp
      (List.find?_isSome.mpr ⟨queue, hqueue, decide_eq_true rfl⟩ : (queues.find? fun q => q.name = queue.name).isSome)
    have hname : q.name = queue.name := by simpa using List.find?_some hq
    rw [hq, List.inj_on_of_nodup_map hqueues (List.mem_of_find?_eq_some hq) hqueue hname]
  simp [jobTableRunAsync, hfound, hformat, tableRow]

theorem jobTableRunAsync_all (htables : ∀ queue ∈ queues, IsJobTable queue.tableName)
    (hformat : ∀ table, IsJobTable table → jobTableFormat K quoteIdent (run.text schemaName) table = some (run.forTable schemaName table)) :
    jobTableRunAsync K quoteIdent queues name version (run.text schemaName) none none =
      some (tableRow schemaName name version run none commonJobTable ::
        (queues.filter QueueTable.partition).map fun queue => tableRow schemaName name version run (some queue.name) queue.tableName) := by
  rw [jobTableRunAsync]
  simp only
  rw [mapM_eq_map (g := fun target => tableRow schemaName name version run target.1 target.2)]
  · simp [Function.comp_def]
  · rintro ⟨queue, table⟩ htarget
    have htable : IsJobTable table := by
      rcases List.mem_cons.mp htarget with h | h
      · exact (Prod.mk.inj h).2 ▸ .inl rfl
      · obtain ⟨q, hq, heq⟩ := List.mem_map.mp h
        exact (Prod.mk.inj heq).2 ▸ htables q (List.mem_filter.mp hq).1
    simp [hformat table htable, tableRow]

/-- An inlined statement for a table is the row's. -/
theorem inlined_row (hschema : assertPostgresObjectName schemaName = .ok ()) (hclean : CleanBehind scriptWords none schemaName)
    (htable : IsJobTable table) (comment : List Char) (queue : Option (List Char)) :
    comment ++ reRunnable (formatJobTable (trimSpace (run.text schemaName)) table) =
      comment ++ reRunnable (trimSpace (tableRow schemaName name version run queue table).command) := by
  rw [formatJobTable_trim hschema hclean htable]
  rfl

theorem inlined_rows (name : List Char) (version : ℕ) (hschema : assertPostgresObjectName schemaName = .ok ()) (hclean : CleanBehind scriptWords none schemaName)
    (htables : ∀ queue ∈ queues, IsJobTable queue.tableName) (comment : List Char) :
    ((commonJobTable :: queues.map QueueTable.tableName).map fun table =>
        comment ++ reRunnable (formatJobTable (trimSpace (run.text schemaName)) table)) =
      (tableRow schemaName name version run none commonJobTable ::
        queues.map fun queue => tableRow schemaName name version run (some queue.name) queue.tableName).map fun row =>
          comment ++ reRunnable (trimSpace row.command) := by
  rw [List.map_cons, List.map_cons, List.map_map, List.map_map]
  congr 1
  · exact inlined_row hschema hclean (.inl rfl) comment none
  · exact List.map_congr_left fun queue hqueue => inlined_row hschema hclean (htables queue hqueue) comment (some queue.name)

/-- The partitions an export fans out to, by a policy if one is given. -/
theorem eligible_tables (policy : Option (List Char)) :
    ((partitionsOf queues).filter fun partition => policy.all fun policy => partition.policy = policy).map MigrationPartition.tableName =
      (queues.filter fun queue => queue.partition && policy.all fun policy => queue.policy = policy).map QueueTable.tableName := by
  rw [partitionsOf, List.filter_map, List.filter_filter, List.map_map]
  congr 1
  refine List.filter_congr fun queue _ => ?_
  rw [Bool.and_comm]
  rfl

section Equations

variable {partitionTables : List MigrationPartition} {text : List Char} {pinned policy : Option (List Char)}

theorem inlineAsyncCommand_command : inlineAsyncCommand schemaName version partitionTables (.command name text pinned policy) =
    match given pinned with
    | some _ => [inlinedComment schemaName "bam".toList name version ++ reRunnable (trimSpace text)]
    | none =>
      let eligible := partitionTables.filter fun partition => (given policy).all fun policy => partition.policy = policy
      (commonJobTable :: eligible.map MigrationPartition.tableName).map fun table =>
        inlinedComment schemaName "job_table_run_async".toList name version ++ reRunnable (formatJobTable (trimSpace text) table) := rfl

/-- A command that names its table is inlined once. -/
theorem inlineAsyncCommand_given (h : given pinned = some table) :
    inlineAsyncCommand schemaName version partitionTables (.command name text pinned policy) =
      [inlinedComment schemaName "bam".toList name version ++ reRunnable (trimSpace text)] := by
  rw [inlineAsyncCommand_command, h]

theorem inlineAsyncCommand_all (h : given pinned = none) :
    inlineAsyncCommand schemaName version partitionTables (.command name text pinned policy) =
      (commonJobTable :: (partitionTables.filter fun partition =>
          (given policy).all fun policy => partition.policy = policy).map MigrationPartition.tableName).map fun table =>
        inlinedComment schemaName "job_table_run_async".toList name version ++ reRunnable (formatJobTable (trimSpace text) table) := by
  rw [inlineAsyncCommand_command, h]

theorem runAsyncCommand_command : runAsyncCommand K quoteIdent queues version (.command name text pinned policy) =
    match given pinned, given policy with
    | some table, _ => some [⟨name, version, none, table, text⟩]
    | none, none => jobTableRunAsync K quoteIdent queues name version text none none
    | none, some policy =>
      let targets := (commonJobTable, none) ::
        (queues.filter fun queue => queue.partition && queue.policy = policy).map fun queue : QueueTable => (queue.tableName, some queue.name)
      (targets.mapM fun (table, queue) => jobTableRunAsync K quoteIdent queues name version text (some table) queue).map List.flatten := rfl

theorem source_given (h : given pinned = some table) : (AsyncMigration.command name text pinned policy).source = "bam".toList :=
  if_pos (by rw [h]; rfl)

theorem source_all (h : given pinned = none) :
    (AsyncMigration.command name text pinned policy).source = "job_table_run_async".toList :=
  if_neg (by rw [h]; exact Bool.false_ne_true)

end Equations

/-- Where both formatters are right, an export has the statements of the rows. -/
theorem exportMatches (hschema : assertPostgresObjectName schemaName = .ok ()) (hclean : CleanBehind scriptWords none schemaName)
    (hformat : ∀ table, IsJobTable table → jobTableFormat K quoteIdent (run.text schemaName) table = some (run.forTable schemaName table)) :
    ExportMatches K quoteIdent schemaName run := by
  intro queues migration version hqueues htables hruns
  have hsome {eligible : QueueTable → Bool} : ∀ queue ∈ queues.filter eligible, IsJobTable queue.tableName :=
    fun queue hqueue => htables queue (List.mem_filter.mp hqueue).1
  cases migration with
  | legacy name body pinned =>
    obtain ⟨rfl, hpinned⟩ := hruns
    cases pinned with
    | some table =>
      have htable : IsJobTable table := hpinned table rfl
      refine ⟨_, by rw [runAsyncCommand, jobTableRunAsync_table (hformat table htable)], ?_⟩
      exact congrArg (fun statement => [statement]) (inlined_row hschema hclean htable _ none)
    | none =>
      refine ⟨_, by rw [runAsyncCommand, jobTableRunAsync_all htables hformat], ?_⟩
      have htargets : (partitionsOf queues).map MigrationPartition.tableName = (queues.filter QueueTable.partition).map QueueTable.tableName :=
        List.map_map
      simp only [inlineAsyncCommand, htargets]
      exact inlined_rows name version hschema hclean hsome _
  | command name text pinned policy =>
    obtain rfl := hruns
    cases hpinned : given pinned with
    | some table =>
      rw [inlineAsyncCommand_given hpinned, source_given hpinned]
      exact ⟨_, by rw [runAsyncCommand_command, hpinned], rfl⟩
    | none =>
      rw [inlineAsyncCommand_all hpinned, eligible_tables, source_all hpinned, runAsyncCommand_command, hpinned]
      cases hpolicy : given policy with
      | none =>
        refine ⟨_, jobTableRunAsync_all htables hformat, ?_⟩
        simp only [Option.all_none, Bool.and_true]
        exact inlined_rows name version hschema hclean hsome _
      | some policy =>
        refine ⟨_, ?_, inlined_rows name version hschema hclean hsome _⟩
        simp only [Option.all_some]
        rw [mapM_eq_map (g := fun target => [tableRow schemaName name version run target.2 target.1])]
        · simp [Function.comp_def, ← List.flatMap_def, ← List.map_eq_flatMap]
        · rintro ⟨table, queue⟩ htarget
          rcases List.mem_cons.mp htarget with h | h
          · obtain ⟨rfl, rfl⟩ := Prod.mk.inj h
            exact jobTableRunAsync_table (hformat _ (.inl rfl))
          · obtain ⟨q, hq, heq⟩ := List.mem_map.mp h
            obtain ⟨rfl, rfl⟩ := Prod.mk.inj heq
            have hin := (List.mem_filter.mp hq).1
            exact jobTableRunAsync_queue hqueues hin (hformat _ (htables q hin))

end Export

/-- For an accepted schema name, a command of a migration and a job table, both formatters rewrite the command as its
tokens say, and an export matches its rows, exactly where each `job_i` and digit of the name lies behind a word character:
of a script, and of the database. -/
theorem formatters_right_iff {schemaName : List Char} (hschema : assertPostgresObjectName schemaName = .ok ()) (K : WordClass)
    (hascii : K.Ascii) (quoteIdent : List Char → List Char) (hquote : ∀ table, IsJobTable table → quoteIdent table = table)
    (run : MigrationCommand) {table : List Char} (htable : IsJobTable table) :
    (formatJobTable (run.text schemaName) table = run.forTable schemaName table ∧
        jobTableFormat K quoteIdent (run.text schemaName) table = some (run.forTable schemaName table) ∧
        ExportMatches K quoteIdent schemaName run) ↔
      CleanBehind scriptWords none schemaName ∧ CleanBehind K none schemaName := by
  obtain ⟨-, hperiod, hpercent⟩ := accepted_name hschema
  have hscript : ∀ t, IsJobTable t → (formatJobTable (run.text schemaName) t = run.forTable schemaName t ↔
      CleanBehind scriptWords none schemaName) := fun t ht => formatJobTable_iff run hperiod ht
  have hdatabase : ∀ t, IsJobTable t → (jobTableFormat K quoteIdent (run.text schemaName) t = some (run.forTable schemaName t) ↔
      CleanBehind K none schemaName) := fun t ht => jobTableFormat_iff run hperiod hpercent hascii ht (hquote t ht)
  constructor
  · rintro ⟨hjob, hformat, -⟩
    exact ⟨(hscript table htable).mp hjob, (hdatabase table htable).mp hformat⟩
  · rintro ⟨hclean, hclean'⟩
    exact ⟨(hscript table htable).mpr hclean, (hdatabase table htable).mpr hclean',
      exportMatches hschema hclean fun t ht => (hdatabase t ht).mpr hclean'⟩

/-- `CREATE INDEX job_i7 ON` the base table `(name)`. -/
def nameIndex : MigrationCommand where
  tokens := [.word "CREATE".toList, .symbol ' ', .word "INDEX".toList, .symbol ' ', .word "job_i7".toList, .symbol ' ',
    .word "ON".toList, .symbol ' ', .table, .symbol ' ', .symbol '(', .word "name".toList, .symbol ')']
  valid := by decide
  follows := by decide
  refers := ⟨.table, by decide, .inr rfl⟩

/-- The default schema's name is clean. -/
theorem formatters_right_pgboss :
    formatJobTable (nameIndex.text "pgboss".toList) commonJobTable = nameIndex.forTable "pgboss".toList commonJobTable ∧
      jobTableFormat scriptWords id (nameIndex.text "pgboss".toList) commonJobTable =
        some (nameIndex.forTable "pgboss".toList commonJobTable) ∧
      ExportMatches scriptWords id "pgboss".toList nameIndex :=
  (formatters_right_iff (by rfl) scriptWords scriptWords_ascii id (fun _ _ => rfl) nameIndex (.inl rfl)).mpr
    ⟨.of_notInfix (by decide), .of_notInfix (by decide)⟩

/-- A schema called `job_i5` is taken for an index: the command for the common table names a schema that is not there. -/
theorem schema_taken_for_index :
    assertPostgresObjectName "job_i5".toList = .ok () ∧ IsJobTable commonJobTable ∧
      formatJobTable (nameIndex.text "job_i5".toList) commonJobTable =
        "CREATE INDEX job_common_i7 ON job_common_i5.job_common (name)".toList ∧
      jobTableFormat scriptWords id (nameIndex.text "job_i5".toList) commonJobTable =
        some "CREATE INDEX job_common_i7 ON job_common_i5.job_common (name)".toList ∧
      nameIndex.forTable "job_i5".toList commonJobTable = "CREATE INDEX job_common_i7 ON job_i5.job_common (name)".toList ∧
      formatJobTable (nameIndex.text "job_i5".toList) commonJobTable ≠ nameIndex.forTable "job_i5".toList commonJobTable :=
  ⟨rfl, .inl rfl, by decide, by decide, by decide, by decide⟩

end PgBoss
