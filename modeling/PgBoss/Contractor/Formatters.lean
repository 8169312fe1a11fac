import PgBoss.Contractor.Retarget

/-!
# The two table formatters

A command is rewritten for a table by `formatJobTable` in an export and by `job_table_format` in a row of `bam`. They
change the same tokens and nothing else exactly where no `job_i` of the schema's name looks like an index name to either.
-/

namespace PgBoss

open CommandToken

/-- The digits of a hash. -/
def hashDigits : List Char := "0123456789abcdef".toList

/-- The common table, or one named by the hash of a queue's name. -/
def IsJobTable (table : List Char) : Prop :=
  table = commonJobTable ∨ ∃ hash : List Char, table = 'j' :: hash ∧ hash.length = 56 ∧ ∀ c ∈ hash, c ∈ hashDigits

section Tables

variable {table : List Char}

theorem IsJobTable.notInfix (h : IsJobTable table) : ¬ indexStem <:+: table := by
  rcases h with rfl | ⟨hash, rfl, -, hhash⟩
  · decide
  · intro hinfix
    have ho : 'o' ∈ 'j' :: hash := hinfix.subset (by decide)
    rcases List.mem_cons.mp ho with h | ho
    · cases h
    · exact absurd (hhash 'o' ho) (by decide)

/-- No table's name is `job_i` in its beginning, whatever is put behind the two. -/
theorem IsJobTable.ne_index (h : IsJobTable table) (text rest : List Char) : table ++ text ≠ indexStem ++ rest := by
  rcases h with rfl | ⟨hash, rfl, hlength, hhash⟩
  · simp [commonJobTable, indexStem]
  · cases hash with
    | nil => cases hlength
    | cons c hash =>
      intro heq
      obtain rfl : c = 'o' := (List.cons.inj (List.cons.inj heq).2).1
      exact absurd (hhash 'o' List.mem_cons_self) (by decide)

end Tables

section Format

variable {quoteIdent : List Char → List Char} {arg text rest schemaName : List Char} {tokens : List CommandToken} {c : Char}

/-- What stands for the table in a reference to it, and in an index name. -/
def tableSpecifier : List Char := ['%', '1', '$', 'I']

def nameSpecifier : List Char := ['%', '1', '$', 's']

theorem formatOne_cons (h : c ≠ '%') : formatOne quoteIdent arg (c :: text) = (formatOne quoteIdent arg text).map (c :: ·) := by
  conv_lhs => unfold formatOne
  split
  · rename_i heq
    exact absurd (List.cons.inj heq).1 h
  · rename_i heq
    exact absurd (List.cons.inj heq).1 h
  · rename_i heq
    exact absurd (List.cons.inj heq).1 h
  · rename_i heq
    exact absurd (List.cons.inj heq).1 h
  · rename_i heq
    cases heq
    rfl
  · rename_i heq
    cases heq

theorem formatOne_append (h : '%' ∉ text) :
    formatOne quoteIdent arg (text ++ rest) = (formatOne quoteIdent arg rest).map (text ++ ·) := by
  induction text with
  | nil => simp
  | cons c text ih =>
    rw [List.mem_cons, not_or] at h
    rw [List.cons_append, formatOne_cons (Ne.symm h.1), ih h.2, Option.map_map]
    rfl

theorem formatOne_table : formatOne quoteIdent arg (tableSpecifier ++ rest) = (formatOne quoteIdent arg rest).map (quoteIdent arg ++ ·) := by
  rw [tableSpecifier]
  simp only [List.cons_append, List.nil_append]
  rw [formatOne]

theorem formatOne_name : formatOne quoteIdent arg (nameSpecifier ++ rest) = (formatOne quoteIdent arg rest).map (arg ++ ·) := by
  rw [nameSpecifier]
  simp only [List.cons_append, List.nil_append]
  rw [formatOne]

/-- A token with specifiers in it, formatted. -/
theorem formatOne_token {token : CommandToken} (hvalid : token.Valid) (hpercent : '%' ∉ schemaName) :
    formatOne quoteIdent arg (retarget schemaName tableSpecifier nameSpecifier token ++ rest) =
      (formatOne quoteIdent arg rest).map (retarget schemaName (quoteIdent arg) arg token ++ ·) := by
  cases token with
  | schema => exact formatOne_append hpercent
  | table =>
    have htable : ∀ ref name, retarget schemaName ref name .table = schemaName ++ '.' :: ref := fun _ _ => rfl
    rw [htable, htable, List.append_assoc, formatOne_append hpercent, List.cons_append, formatOne_cons (by decide),
      formatOne_table, Option.map_map, Option.map_map]
    congr 1
    funext text
    simp
  | word chars =>
    obtain ⟨-, hchars, -⟩ := hvalid
    have hplain : '%' ∉ chars := fun hin => absurd (hchars '%' hin) (by decide)
    rw [retarget_word, retarget_word]
    split_ifs
    · have hdrop : '%' ∉ chars.drop 3 := fun hin => hplain (List.mem_of_mem_drop hin)
      rw [List.append_assoc, formatOne_name, formatOne_append hdrop, Option.map_map]
      congr 1
      funext text
      simp
    · exact formatOne_append hplain
  | symbol c =>
    have hc : '%' ∉ [c] := fun hin => hvalid.2.2 (List.mem_singleton.mp hin).symm
    exact formatOne_append hc

theorem formatOne_tokens (hvalid : ∀ t ∈ tokens, t.Valid) (hpercent : '%' ∉ schemaName) :
    formatOne quoteIdent arg (tokens.flatMap (retarget schemaName tableSpecifier nameSpecifier) ++ rest) =
      (formatOne quoteIdent arg rest).map (tokens.flatMap (retarget schemaName (quoteIdent arg) arg) ++ ·) := by
  induction tokens with
  | nil => simp
  | cons token tokens ih =>
    rw [List.flatMap_cons, List.flatMap_cons, List.append_assoc, formatOne_token (hvalid token List.mem_cons_self) hpercent,
      ih fun t ht => hvalid t (List.mem_cons_of_mem _ ht), Option.map_map]
    congr 1
    funext text
    simp

end Format

section Command

variable {K : WordClass} {quoteIdent : List Char → List Char} {schemaName table : List Char} (command : MigrationCommand)

theorem scriptWords_ascii : scriptWords.Ascii := fun _ _ => ⟨rfl, rfl⟩

theorem first_not_behind {tokens : List CommandToken} {previous : Option Char} (h : previous = none) :
    ∀ t ∈ tokens.head?, t.isSymbol = false → previous.any K.isWord = false := by
  rintro - - -
  rw [h]
  rfl

/-- Both expressions over the text of a command, where the schema's name is clean. -/
theorem replace_clean (ref name : List Char) (hperiod : '.' ∉ schemaName) (hascii : K.Ascii) (hclean : CleanBehind K none schemaName)
    (href : ¬ indexStem <:+: ref) :
    replaceIndex K name none (replaceTable K ref (command.text schemaName)) = command.tokens.flatMap (retarget schemaName ref name) := by
  rw [MigrationCommand.text, replaceTable_tokens command.valid command.follows hperiod hascii]
  exact replaceIndex_tokens command.valid command.follows hascii hclean (CleanBehind.of_notInfix href) (first_not_behind rfl)

/-- Where it is not, the name of a table gets into it. -/
theorem replace_unclean (ref name : List Char) (hperiod : '.' ∉ schemaName) (hascii : K.Ascii)
    (hunclean : ¬ CleanBehind K none schemaName) :
    ∃ (first : List CommandToken) (before behind tail : List Char) (rest : List Char → List Char → List Char),
      (∀ t ∈ first, t.Valid) ∧ schemaName = before ++ indexStem ++ behind ∧
      (∀ ref' name', command.tokens.flatMap (retarget schemaName ref' name') =
        first.flatMap (retarget schemaName ref' name') ++ schemaName ++ rest ref' name') ∧
      replaceIndex K name none (replaceTable K ref (command.text schemaName)) =
        first.flatMap (retarget schemaName ref name) ++ before ++ name ++ tail := by
  rw [MigrationCommand.text, replaceTable_tokens command.valid command.follows hperiod hascii]
  obtain ⟨first, before, behind, tail, rest, hfirst, hschema, htext, hfound⟩ :=
    replaceIndex_tokens_unclean command.valid command.follows hascii hunclean command.refers (first_not_behind rfl) name
  exact ⟨first, before, behind, tail, rest, fun t ht => command.valid t (hfirst t ht), hschema, htext, hfound⟩

/-- `formatJobTable` is right where the schema's name has no index name in it. -/
theorem formatJobTable_iff (hperiod : '.' ∉ schemaName) (htable : IsJobTable table) :
    formatJobTable (command.text schemaName) table = command.forTable schemaName table ↔ CleanBehind scriptWords none schemaName := by
  refine ⟨fun hright => ?_, fun hclean => replace_clean command _ _ hperiod scriptWords_ascii hclean htable.notInfix⟩
  by_contra hunclean
  obtain ⟨first, before, behind, tail, rest, -, hschema, htext, hfound⟩ :=
    replace_unclean command table table hperiod scriptWords_ascii hunclean
  rw [formatJobTable, hfound, MigrationCommand.forTable, htext] at hright
  simp only [List.append_assoc, List.append_cancel_left_eq] at hright
  rw [hschema] at hright
  simp only [List.append_assoc, List.append_cancel_left_eq] at hright
  exact htable.ne_index _ _ hright

/-- And `job_table_format`, by the classes of the database. -/
theorem jobTableFormat_iff (hperiod : '.' ∉ schemaName) (hpercent : '%' ∉ schemaName) (hascii : K.Ascii) (htable : IsJobTable table)
    (hquote : quoteIdent table = table) :
    jobTableFormat K quoteIdent (command.text schemaName) table = some (command.forTable schemaName table) ↔
      CleanBehind K none schemaName := by
  have hspecifier : ¬ indexStem <:+: tableSpecifier := by decide
  refine ⟨fun hright => ?_, fun hclean => ?_⟩
  · by_contra hunclean
    obtain ⟨first, before, behind, tail, rest, hfirst, hschema, htext, hfound⟩ :=
      replace_unclean command tableSpecifier nameSpecifier hperiod hascii hunclean
    have hbefore : '%' ∉ before := fun hin =>
      hpercent (hschema ▸ List.mem_append_left _ (List.mem_append_left _ hin))
    have hformat : formatOne quoteIdent table (first.flatMap (retarget schemaName tableSpecifier nameSpecifier) ++ before ++ nameSpecifier ++ tail) =
        some (command.forTable schemaName table) := hfound ▸ hright
    rw [List.append_assoc, List.append_assoc, formatOne_tokens hfirst hpercent, formatOne_append hbefore, formatOne_name,
      MigrationCommand.forTable, htext, hquote] at hformat
    obtain ⟨formatted, -, heq⟩ := Option.map_eq_some_iff.mp ((Option.map_map ..).symm.trans ((Option.map_map ..).symm.trans hformat))
    simp only [Function.comp_apply, List.append_assoc, List.append_cancel_left_eq] at heq
    rw [hschema] at heq
    simp only [List.append_assoc, List.append_cancel_left_eq] at heq
    exact htable.ne_index _ _ heq
  · have hreplaced := replace_clean command tableSpecifier nameSpecifier hperiod hascii hclean hspecifier
    have hformat : formatOne quoteIdent table (command.tokens.flatMap (retarget schemaName tableSpecifier nameSpecifier) ++ []) = _ :=
      formatOne_tokens command.valid hpercent
    rw [List.append_nil] at hformat
    rw [jobTableFormat, show ['%', '1', '$', 's'] = nameSpecifier from rfl, show ['%', '1', '$', 'I'] = tableSpecifier from rfl,
      hreplaced, hformat, hquote]
    simp [formatOne, MigrationCommand.forTable]

end Command

end PgBoss
