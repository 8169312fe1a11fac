import PgBoss.Contractor.TableFormat

/-!
# Rewriting a command's tokens

A migration command is a list of tokens around the schema's name, and rewriting it for a table replaces the references
to the base table and the names of indexes. The expressions that go over its text do the same where the schema's name
has nothing they take for an index name.
-/

namespace PgBoss

/-- `job`, and `job_i`. -/
def jobWord : List Char := ['j', 'o', 'b']

def indexStem : List Char := ['j', 'o', 'b', '_', 'i']

/-- A token of a migration command. A reference to the base table is the schema's name, a period and `job`. -/
inductive CommandToken
  | schema
  | table
  | word (chars : List Char)
  | symbol (c : Char)
  deriving DecidableEq

namespace CommandToken

def isSymbol : CommandToken → Bool
  | symbol _ => true
  | _ => false

/-- The text of a token, where the base table goes by `ref` and an index name begins with `name`. -/
def retarget (schemaName ref name : List Char) : CommandToken → List Char
  | schema => schemaName
  | table => schemaName ++ '.' :: ref
  | word chars => if indexStem.isPrefixOf chars && (chars.drop 5).head?.any Char.isDigit then name ++ chars.drop 3 else chars
  | symbol c => [c]

/-- The text of a token. -/
def text (schemaName : List Char) : CommandToken → List Char := retarget schemaName jobWord jobWord

/-- A word, which is an index name if it begins like one, or another character, which is no percent sign. -/
def Valid : CommandToken → Prop
  | word chars => chars ≠ [] ∧ (∀ c ∈ chars, isWordChar c = true) ∧
      ∀ d rest, chars = indexStem ++ d :: rest → d.isDigit = true → ∀ c ∈ rest, c.isDigit = true
  | symbol c => c.toNat < 128 ∧ isWordChar c = false ∧ c ≠ '%'
  | _ => True

/-- Tokens side by side: words and names are apart, and behind a period comes neither the schema nor a plain `job`. -/
def Follows (a b : CommandToken) : Prop :=
  (a.isSymbol = true ∨ b.isSymbol = true) ∧ (a = symbol '.' → b ≠ word jobWord ∧ b ≠ schema ∧ b ≠ table)

end CommandToken

open CommandToken

/-- A migration command. -/
structure MigrationCommand where
  tokens : List CommandToken
  valid : ∀ token ∈ tokens, token.Valid
  follows : tokens.IsChain Follows
  refers : ∃ token ∈ tokens, token = schema ∨ token = table

/-- The command in a schema. -/
def MigrationCommand.text (command : MigrationCommand) (schemaName : List Char) : List Char :=
  command.tokens.flatMap (CommandToken.text schemaName)

/-- The command for a table: its references to the base table and its index names are the table's, all else stays. -/
def MigrationCommand.forTable (command : MigrationCommand) (schemaName table : List Char) : List Char :=
  command.tokens.flatMap (retarget schemaName table table)

/-- Every `job_i` and digit of a text lies behind a word character, the first one's being `previous`. -/
def CleanBehind (K : WordClass) (previous : Option Char) (text : List Char) : Prop :=
  ∀ before d rest, text = before ++ (indexStem ++ d :: rest) → K.isDigit d = true →
    (before.getLast?.or previous).any K.isWord = true

/-- The classes are those of scripts on ASCII characters. -/
def WordClass.Ascii (K : WordClass) : Prop :=
  ∀ c : Char, c.toNat < 128 → K.isWord c = isWordChar c ∧ K.isDigit c = c.isDigit

/-- What follows a token that is no symbol: nothing, or a symbol. -/
def SymbolAhead (text : List Char) : Prop := ∀ c ∈ text.head?, c.toNat < 128 ∧ isWordChar c = false

section Scan

variable {K : WordClass} {name ref text rest : List Char} {previous : Option Char} {c d : Char}

/-- A match of the index expression. -/
def AtIndex (K : WordClass) (previous : Option Char) (text : List Char) : Prop :=
  previous.any K.isWord = false ∧ ∃ d rest, text = indexStem ++ d :: rest ∧ K.isDigit d = true

theorem replaceIndex_of_ne (h : c ≠ 'j') : replaceIndex K name previous (c :: text) = c :: replaceIndex K name (some c) text := by
  conv_lhs => unfold replaceIndex
  split
  · rename_i heq
    cases heq
    exact absurd rfl h
  · rename_i heq
    cases heq
    rfl
  · rename_i heq
    cases heq

theorem replaceIndex_job : replaceIndex K name previous (jobWord ++ text) =
    (if !previous.any K.isWord && indexBehind K text then name else jobWord) ++ replaceIndex K name (some 'b') text := by
  simp only [jobWord, List.cons_append, List.nil_append]
  rw [replaceIndex]

theorem indexBehind_iff : indexBehind K text = true ↔ ∃ d rest, text = '_' :: 'i' :: d :: rest ∧ K.isDigit d = true := by
  unfold indexBehind
  split
  · rename_i d rest
    simp
  · rename_i hother
    simp only [Bool.false_eq_true, false_iff]
    rintro ⟨d, rest, rfl, -⟩
    exact hother d rest rfl

/-- An index name found is put under the other name. -/
theorem replaceIndex_match (hprevious : previous.any K.isWord = false) (hd : K.isDigit d = true) :
    replaceIndex K name previous (indexStem ++ d :: rest) = name ++ '_' :: 'i' :: replaceIndex K name (some 'i') (d :: rest) := by
  have hbehind : indexBehind K ('_' :: 'i' :: d :: rest) = true := indexBehind_iff.mpr ⟨d, rest, rfl, hd⟩
  have hjob : indexStem ++ d :: rest = jobWord ++ '_' :: 'i' :: d :: rest := rfl
  rw [hjob, replaceIndex_job, hprevious, hbehind, replaceIndex_of_ne (by decide), replaceIndex_of_ne (by decide)]
  rfl

/-- Where none is found, the character is copied. -/
theorem replaceIndex_cons (h : ¬ AtIndex K previous (c :: text)) :
    replaceIndex K name previous (c :: text) = c :: replaceIndex K name (some c) text := by
  by_cases hj : c = 'j'
  · subst hj
    by_cases hjob : ∃ text', text = 'o' :: 'b' :: text'
    · obtain ⟨text', rfl⟩ := hjob
      have hnot : (!previous.any K.isWord && indexBehind K text') = false := by
        by_contra hmatch
        simp only [Bool.not_eq_false, Bool.and_eq_true, Bool.not_eq_true'] at hmatch
        obtain ⟨d, rest, rfl, hd⟩ := indexBehind_iff.mp hmatch.2
        exact h ⟨hmatch.1, d, rest, rfl, hd⟩
      have hcopied : replaceIndex K name previous (jobWord ++ text') = _ := replaceIndex_job
      rw [hnot] at hcopied
      rw [replaceIndex_of_ne (c := 'o') (by decide), replaceIndex_of_ne (c := 'b') (by decide)]
      exact hcopied
    · conv_lhs => unfold replaceIndex
      split
      · rename_i text' heq
        cases heq
        exact absurd ⟨text', rfl⟩ hjob
      · rename_i heq
        cases heq
        rfl
      · rename_i heq
        cases heq
  · exact replaceIndex_of_ne hj

/-- The character before what follows a text. -/
theorem last_cons (c : Char) (text : List Char) (previous : Option Char) :
    (c :: text).getLast?.or previous = text.getLast?.or (some c) := by
  cases text with
  | nil => rfl
  | cons b text =>
    rw [List.getLast?_cons_cons, List.getLast?_cons]
    rfl

theorem CleanBehind.tail (h : CleanBehind K previous (c :: text)) : CleanBehind K (some c) text := by
  intro before d rest heq hd
  rw [← last_cons c before previous]
  exact h (c :: before) d rest (by rw [heq]; rfl) hd

/-- A digit or a letter of `job_i` is no symbol. -/
theorem SymbolAhead.not_index (h : SymbolAhead rest) (hascii : K.Ascii) (hc : c ∈ indexStem ∨ K.isDigit c = true) (text : List Char) :
    rest ≠ c :: text := by
  rintro rfl
  obtain ⟨hsmall, hword⟩ := h c rfl
  rcases hc with hstem | hdigit
  · have hletters : ∀ x ∈ indexStem, isWordChar x = true := List.all_eq_true.mp rfl
    rw [hletters c hstem] at hword
    cases hword
  · rw [(hascii c hsmall).2] at hdigit
    simp [isWordChar, Char.isAlphanum, hdigit] at hword

/-- No match reaches from a text into a symbol behind it. -/
theorem AtIndex.within (text : List Char) (h : AtIndex K previous (text ++ rest)) (hascii : K.Ascii) (hahead : SymbolAhead rest) :
    AtIndex K previous text := by
  obtain ⟨hprevious, d, rest', heq, hd⟩ := h
  rcases List.append_eq_append_iff.mp heq with ⟨behind, hstem, hrest⟩ | ⟨behind, htext, hrest⟩
  · cases behind with
    | nil => exact absurd hrest (hahead.not_index hascii (.inr hd) _)
    | cons b behind =>
      have hb : b ∈ indexStem := hstem ▸ List.mem_append_right _ List.mem_cons_self
      exact absurd hrest (hahead.not_index hascii (.inl hb) _)
  · cases behind with
    | nil => exact absurd hrest.symm (hahead.not_index hascii (.inr hd) _)
    | cons b behind =>
      obtain ⟨rfl, -⟩ := List.cons.inj hrest
      exact ⟨hprevious, d, behind, htext, hd⟩

/-- A text in which nothing is found is copied, and what follows it gone on with. -/
theorem replaceIndex_clean (hclean : CleanBehind K previous text) (hascii : K.Ascii) (hahead : SymbolAhead rest) :
    replaceIndex K name previous (text ++ rest) = text ++ replaceIndex K name (text.getLast?.or previous) rest := by
  induction text generalizing previous with
  | nil => simp
  | cons c text ih =>
    have hnot : ¬ AtIndex K previous (c :: (text ++ rest)) := by
      intro hat
      obtain ⟨hprevious, d, rest', heq, hd⟩ := AtIndex.within (c :: text) hat hascii hahead
      have hword := hclean [] d rest' heq hd
      rw [List.getLast?_nil, Option.none_or, hprevious] at hword
      cases hword
    rw [List.cons_append, replaceIndex_cons hnot, ih hclean.tail, last_cons, List.cons_append]

/-- Where a text is not clean, an index name is found in it. -/
theorem replaceIndex_unclean (hunclean : ¬ CleanBehind K previous text) (hascii : K.Ascii) (hahead : SymbolAhead rest)
    (name : List Char) :
    ∃ before behind tail, text = before ++ indexStem ++ behind ∧
      replaceIndex K name previous (text ++ rest) = before ++ name ++ tail := by
  induction text generalizing previous with
  | nil =>
    refine absurd ?_ hunclean
    intro before d rest' heq
    simp [indexStem] at heq
  | cons c text ih =>
    by_cases hat : AtIndex K previous (c :: text)
    · obtain ⟨hprevious, d, rest', heq, hd⟩ := hat
      refine ⟨[], d :: rest', '_' :: 'i' :: replaceIndex K name (some 'i') (d :: (rest' ++ rest)), heq, ?_⟩
      rw [heq, List.append_assoc, List.cons_append, replaceIndex_match hprevious hd, List.nil_append]
    · have htail : ¬ CleanBehind K (some c) text := by
        refine fun hclean => hunclean fun before d rest' heq hd => ?_
        cases before with
        | nil =>
          by_contra hword
          exact hat ⟨by simpa using hword, d, rest', heq, hd⟩
        | cons b before =>
          obtain ⟨rfl, htext⟩ := List.cons.inj heq
          rw [last_cons]
          exact hclean before d rest' htext hd
      have hnot : ¬ AtIndex K previous (c :: (text ++ rest)) := fun hmatch =>
        hat (AtIndex.within (c :: text) hmatch hascii hahead)
      obtain ⟨before, behind, tail, htext, hreplaced⟩ := ih htail
      refine ⟨c :: before, behind, tail, by rw [htext]; rfl, ?_⟩
      rw [List.cons_append, replaceIndex_cons hnot, hreplaced]
      rfl

theorem replaceTable_of_ne (h : c ≠ '.') : replaceTable K ref (c :: text) = c :: replaceTable K ref text := by
  conv_lhs => unfold replaceTable
  split
  · rename_i heq
    cases heq
    exact absurd rfl h
  · rename_i heq
    cases heq
    rfl
  · rename_i heq
    cases heq

/-- A text without periods is copied. -/
theorem replaceTable_append (h : '.' ∉ text) : replaceTable K ref (text ++ rest) = text ++ replaceTable K ref rest := by
  induction text with
  | nil => rfl
  | cons c text ih =>
    rw [List.mem_cons, not_or] at h
    rw [List.cons_append, replaceTable_of_ne (Ne.symm h.1), ih h.2, List.cons_append]

theorem replaceTable_job : replaceTable K ref ('.' :: (jobWord ++ text)) =
    '.' :: (if text.head?.any K.isWord then jobWord else ref) ++ replaceTable K ref text := by
  simp only [jobWord, List.cons_append, List.nil_append]
  rw [replaceTable]
  simp

/-- A period that no `job` follows is copied. -/
theorem replaceTable_period (h : ∀ rest, text = jobWord ++ rest → rest.head?.any K.isWord = true) :
    replaceTable K ref ('.' :: text) = '.' :: replaceTable K ref text := by
  by_cases hjob : ∃ rest, text = jobWord ++ rest
  · obtain ⟨rest, rfl⟩ := hjob
    have hplain : '.' ∉ jobWord := by decide
    rw [replaceTable_job, h rest rfl, if_pos rfl, replaceTable_append hplain]
    rfl
  · conv_lhs => unfold replaceTable
    split
    · rename_i rest heq
      cases heq
      exact absurd ⟨rest, rfl⟩ hjob
    · rename_i heq
      cases heq
      rfl
    · rename_i heq
      cases heq

end Scan

section Tokens

variable {K : WordClass} {schemaName ref name : List Char} {token : CommandToken} {tokens : List CommandToken}

/-- Behind a token that is no symbol comes a symbol, if anything. -/
theorem symbolAhead (hchain : (token :: tokens).IsChain Follows) (hvalid : ∀ t ∈ tokens, t.Valid) (htoken : token.isSymbol = false) :
    SymbolAhead (tokens.flatMap (retarget schemaName ref name)) := by
  cases tokens with
  | nil => exact fun c hc => absurd hc (by simp)
  | cons next tokens =>
    have hnext : next.isSymbol = true := (List.isChain_cons_cons.mp hchain).1.1.resolve_left (by simp [htoken])
    cases next with
    | symbol c =>
      intro c' hc'
      obtain rfl : c = c' := by simpa [retarget] using hc'
      have hsymbol := hvalid (.symbol c) List.mem_cons_self
      exact ⟨hsymbol.1, hsymbol.2.1⟩
    | schema => cases hnext
    | table => cases hnext
    | word chars => cases hnext

theorem retarget_word (chars : List Char) : retarget schemaName ref name (.word chars) =
    if indexStem.isPrefixOf chars && (chars.drop 5).head?.any Char.isDigit then name ++ chars.drop 3 else chars := rfl

/-- With `job` for its beginning, an index name is as it is. -/
theorem retarget_word_job (chars : List Char) : retarget schemaName ref jobWord (.word chars) = chars := by
  rw [retarget_word]
  split_ifs with h
  · rw [Bool.and_eq_true] at h
    obtain ⟨rest, rfl⟩ := List.isPrefixOf_iff_prefix.mp h.1
    rfl
  · rfl

/-- A character behind a word or a name, if any, is no word character. -/
theorem SymbolAhead.notWord {text : List Char} (h : SymbolAhead text) (hascii : K.Ascii) : text.head?.any K.isWord = false := by
  cases text with
  | nil => rfl
  | cons c text =>
    obtain ⟨hsmall, hword⟩ := h c rfl
    rw [← (hascii c hsmall).1] at hword
    exact hword

theorem isWordChar_code {c : Char} (h : isWordChar c = true) : 48 ≤ c.toNat ∧ c.toNat < 128 := by
  simp only [isWordChar, Char.isAlphanum, Char.isAlpha, Char.isUpper, Char.isLower, Char.isDigit, Bool.or_eq_true,
    Bool.and_eq_true, decide_eq_true_eq, ge_iff_le, UInt32.le_iff_toNat_le] at h
  have hval : c.toNat = c.val.toNat := rfl
  rcases h with ((h | h) | h) | rfl
  · have hrange : 65 ≤ c.val.toNat ∧ c.val.toNat ≤ 90 := h
    omega
  · have hrange : 97 ≤ c.val.toNat ∧ c.val.toNat ≤ 122 := h
    omega
  · have hrange : 48 ≤ c.val.toNat ∧ c.val.toNat ≤ 57 := h
    omega
  · decide

theorem isWordChar_small {c : Char} (h : isWordChar c = true) : c.toNat < 128 := (isWordChar_code h).2

/-- A word other than `job` is none with what follows it either. -/
theorem word_not_job {chars rest : List Char} (hchars : ∀ c ∈ chars, isWordChar c = true)
    (hjob : chars ≠ jobWord) (hascii : K.Ascii) (hahead : SymbolAhead rest) (text : List Char) (h : chars ++ rest = jobWord ++ text) :
    text.head?.any K.isWord = true := by
  rcases List.append_eq_append_iff.mp h with ⟨behind, hword, hrest⟩ | ⟨behind, hword, hrest⟩
  · cases behind with
    | nil => exact absurd (by simpa using hword.symm) hjob
    | cons b behind =>
      have hb : isWordChar b = true := by
        have hletters : ∀ x ∈ jobWord, isWordChar x = true := List.all_eq_true.mp rfl
        exact hletters b (hword ▸ List.mem_append_right _ List.mem_cons_self)
      have hsymbol := (hahead b (by rw [hrest]; rfl)).2
      rw [hb] at hsymbol
      cases hsymbol
  · cases behind with
    | nil => exact absurd (by simpa using hword) hjob
    | cons b behind =>
      have hb : isWordChar b = true := hchars b (hword ▸ List.mem_append_right _ List.mem_cons_self)
      rw [hrest]
      exact ((hascii b (isWordChar_small hb)).1.trans hb)

/-- The references to the base table, rewritten. -/
theorem replaceTable_tokens (hvalid : ∀ t ∈ tokens, t.Valid) (hchain : tokens.IsChain Follows) (hperiod : '.' ∉ schemaName)
    (hascii : K.Ascii) : replaceTable K ref (tokens.flatMap (CommandToken.text schemaName)) = tokens.flatMap (retarget schemaName ref jobWord) := by
  induction tokens with
  | nil => rfl
  | cons token tokens ih =>
    have hbehind : ∀ t ∈ tokens, t.Valid := fun t ht => hvalid t (List.mem_cons_of_mem _ ht)
    have hrest := ih hbehind hchain.tail
    rw [List.flatMap_cons, List.flatMap_cons]
    cases token with
    | schema =>
      rw [← hrest]
      exact replaceTable_append hperiod
    | table =>
      have hahead : SymbolAhead (tokens.flatMap (CommandToken.text schemaName)) := symbolAhead hchain hbehind rfl
      have htable : CommandToken.text schemaName .table = schemaName ++ '.' :: jobWord := rfl
      rw [htable, List.append_assoc, replaceTable_append hperiod, List.cons_append, replaceTable_job, hahead.notWord hascii, hrest]
      simp [retarget]
    | word chars =>
      obtain ⟨-, hchars, -⟩ := hvalid (.word chars) List.mem_cons_self
      have hplain : '.' ∉ chars := fun hin => absurd (hchars '.' hin) (by decide)
      rw [CommandToken.text, retarget_word_job, retarget_word_job, ← hrest]
      exact replaceTable_append hplain
    | symbol c =>
      have hsymbol : CommandToken.text schemaName (.symbol c) = [c] := rfl
      rw [hsymbol, List.singleton_append, show retarget schemaName ref jobWord (.symbol c) = [c] from rfl, List.singleton_append]
      by_cases hdot : c = '.'
      · subst hdot
        rw [replaceTable_period ?_, hrest]
        intro text htext
        cases tokens with
        | nil => cases htext
        | cons next tokens =>
          obtain ⟨-, hnext⟩ := (List.isChain_cons_cons.mp hchain).1
          obtain ⟨hjob, hschema, htable⟩ := hnext rfl
          have hchain' := hchain.tail
          cases next with
          | schema => exact absurd rfl hschema
          | table => exact absurd rfl htable
          | word chars =>
            obtain ⟨-, hchars, -⟩ := hbehind (.word chars) List.mem_cons_self
            have hahead : SymbolAhead (tokens.flatMap (CommandToken.text schemaName)) :=
              symbolAhead hchain' (fun t ht => hbehind t (List.mem_cons_of_mem _ ht)) rfl
            rw [List.flatMap_cons, CommandToken.text, retarget_word_job] at htext
            exact word_not_job hchars (fun h => hjob (h ▸ rfl)) hascii hahead text htext
          | symbol c =>
            have hc := (hbehind (.symbol c) List.mem_cons_self).2.1
            obtain rfl : c = 'j' := (List.cons.inj htext).1
            exact absurd hc (by decide)
      · rw [replaceTable_of_ne hdot, hrest]

theorem CleanBehind.behind {text : List Char} {previous : Option Char} (h : CleanBehind K none text) :
    CleanBehind K previous text := by
  intro before d rest heq hd
  have hword := h before d rest heq hd
  cases hlast : before.getLast? with
  | none =>
    rw [hlast] at hword
    cases hword
  | some c =>
    rw [hlast] at hword
    exact hword

/-- What has no `job_i` is clean. -/
theorem CleanBehind.of_notInfix {text : List Char} {previous : Option Char} (h : ¬ indexStem <:+: text) : CleanBehind K previous text := by
  intro before d rest heq _
  exact absurd ⟨before, d :: rest, by rw [heq, List.append_assoc]⟩ h

/-- In a word, only its beginning is behind something else. -/
theorem CleanBehind.of_word {chars : List Char} {previous : Option Char} (hchars : ∀ c ∈ chars, isWordChar c = true) (hascii : K.Ascii)
    (hother : (indexStem.isPrefixOf chars && (chars.drop 5).head?.any Char.isDigit) = false) : CleanBehind K previous chars := by
  intro before d rest heq hd
  cases hlast : before.getLast? with
  | none =>
    obtain rfl : before = [] := List.getLast?_eq_none_iff.mp hlast
    rw [List.nil_append] at heq
    have hsmall : d.toNat < 128 := isWordChar_small (hchars d (by rw [heq]; simp))
    rw [(hascii d hsmall).2] at hd
    rw [heq, List.isPrefixOf_iff_prefix.mpr (List.prefix_append _ _)] at hother
    simp [indexStem, hd] at hother
  | some c =>
    have hc : c ∈ chars := heq ▸ List.mem_append_left _ (List.mem_of_getLast? hlast)
    exact (hascii c (isWordChar_small (hchars c hc))).1.trans (hchars c hc)

theorem index_split {chars : List Char} (h : (indexStem.isPrefixOf chars && (chars.drop 5).head?.any Char.isDigit) = true) :
    ∃ d digits, chars = indexStem ++ d :: digits ∧ d.isDigit = true := by
  rw [Bool.and_eq_true] at h
  obtain ⟨rest, rfl⟩ := List.isPrefixOf_iff_prefix.mp h.1
  cases rest with
  | nil => exact absurd h.2 (by decide)
  | cons d digits => exact ⟨d, digits, rfl, h.2⟩

theorem valid_word_iff {chars : List Char} : (word chars).Valid ↔ chars ≠ [] ∧ chars.all isWordChar = true ∧
    ((indexStem.isPrefixOf chars && (chars.drop 5).head?.any Char.isDigit) = true → (chars.drop 5).all Char.isDigit = true) := by
  rw [List.all_eq_true, List.all_eq_true]
  refine and_congr_right fun _ => and_congr_right fun _ => ⟨fun h hindex => ?_, fun h d rest heq hd => ?_⟩
  · obtain ⟨d, digits, rfl, hd⟩ := index_split hindex
    exact List.forall_mem_cons.mpr ⟨hd, h d digits rfl hd⟩
  · subst heq
    exact fun c hc => h (by simp [indexStem, hd]) c (List.mem_cons_of_mem _ hc)

instance decidableValid (token : CommandToken) : Decidable token.Valid :=
  match token with
  | .schema => .isTrue trivial
  | .table => .isTrue trivial
  | .word _ => decidable_of_iff' _ valid_word_iff
  | .symbol _ => inferInstanceAs (Decidable (_ ∧ _ ∧ _))

instance decidableFollows (a b : CommandToken) : Decidable (Follows a b) := inferInstanceAs (Decidable (_ ∧ _))

/-- A word or a symbol, rewritten, whatever the schema's name is. -/
theorem replaceIndex_token {previous : Option Char} {rest : List Char} (hvalid : token.Valid) (hplain : token ≠ .schema ∧ token ≠ .table)
    (hascii : K.Ascii) (hprevious : token.isSymbol = false → previous.any K.isWord = false) (hahead : token.isSymbol = false → SymbolAhead rest) :
    ∃ p, replaceIndex K name previous (retarget schemaName ref jobWord token ++ rest) =
        retarget schemaName ref name token ++ replaceIndex K name p rest ∧ (token.isSymbol = true → p.any K.isWord = false) := by
  cases token with
  | schema => exact absurd rfl hplain.1
  | table => exact absurd rfl hplain.2
  | word chars =>
    obtain ⟨-, hchars, hdigits⟩ := hvalid
    rw [retarget_word_job, retarget_word]
    cases hindex : indexStem.isPrefixOf chars && (chars.drop 5).head?.any Char.isDigit with
    | false =>
      rw [if_neg Bool.false_ne_true, replaceIndex_clean (CleanBehind.of_word hchars hascii hindex) hascii (hahead rfl)]
      exact ⟨_, rfl, fun h => Bool.noConfusion h⟩
    | true =>
      obtain ⟨d, digits, rfl, hd⟩ := index_split hindex
      have hnone : ¬ indexStem <:+: d :: digits := by
        intro hinfix
        have hj : 'j' ∈ d :: digits := hinfix.subset List.mem_cons_self
        have hdigit : ('j').isDigit = true := by
          rcases List.mem_cons.mp hj with rfl | hj
          · exact hd
          · exact hdigits d digits rfl hd 'j' hj
        exact absurd hdigit (by decide)
      have hclass : K.isDigit d = true := (hascii d (isWordChar_small (hchars d (by simp)))).2.trans hd
      refine ⟨(d :: digits).getLast?.or (some 'i'), ?_, fun h => Bool.noConfusion h⟩
      have hname : name ++ (indexStem ++ d :: digits).drop 3 = name ++ '_' :: 'i' :: (d :: digits) := rfl
      rw [if_pos rfl, List.append_assoc, List.cons_append, replaceIndex_match (hprevious rfl) hclass, ← List.cons_append,
        replaceIndex_clean (CleanBehind.of_notInfix hnone) hascii (hahead rfl), hname]
      simp only [List.append_assoc, List.cons_append]
  | symbol c =>
    obtain ⟨hsmall, hword, -⟩ := hvalid
    have hne : c ≠ 'j' := by
      rintro rfl
      exact absurd hword (by decide)
    exact ⟨some c, replaceIndex_of_ne hne, fun _ => (hascii c hsmall).1.trans hword⟩

/-- Behind a token, the next is a symbol, or the character before it no word character. -/
theorem previous_of_follows {p : Option Char} (hchain : (token :: tokens).IsChain Follows)
    (hsymbol : token.isSymbol = true → p.any K.isWord = false) : ∀ t ∈ tokens.head?, t.isSymbol = false → p.any K.isWord = false := by
  intro t ht hnext
  cases tokens with
  | nil => cases ht
  | cons next tokens =>
    obtain rfl : next = t := by simpa using ht
    exact hsymbol ((List.isChain_cons_cons.mp hchain).1.1.resolve_right (by simp [hnext]))

/-- The index names, rewritten, where the schema's name is clean. -/
theorem replaceIndex_tokens {previous : Option Char} (hvalid : ∀ t ∈ tokens, t.Valid) (hchain : tokens.IsChain Follows) (hascii : K.Ascii)
    (hschema : CleanBehind K none schemaName) (href : CleanBehind K (some '.') ref)
    (hprevious : ∀ t ∈ tokens.head?, t.isSymbol = false → previous.any K.isWord = false) :
    replaceIndex K name previous (tokens.flatMap (retarget schemaName ref jobWord)) = tokens.flatMap (retarget schemaName ref name) := by
  induction tokens generalizing previous with
  | nil => rfl
  | cons token tokens ih =>
    have hbehind : ∀ t ∈ tokens, t.Valid := fun t ht => hvalid t (List.mem_cons_of_mem _ ht)
    have hahead : token.isSymbol = false → SymbolAhead (tokens.flatMap (retarget schemaName ref jobWord)) :=
      symbolAhead hchain hbehind
    rw [List.flatMap_cons, List.flatMap_cons]
    by_cases hplain : token ≠ .schema ∧ token ≠ .table
    · obtain ⟨p, hreplaced, hp⟩ :=
        replaceIndex_token (hvalid token List.mem_cons_self) hplain hascii (hprevious token rfl) hahead
      rw [hreplaced, ih hbehind hchain.tail (previous_of_follows hchain hp)]
    · have hnext : ∀ p, token.isSymbol = false →
          replaceIndex K name p (tokens.flatMap (retarget schemaName ref jobWord)) = tokens.flatMap (retarget schemaName ref name) :=
        fun p htoken => ih hbehind hchain.tail (previous_of_follows hchain fun h => by simp [htoken] at h)
      rw [not_and_or, not_not, not_not] at hplain
      rcases hplain with rfl | rfl
      · have htext : ∀ n, retarget schemaName ref n .schema = schemaName := fun _ => rfl
        rw [htext, htext, replaceIndex_clean hschema.behind hascii (hahead rfl), hnext _ rfl]
      · have htext : ∀ n, retarget schemaName ref n .table = schemaName ++ '.' :: ref := fun _ => rfl
        have hperiod : SymbolAhead ('.' :: (ref ++ tokens.flatMap (retarget schemaName ref jobWord))) := by
          intro c hc
          obtain rfl : '.' = c := by simpa using hc
          decide
        rw [htext, htext, List.append_assoc, List.cons_append, replaceIndex_clean hschema.behind hascii hperiod,
          replaceIndex_of_ne (by decide), replaceIndex_clean href hascii (hahead rfl), hnext _ rfl, List.append_assoc,
          List.cons_append]

theorem CleanBehind.of_previous {text : List Char} {previous : Option Char} (hprevious : previous.any K.isWord = false)
    (h : CleanBehind K previous text) : CleanBehind K none text := by
  intro before d rest heq hd
  have hword := h before d rest heq hd
  cases hlast : before.getLast? with
  | none =>
    rw [hlast, Option.none_or, hprevious] at hword
    cases hword
  | some c =>
    rw [hlast] at hword
    exact hword

/-- Where it is not, an index name is found in its first occurrence. -/
theorem replaceIndex_tokens_unclean {previous : Option Char} (hvalid : ∀ t ∈ tokens, t.Valid) (hchain : tokens.IsChain Follows)
    (hascii : K.Ascii) (hunclean : ¬ CleanBehind K none schemaName) (hrefers : ∃ t ∈ tokens, t = .schema ∨ t = .table)
    (hprevious : ∀ t ∈ tokens.head?, t.isSymbol = false → previous.any K.isWord = false) (name : List Char) :
    ∃ (first : List CommandToken) (before behind tail : List Char) (rest : List Char → List Char → List Char),
      (∀ t ∈ first, t ∈ tokens) ∧ schemaName = before ++ indexStem ++ behind ∧
      (∀ ref' name', tokens.flatMap (retarget schemaName ref' name') =
        first.flatMap (retarget schemaName ref' name') ++ schemaName ++ rest ref' name') ∧
      replaceIndex K name previous (tokens.flatMap (retarget schemaName ref jobWord)) =
        first.flatMap (retarget schemaName ref name) ++ before ++ name ++ tail := by
  induction tokens generalizing previous with
  | nil =>
    obtain ⟨t, ht, -⟩ := hrefers
    cases ht
  | cons token tokens ih =>
    have hbehind : ∀ t ∈ tokens, t.Valid := fun t ht => hvalid t (List.mem_cons_of_mem _ ht)
    have hahead : token.isSymbol = false → SymbolAhead (tokens.flatMap (retarget schemaName ref jobWord)) :=
      symbolAhead hchain hbehind
    by_cases hplain : token ≠ .schema ∧ token ≠ .table
    · have hrefers' : ∃ t ∈ tokens, t = .schema ∨ t = .table := by
        obtain ⟨t, ht, hname⟩ := hrefers
        rcases List.mem_cons.mp ht with rfl | ht
        · exact absurd hname (not_or.mpr hplain)
        · exact ⟨t, ht, hname⟩
      obtain ⟨p, hreplaced, hp⟩ :=
        replaceIndex_token (hvalid token List.mem_cons_self) hplain hascii (hprevious token rfl) hahead
      obtain ⟨first, before, behind, tail, rest, hfirst, hschema, htext, hfound⟩ :=
        ih hbehind hchain.tail hrefers' (previous_of_follows hchain hp)
      refine ⟨token :: first, before, behind, tail, rest, fun t ht => ?_, hschema, fun ref' name' => ?_, ?_⟩
      · exact (List.mem_cons.mp ht).elim (fun h => h ▸ List.mem_cons_self) fun h => List.mem_cons_of_mem _ (hfirst t h)
      · rw [List.flatMap_cons, List.flatMap_cons, htext]
        simp only [List.append_assoc]
      · rw [List.flatMap_cons, List.flatMap_cons, hreplaced, hfound]
        simp only [List.append_assoc]
    · rw [not_and_or, not_not, not_not] at hplain
      have hsymbol : token.isSymbol = false := by rcases hplain with rfl | rfl <;> rfl
      have hunclean' : ¬ CleanBehind K previous schemaName :=
        fun h => hunclean (h.of_previous (hprevious token rfl hsymbol))
      -- the schema's name is the head's text, or its beginning
      obtain ⟨rest, hrest, hsymbols⟩ : ∃ rest : List Char → List Char → List Char,
          (∀ ref' name', (token :: tokens).flatMap (retarget schemaName ref' name') = schemaName ++ rest ref' name') ∧
            SymbolAhead (rest ref jobWord) := by
        rcases hplain with rfl | rfl
        · exact ⟨fun ref' name' => tokens.flatMap (retarget schemaName ref' name'), fun _ _ => List.flatMap_cons, hahead rfl⟩
        · refine ⟨fun ref' name' => '.' :: (ref' ++ tokens.flatMap (retarget schemaName ref' name')), fun ref' name' => ?_,
            fun c hc => ?_⟩
          · rw [List.flatMap_cons, show retarget schemaName ref' name' .table = schemaName ++ '.' :: ref' from rfl,
              List.append_assoc, List.cons_append]
          · obtain rfl : '.' = c := by simpa using hc
            decide
      obtain ⟨before, behind, tail, hschema, hfound⟩ := replaceIndex_unclean hunclean' hascii hsymbols name
      exact ⟨[], before, behind, tail, rest, fun t ht => absurd ht List.not_mem_nil, hschema, hrest, by rw [hrest, hfound]; rfl⟩

end Tokens

end PgBoss
