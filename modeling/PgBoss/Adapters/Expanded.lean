import PgBoss.Adapters.Placeholders
import PgBoss.Sql.Lexer

/-!
# Placeholder rewriting, token by token

What rewriting the placeholder tokens of a statement is, read off PostgreSQL's lexer, against what the scan for `$N`
does. They come to the same where every `$N` is a token.
-/

namespace PgBoss

open Sql

variable {V : Type*} {values : Option (List (Bound V))} {s : LexState} {text rest digits : List Char} {n : ℕ} {c : Char}

/-- The digits behind a `$`, all of them. -/
structure IsNumber (digits rest : List Char) : Prop where
  some : digits ≠ []
  digits : ∀ d ∈ digits, d.isDigit = true
  whole : ∀ c ∈ rest.head?, c.isDigit = false

/-- A placeholder token begins here. -/
def AtPlaceholder (s : LexState) (c : Char) (text : List Char) : Prop :=
  c = '$' ∧ s.beginsPlaceholder ∧ ∃ digits rest, text = digits ++ rest ∧ IsNumber digits rest

/-- A statement rewritten behind `n` parameters: each placeholder token is the next parameter, with its value, or, where
that is an array with an array cast, an `ARRAY` constructor of the next parameters, with its elements; nothing else
changes. -/
inductive Expands (values : Option (List (Bound V))) : LexState → List Char → ℕ → List Char → List (Bound V) → Prop
  | nil {s : LexState} {n : ℕ} : Expands values s [] n [] []
  | keep {s : LexState} {c : Char} {text : List Char} {n : ℕ} {out : List Char} {expanded : List (Bound V)}
      (hother : ¬ AtPlaceholder s c text) (h : Expands values (s.next c) text n out expanded) :
      Expands values s (c :: text) n (c :: out) expanded
  | param {s : LexState} {digits rest : List Char} {n : ℕ} {out : List Char} {expanded : List (Bound V)}
      (hbegins : s.beginsPlaceholder) (hnumber : IsNumber digits rest)
      (hone : ∀ elements, boundAt values digits = .array elements → arrayCast rest = false)
      (h : Expands values .param rest (n + 1) out expanded) :
      Expands values s ('$' :: (digits ++ rest)) n (paramText (n + 1) ++ out) (boundAt values digits :: expanded)
  | array {s : LexState} {digits rest : List Char} {n : ℕ} {out : List Char} {expanded : List (Bound V)}
      {elements : List (Bound V)} (hbegins : s.beginsPlaceholder) (hnumber : IsNumber digits rest)
      (helements : boundAt values digits = .array elements) (hcast : arrayCast rest = true)
      (h : Expands values .param rest (n + elements.length) out expanded) :
      Expands values s ('$' :: (digits ++ rest)) n (arrayText (paramTexts n elements.length) ++ out) (elements ++ expanded)

/-- A statement's parts and values: with the placeholder tokens in between, the parts are the statement. -/
inductive Parses (values : Option (List (Bound V))) : LexState → List Char → List (List Char) → List (Bound V) → Prop
  | nil {s : LexState} : Parses values s [] [[]] []
  | keep {s : LexState} {c : Char} {text part : List Char} {parts : List (List Char)} {reordered : List (Bound V)}
      (hother : ¬ AtPlaceholder s c text) (h : Parses values (s.next c) text (part :: parts) reordered) :
      Parses values s (c :: text) ((c :: part) :: parts) reordered
  | param {s : LexState} {digits rest : List Char} {parts : List (List Char)} {reordered : List (Bound V)}
      (hbegins : s.beginsPlaceholder) (hnumber : IsNumber digits rest) (h : Parses values .param rest parts reordered) :
      Parses values s ('$' :: (digits ++ rest)) ([] :: parts) (boundAt values digits :: reordered)

/-- Every `$` with a digit behind it begins a placeholder token. -/
def OnlyPlaceholders (s : LexState) (text : List Char) : Prop :=
  ∀ before d rest, text = before ++ '$' :: d :: rest → d.isDigit = true → (s.after before).beginsPlaceholder

section Scan

theorem IsNumber.takeWhile (h : IsNumber digits rest) : (digits ++ rest).takeWhile Char.isDigit = digits := by
  rw [List.takeWhile_append_of_pos h.digits]
  cases rest with
  | nil => simp
  | cons c rest =>
    have hc : c.isDigit = false := h.whole c rfl
    simp [hc]

theorem IsNumber.dropWhile (h : IsNumber digits rest) : (digits ++ rest).dropWhile Char.isDigit = rest := by
  rw [List.dropWhile_append_of_pos h.digits]
  cases rest with
  | nil => rfl
  | cons c rest =>
    have hc : c.isDigit = false := h.whole c rfl
    simp [hc]

/-- A text begins with a number or no digit. -/
theorem isNumber_takeWhile (hsome : text.takeWhile Char.isDigit ≠ []) :
    IsNumber (text.takeWhile Char.isDigit) (text.dropWhile Char.isDigit) := by
  refine ⟨hsome, fun d hd => List.mem_takeWhile_imp hd, fun c hc => ?_⟩
  have hhead := List.head?_dropWhile_not Char.isDigit text
  rw [Option.mem_def.mp hc] at hhead
  simpa using hhead

theorem exec_match (h : IsNumber digits rest) : execPlaceholder ('$' :: (digits ++ rest)) = some ([], digits, rest) := by
  rw [execPlaceholder, h.takeWhile, h.dropWhile, if_pos ⟨rfl, h.some⟩]

theorem parse_nil : parsePlaceholders values [] = ([[]], []) := by
  rw [parsePlaceholders]
  rfl

theorem parse_match (values : Option (List (Bound V))) (h : IsNumber digits rest) :
    parsePlaceholders values ('$' :: (digits ++ rest)) =
      ([] :: (parsePlaceholders values rest).1, boundAt values digits :: (parsePlaceholders values rest).2) := by
  rw [parsePlaceholders]
  split
  · rename_i hnone
    rw [exec_match h] at hnone
    cases hnone
  · rename_i before digits' rest' hsome
    rw [exec_match h] at hsome
    cases hsome
    rfl

/-- A character that begins no match is put before the first part of what follows it. -/
theorem parse_keep (values : Option (List (Bound V))) (h : ¬ (c = '$' ∧ text.takeWhile Char.isDigit ≠ [])) :
    ∃ part parts reordered, parsePlaceholders values text = (part :: parts, reordered) ∧
      parsePlaceholders values (c :: text) = ((c :: part) :: parts, reordered) := by
  have hexec : execPlaceholder (c :: text) =
      (execPlaceholder text).map fun found => (c :: found.1, found.2.1, found.2.2) := by
    rw [execPlaceholder, if_neg h]
  cases htext : execPlaceholder text with
  | none =>
    rw [htext] at hexec
    refine ⟨text, [], [], ?_, ?_⟩ <;> rw [parsePlaceholders] <;> split <;> simp_all
  | some result =>
    obtain ⟨before, digits, rest⟩ := result
    rw [htext] at hexec
    refine ⟨before, (parsePlaceholders values rest).1, boundAt values digits :: (parsePlaceholders values rest).2, ?_, ?_⟩ <;>
      rw [parsePlaceholders] <;> split <;> simp_all

theorem brackets_part (part more : List Char) :
    ['[', ']'].isPrefixOf ((part ++ '$' :: more).dropWhile isTypeChar) = ['[', ']'].isPrefixOf (part.dropWhile isTypeChar) := by
  have hdollar : isTypeChar '$' = false := by decide
  induction part with
  | nil => simp [hdollar, List.isPrefixOf]
  | cons x part ih =>
    rw [List.cons_append, List.dropWhile_cons, List.dropWhile_cons]
    split_ifs
    · exact ih
    · cases part <;> simp [List.isPrefixOf]

/-- The cast of a parameter lies in the part before the next match. -/
theorem arrayCast_part (part more : List Char) : arrayCast (part ++ '$' :: more) = arrayCast part := by
  match part with
  | [] => rfl
  | [a] =>
    by_cases ha : a = ':'
    · subst ha; rfl
    · simp [arrayCast, ha]
  | [a, b] =>
    by_cases ha : a = ':'
    · by_cases hb : b = ':'
      · subst ha hb
        rfl
      · simp [arrayCast, hb]
    · simp [arrayCast, ha]
  | a :: b :: c :: part =>
    by_cases ha : a = ':'
    · by_cases hb : b = ':'
      · subst ha hb
        exact congrArg (isTypeStart c && ·) (brackets_part part more)
      · simp [arrayCast, hb]
    · simp [arrayCast, ha]

/-- The first part of a text is the text up to a `$`. -/
theorem parse_first (values : Option (List (Bound V))) (text : List Char) :
    ∃ part parts reordered, parsePlaceholders values text = (part :: parts, reordered) ∧
      (text = part ∨ ∃ more, text = part ++ '$' :: more) := by
  induction text with
  | nil => exact ⟨[], [], [], parse_nil, .inl rfl⟩
  | cons c text ih =>
    by_cases hmatch : c = '$' ∧ text.takeWhile Char.isDigit ≠ []
    · obtain ⟨rfl, hsome⟩ := hmatch
      have hparse := parse_match values (isNumber_takeWhile hsome)
      rw [List.takeWhile_append_dropWhile] at hparse
      exact ⟨[], _, _, hparse, .inr ⟨text, rfl⟩⟩
    · obtain ⟨part, parts, reordered, hparse, hparse'⟩ := parse_keep values hmatch
      obtain ⟨part', parts', reordered', hparse'', hpart⟩ := ih
      rw [hparse] at hparse''
      cases hparse''
      refine ⟨c :: part, parts, reordered, hparse', ?_⟩
      rcases hpart with rfl | ⟨more, rfl⟩
      · exact .inl rfl
      · exact .inr ⟨more, rfl⟩

/-- The first part of a text has its cast. -/
theorem arrayCast_parse {part : List Char} {parts : List (List Char)} {reordered : List (Bound V)}
    (h : parsePlaceholders values text = (part :: parts, reordered)) : arrayCast part = arrayCast text := by
  obtain ⟨part', parts', reordered', hparse, hpart⟩ := parse_first values text
  rw [h] at hparse
  cases hparse
  rcases hpart with rfl | ⟨more, rfl⟩
  · rfl
  · exact (arrayCast_part part more).symm

end Scan

section Expand

/-- `expandArrayParams` behind `n` parameters. -/
def expandAfter (values : Option (List (Bound V))) (n : ℕ) (text : List Char) : List Char × List (Bound V) :=
  match parsePlaceholders values text with
  | (part :: parts, reordered) => (part ++ (expandFrom n parts reordered).1, (expandFrom n parts reordered).2)
  | ([], _) => ([], [])

theorem expandAfter_nil : expandAfter values n [] = ([], []) := by
  rw [expandAfter, parse_nil]
  rfl

theorem expandAfter_keep (h : ¬ (c = '$' ∧ text.takeWhile Char.isDigit ≠ [])) :
    expandAfter values n (c :: text) = (c :: (expandAfter values n text).1, (expandAfter values n text).2) := by
  obtain ⟨part, parts, reordered, hparse, hparse'⟩ := parse_keep values h
  rw [expandAfter, expandAfter, hparse, hparse']
  rfl

theorem expandOne_cast (value : Bound V) {part : List Char} (h : arrayCast part = arrayCast text) :
    expandOne n value part = expandOne n value text := by
  unfold expandOne
  rw [h]

theorem expandAfter_match (h : IsNumber digits rest) :
    expandAfter values n ('$' :: (digits ++ rest)) =
      ((expandOne n (boundAt values digits) rest).1 ++
          (expandAfter values (n + (expandOne n (boundAt values digits) rest).2.length) rest).1,
        (expandOne n (boundAt values digits) rest).2 ++
          (expandAfter values (n + (expandOne n (boundAt values digits) rest).2.length) rest).2) := by
  obtain ⟨part, parts, reordered, hparse, -⟩ := parse_first values rest
  rw [expandAfter, parse_match values h, expandAfter, hparse]
  simp only [List.nil_append, expandFrom, expandOne_cast _ (arrayCast_parse hparse), List.append_assoc]

/-- A value is put in as the next parameter, or as an array of the next ones. -/
theorem expandOne_cases (n : ℕ) (value : Bound V) (rest : List Char) :
    (∃ elements, value = .array elements ∧ arrayCast rest = true ∧
        expandOne n value rest = (arrayText (paramTexts n elements.length), elements)) ∨
      (∀ elements, value = .array elements → arrayCast rest = false) ∧ expandOne n value rest = (paramText (n + 1), [value]) := by
  cases value with
  | undefined => exact .inr ⟨nofun, rfl⟩
  | scalar value => exact .inr ⟨nofun, rfl⟩
  | array elements =>
    cases hcast : arrayCast rest with
    | true => exact .inl ⟨elements, rfl, rfl, by simp [expandOne, hcast]⟩
    | false => exact .inr ⟨fun _ _ => rfl, by simp [expandOne, hcast]⟩

theorem OnlyPlaceholders.cons (h : OnlyPlaceholders s (c :: text)) : OnlyPlaceholders (s.next c) text := by
  rintro before d rest rfl hd
  exact h (c :: before) d rest rfl hd

theorem OnlyPlaceholders.append {before : List Char} (h : OnlyPlaceholders s (before ++ text)) : OnlyPlaceholders (s.after before) text := by
  rintro before' d rest rfl hd
  rw [← LexState.after_append]
  exact h (before ++ before') d rest (by simp) hd

/-- Behind a number that is a placeholder, the lexer is where the next one leaves it. -/
theorem OnlyPlaceholders.behind (h : OnlyPlaceholders s ('$' :: (digits ++ rest))) (hnumber : IsNumber digits rest) :
    s.beginsPlaceholder ∧ OnlyPlaceholders .param rest := by
  obtain ⟨d, digits', rfl⟩ := List.exists_cons_of_ne_nil hnumber.some
  have hbegins : s.beginsPlaceholder := h [] d _ rfl (hnumber.digits d List.mem_cons_self)
  refine ⟨hbegins, ?_⟩
  rw [← LexState.after_placeholder hbegins hnumber.some hnumber.digits]
  exact OnlyPlaceholders.append h

theorem OnlyPlaceholders.of_cons (h : OnlyPlaceholders (s.next c) text) (hfirst : ¬ (c = '$' ∧ text.takeWhile Char.isDigit ≠ [])) :
    OnlyPlaceholders s (c :: text) := by
  intro before d rest heq hd
  cases before with
  | nil =>
    cases heq
    refine absurd ⟨rfl, ?_⟩ hfirst
    simp [hd]
  | cons b before =>
    cases heq
    exact h before d rest rfl hd

theorem OnlyPlaceholders.of_behind (h : OnlyPlaceholders .param rest) (hbegins : s.beginsPlaceholder) (hnumber : IsNumber digits rest) :
    OnlyPlaceholders s ('$' :: (digits ++ rest)) := by
  intro before d rest' heq hd
  cases before with
  | nil => exact hbegins
  | cons b before =>
    obtain ⟨rfl, htail⟩ := List.cons.inj heq
    obtain ⟨before', rfl, hrest⟩ : ∃ before', before = digits ++ before' ∧ rest = before' ++ '$' :: d :: rest' := by
      rcases List.append_eq_append_iff.mp htail with ⟨before', hbefore, hrest⟩ | ⟨between, hdigits, hrest⟩
      · exact ⟨before', hbefore, hrest⟩
      · cases between with
        | nil => exact ⟨[], by simpa using hdigits.symm, by simpa using hrest.symm⟩
        | cons b between =>
          obtain ⟨rfl, -⟩ := List.cons.inj hrest
          have hdollar : ('$').isDigit = true := hnumber.digits '$' (hdigits ▸ List.mem_append_right _ List.mem_cons_self)
          exact absurd hdollar (by decide)
    have hafter : s.after ('$' :: (digits ++ before')) = LexState.param.after before' := by
      rw [← List.cons_append, LexState.after_append, LexState.after_placeholder hbegins hnumber.some hnumber.digits]
    rw [hafter]
    exact h before' d rest' hrest hd

theorem length_behind (digits rest : List Char) : rest.length < ('$' :: (digits ++ rest)).length := by
  rw [List.length_cons, List.length_append]
  omega

/-- A text begins with a match or it does not. -/
theorem text_cases (c : Char) (text : List Char) :
    (∃ digits rest, c = '$' ∧ text = digits ++ rest ∧ IsNumber digits rest) ∨ ¬ (c = '$' ∧ text.takeWhile Char.isDigit ≠ []) := by
  by_cases hmatch : c = '$' ∧ text.takeWhile Char.isDigit ≠ []
  · exact .inl ⟨_, _, hmatch.1, List.takeWhile_append_dropWhile.symm, isNumber_takeWhile hmatch.2⟩
  · exact .inr hmatch

theorem not_atPlaceholder (h : ¬ (c = '$' ∧ text.takeWhile Char.isDigit ≠ [])) : ¬ AtPlaceholder s c text := by
  rintro ⟨hdollar, -, digits, rest, rfl, hnumber⟩
  exact h ⟨hdollar, by rw [hnumber.takeWhile]; exact hnumber.some⟩

/-- Where every match is a token, the tokens are rewritten. -/
theorem expandAfter_expands (text : List Char) : ∀ s n, OnlyPlaceholders s text →
    Expands values s text n (expandAfter values n text).1 (expandAfter values n text).2 := by
  induction hlength : text.length using Nat.strong_induction_on generalizing text with
  | _ length ih =>
    intro s n honly
    cases text with
    | nil =>
      rw [expandAfter_nil]
      exact .nil
    | cons c text =>
      subst hlength
      rcases text_cases c text with ⟨digits, rest, rfl, rfl, hnumber⟩ | hother
      · obtain ⟨hbegins, hrest⟩ := honly.behind hnumber
        have hshorter := length_behind digits rest
        rw [expandAfter_match hnumber]
        rcases expandOne_cases n (boundAt values digits) rest with ⟨elements, hvalue, hcast, hone⟩ | ⟨hone', hone⟩ <;> rw [hone]
        · exact .array hbegins hnumber hvalue hcast (ih _ hshorter rest rfl _ _ hrest)
        · exact .param hbegins hnumber hone' (ih _ hshorter rest rfl _ _ hrest)
      · rw [expandAfter_keep hother]
        exact .keep (not_atPlaceholder hother) (ih _ (Nat.lt_succ_self _) text rfl _ _ honly.cons)

theorem parsePlaceholders_parses (text : List Char) : ∀ s, OnlyPlaceholders s text →
    Parses values s text (parsePlaceholders values text).1 (parsePlaceholders values text).2 := by
  induction hlength : text.length using Nat.strong_induction_on generalizing text with
  | _ length ih =>
    intro s honly
    cases text with
    | nil =>
      rw [parse_nil]
      exact .nil
    | cons c text =>
      subst hlength
      rcases text_cases c text with ⟨digits, rest, rfl, rfl, hnumber⟩ | hother
      · obtain ⟨hbegins, hrest⟩ := honly.behind hnumber
        have hshorter := length_behind digits rest
        rw [parse_match values hnumber]
        exact .param hbegins hnumber (ih _ hshorter rest rfl _ hrest)
      · obtain ⟨part, parts, reordered, hparse, hparse'⟩ := parse_keep values hother
        have htail := ih _ (Nat.lt_succ_self _) text rfl _ honly.cons
        rw [hparse] at htail
        rw [hparse']
        exact .keep (not_atPlaceholder hother) htail

end Expand

section Only

theorem IsNumber.unique {digits' rest' : List Char} (h : IsNumber digits rest) (h' : IsNumber digits' rest')
    (heq : digits' ++ rest' = digits ++ rest) : digits' = digits ∧ rest' = rest := by
  have hdigits : digits' = digits := by rw [← h'.takeWhile, heq, h.takeWhile]
  subst hdigits
  exact ⟨rfl, List.append_cancel_left heq⟩

/-- Digits that are no placeholder's are kept. -/
theorem Expands.behind {out : List Char} {expanded : List (Bound V)} (hdigits : ∀ d ∈ digits, d.isDigit = true)
    (h : Expands values s (digits ++ rest) n out expanded) : ∃ s' out', Expands values s' rest n out' expanded := by
  induction digits generalizing s out with
  | nil => exact ⟨s, out, h⟩
  | cons d digits ih =>
    have hd : d.isDigit = true := hdigits d List.mem_cons_self
    have hne : d ≠ '$' := by rintro rfl; exact absurd hd (by decide)
    generalize htext : (d :: digits) ++ rest = text at h
    cases h with
    | nil => cases htext
    | keep hother h =>
      cases htext
      exact ih (fun d' hd' => hdigits d' (List.mem_cons_of_mem _ hd')) h
    | param => exact absurd (List.cons.inj htext).1 hne
    | array => exact absurd (List.cons.inj htext).1 hne

/-- Where no match begins, the character is kept. -/
theorem Expands.keep_inv {out : List Char} {expanded : List (Bound V)} (hother : ¬ (c = '$' ∧ text.takeWhile Char.isDigit ≠ []))
    (h : Expands values s (c :: text) n out expanded) : ∃ out', out = c :: out' ∧ Expands values (s.next c) text n out' expanded := by
  cases h with
  | keep _ h => exact ⟨_, rfl, h⟩
  | param _ hnumber => exact absurd ⟨rfl, by rw [hnumber.takeWhile]; exact hnumber.some⟩ hother
  | array _ hnumber => exact absurd ⟨rfl, by rw [hnumber.takeWhile]; exact hnumber.some⟩ hother

/-- Where one does, it is a token and rewritten, or it is none, and kept. -/
theorem Expands.match_inv {out : List Char} {expanded : List (Bound V)} (hnumber : IsNumber digits rest)
    (h : Expands values s ('$' :: (digits ++ rest)) n out expanded) :
    (s.beginsPlaceholder ∧ ∃ out' expanded', out = (expandOne n (boundAt values digits) rest).1 ++ out' ∧
        expanded = (expandOne n (boundAt values digits) rest).2 ++ expanded' ∧
        Expands values .param rest (n + (expandOne n (boundAt values digits) rest).2.length) out' expanded') ∨
      ∃ out', out = '$' :: out' ∧ ∃ s' out'', Expands values s' rest n out'' expanded := by
  generalize htext : digits ++ rest = text at h
  cases h with
  | keep _ h =>
    subst htext
    exact .inr ⟨_, rfl, h.behind hnumber.digits⟩
  | param hbegins hnumber' hone h =>
    obtain ⟨rfl, rfl⟩ := hnumber.unique hnumber' htext.symm
    refine .inl ⟨hbegins, ?_⟩
    rcases expandOne_cases n (boundAt values _) _ with ⟨elements, hvalue, hcast, -⟩ | ⟨-, heq⟩
    · rw [hone elements hvalue] at hcast
      cases hcast
    · rw [heq]
      exact ⟨_, _, rfl, rfl, h⟩
  | array hbegins hnumber' helements hcast h =>
    obtain ⟨rfl, rfl⟩ := hnumber.unique hnumber' htext.symm
    refine .inl ⟨hbegins, ?_⟩
    rcases expandOne_cases n (boundAt values _) _ with ⟨elements', hvalue, -, heq⟩ | ⟨hnone, -⟩
    · obtain rfl := Bound.array.inj (helements.symm.trans hvalue)
      rw [heq]
      exact ⟨_, _, rfl, rfl, h⟩
    · rw [hnone _ helements] at hcast
      cases hcast

/-- Rewriting the tokens binds no more values than rewriting the matches. -/
theorem Expands.length_le (text : List Char) : ∀ {s n out} (n' : ℕ) {expanded : List (Bound V)}, Expands values s text n out expanded →
    expanded.length ≤ (expandAfter values n' text).2.length := by
  induction hlength : text.length using Nat.strong_induction_on generalizing text with
  | _ length ih =>
    intro s n out n' expanded h
    cases text with
    | nil =>
      cases h
      exact Nat.zero_le _
    | cons c text =>
      subst hlength
      rcases text_cases c text with ⟨digits, rest, rfl, rfl, hnumber⟩ | hother
      · have hshorter := length_behind digits rest
        have hsame : (expandOne n' (boundAt values digits) rest).2 = (expandOne n (boundAt values digits) rest).2 := by
          unfold expandOne
          split
          · split <;> rfl
          · rfl
        rw [expandAfter_match hnumber, List.length_append, hsame]
        rcases h.match_inv hnumber with ⟨-, out', expanded', -, rfl, htail⟩ | ⟨out', -, s', out'', htail⟩
        · rw [List.length_append]
          exact Nat.add_le_add_left (ih _ hshorter rest rfl _ htail) _
        · exact (ih _ hshorter rest rfl _ htail).trans (Nat.le_add_left _ _)
      · obtain ⟨out', -, h⟩ := h.keep_inv hother
        rw [expandAfter_keep hother]
        exact ih _ (Nat.lt_succ_self _) text rfl _ h

/-- Where the matches are rewritten as the tokens are, each is one. -/
theorem expands_only (text : List Char) : ∀ s n,
    Expands values s text n (expandAfter values n text).1 (expandAfter values n text).2 → OnlyPlaceholders s text := by
  induction hlength : text.length using Nat.strong_induction_on generalizing text with
  | _ length ih =>
    intro s n h
    cases text with
    | nil =>
      intro before d rest heq
      cases before <;> cases heq
    | cons c text =>
      subst hlength
      rcases text_cases c text with ⟨digits, rest, rfl, rfl, hnumber⟩ | hother
      · have hshorter := length_behind digits rest
        rw [expandAfter_match hnumber] at h
        rcases h.match_inv hnumber with ⟨hbegins, out', expanded', hout, hexpanded, h⟩ | ⟨out', hout, s', out'', h⟩
        · rw [← List.append_cancel_left hout, ← List.append_cancel_left hexpanded] at h
          exact (ih _ hshorter rest rfl _ _ h).of_behind hbegins hnumber
        · rcases expandOne_cases n (boundAt values digits) rest with ⟨elements, -, -, hone⟩ | ⟨-, hone⟩
          · -- an array's text begins otherwise
            rw [hone] at hout
            cases hout
          · -- one value more than the tokens can have
            have hle := h.length_le rest (n + 1)
            simp only [hone, List.length_append, List.length_singleton] at hle
            omega
      · rw [expandAfter_keep hother] at h
        obtain ⟨out', hout, h⟩ := h.keep_inv hother
        cases hout
        exact (ih _ (Nat.lt_succ_self _) text rfl _ _ h).of_cons hother

/-- An empty first part is that before a token. -/
theorem Parses.match_inv {parts : List (List Char)} {value : Bound V} {reordered : List (Bound V)} (hnumber : IsNumber digits rest)
    (h : Parses values s ('$' :: (digits ++ rest)) ([] :: parts) (value :: reordered)) :
    s.beginsPlaceholder ∧ Parses values .param rest parts reordered := by
  generalize htext : digits ++ rest = text at h
  cases h with
  | param hbegins hnumber' h =>
    obtain ⟨rfl, rfl⟩ := hnumber.unique hnumber' htext.symm
    exact ⟨hbegins, h⟩

theorem parses_only (text : List Char) : ∀ s,
    Parses values s text (parsePlaceholders values text).1 (parsePlaceholders values text).2 → OnlyPlaceholders s text := by
  induction hlength : text.length using Nat.strong_induction_on generalizing text with
  | _ length ih =>
    intro s h
    cases text with
    | nil =>
      intro before d rest heq
      cases before <;> cases heq
    | cons c text =>
      subst hlength
      rcases text_cases c text with ⟨digits, rest, rfl, rfl, hnumber⟩ | hother
      · have hshorter := length_behind digits rest
        rw [parse_match values hnumber] at h
        obtain ⟨hbegins, htail⟩ := h.match_inv hnumber
        exact (ih _ hshorter rest rfl _ htail).of_behind hbegins hnumber
      · obtain ⟨part, parts, reordered, hparse, hparse'⟩ := parse_keep values hother
        rw [hparse'] at h
        have htail := ih _ (Nat.lt_succ_self _) text rfl (s.next c)
        rw [hparse] at htail
        cases h with
        | keep _ h => exact (htail h).of_cons hother

/-- Rewriting and splitting do what they should with exactly the statements each of whose `$N` is a placeholder token. -/
theorem placeholders_iff (values : Option (List (Bound V))) (text : List Char) :
    (Expands values .code text 0 (expandArrayParams values text).1 (expandArrayParams values text).2 ↔ OnlyPlaceholders .code text) ∧
      (Parses values .code text (parsePlaceholders values text).1 (parsePlaceholders values text).2 ↔ OnlyPlaceholders .code text) :=
  ⟨⟨expands_only text .code 0, expandAfter_expands text .code 0⟩, parses_only text .code, parsePlaceholders_parses text .code⟩

/-- In `SELECT '$2', $1` the literal is rewritten too. -/
theorem expandArrayParams_literal :
    ¬ Expands (some [Bound.scalar true, .scalar false]) .code "SELECT '$2', $1".toList 0
      (expandArrayParams (some [Bound.scalar true, .scalar false]) "SELECT '$2', $1".toList).1
      (expandArrayParams (some [Bound.scalar true, .scalar false]) "SELECT '$2', $1".toList).2 := by
  intro h
  have honly := expands_only _ _ _ h "SELECT '".toList '2' "', $1".toList (by decide) (by decide)
  exact absurd honly (by decide)

end Only

end PgBoss
