import PgBoss.Plans.Settle
import PgBoss.Numerals.Hex

/-!
# Spellings of an id

Ids travel as text. The database writes a uuid in lower case with hyphens, and reads one in
either case, in braces or not, with a hyphen after any four digits or none. The attempt fence
compares texts, so its parameter is built from `canonicalUuid`; the row's side is what the
database writes.
-/

namespace PgBoss

open Numerals

/-- `8-4-4-4-12`. -/
def hyphenated (hex : List Char) : List Char :=
  ['-'].intercalate [hex.take 8, (hex.drop 8).take 4, (hex.drop 12).take 4, (hex.drop 16).take 4, hex.drop 20]

/-- `id::text`. -/
def uuidText (id : Uuid) : String := String.ofList (hyphenated ((hexDigits 32 id.val).map hexChar))

/-- A hyphen the database skips. -/
def skipHyphen : List Char → List Char
  | '-' :: rest => rest
  | src => src

/-- The database reads the digits left of a uuid, a hyphen allowed after each four but the last. -/
def readDigits : ℕ → List Char → Option (List ℕ × List Char)
  | 0, src => some ([], src)
  | _ + 1, [] => none
  | left + 1, c :: rest =>
    (hexDigit c).bind fun d =>
      (readDigits left (if left % 4 = 0 ∧ left ≠ 0 then skipHyphen rest else rest)).map fun out =>
        (d :: out.1, out.2)

/-- What follows an opening brace, and what has to follow the digits then. -/
def openBrace : List Char → List Char × List Char
  | '\x7b' :: src => (src, ['\x7d'])
  | src => (src, [])

/-- `$1::uuid`, which raises on a text that spells no uuid. -/
def uuidIn (text : String) : Option Uuid :=
  let (src, closing) := openBrace text.toList
  match readDigits 32 src with
  | none => none
  | some (ds, rest) => if rest = closing then some (Fin.ofNat _ (hexValue ds)) else none

/-- `[0-9a-f]`. -/
def lowerHex (c : Char) : Bool := (hexDigit c).any fun d => decide (hexChar d = c)

/-- `CANONICAL_UUID`. -/
def canonicalPattern (id : List Char) : Bool :=
  decide ((id.splitOn '-').map List.length = [8, 4, 4, 4, 12]) && (id.splitOn '-').all fun group => group.all lowerHex

/-- `id.replace(/[{}-]/g, '')`. -/
def strip (id : List Char) : List Char := id.filter fun c => decide (c ∉ ['\x7b', '\x7d', '-'])

/-- `canonicalUuid`: a text that is no uuid is left as it is. -/
def canonicalUuid (id : String) : String :=
  if canonicalPattern id.toList then id
  else
    let hex := (strip id.toList).map Char.toLower
    if hex.length = 32 ∧ hex.all lowerHex then String.ofList (hyphenated hex) else id

/-- `id || ':' || retry_count`. -/
def attemptText (id : String) (retryCount : ℕ) : String := id ++ ":" ++ toString retryCount

/-- `attemptPairs`. -/
def attemptPairs (ids : List String) (attempts : List ℕ) : List String :=
  List.zipWith (fun id attempt => attemptText (canonicalUuid id) attempt) ids attempts

section Spelling

variable {ds : List ℕ} {src rest : List Char}

/-- The five groups of so many characters. -/
theorem hyphenated_groups {a b c d e : List Char} (ha : a.length = 8) (hb : b.length = 4) (hc : c.length = 4)
    (hd : d.length = 4) :
    hyphenated (a ++ (b ++ (c ++ (d ++ e)))) = ['-'].intercalate [a, b, c, d, e] := by
  have hdrop : ∀ n, (a ++ (b ++ (c ++ (d ++ e)))).drop (8 + n) = (b ++ (c ++ (d ++ e))).drop n := fun n => by
    rw [← ha, List.drop_append]
    simp
  have hdrop' : ∀ n, (b ++ (c ++ (d ++ e))).drop (4 + n) = (c ++ (d ++ e)).drop n := fun n => by
    rw [← hb, List.drop_append]
    simp
  have hdrop'' : ∀ n, (c ++ (d ++ e)).drop (4 + n) = (d ++ e).drop n := fun n => by
    rw [← hc, List.drop_append]
    simp
  simp only [hyphenated, hdrop 0, hdrop 4, hdrop 8, hdrop 12, List.drop_zero, hdrop' 0, hdrop' 4, hdrop' 8,
    hdrop'' 0, hdrop'' 4, List.take_left' ha, List.take_left' hb, List.take_left' hc, List.take_left' hd,
    List.drop_left' hd]

/-- Thirty-two of anything fall into the groups. -/
theorem exists_groups {α : Type} {l : List α} (h : l.length = 32) :
    ∃ a b c d e : List α, l = a ++ (b ++ (c ++ (d ++ e))) ∧ a.length = 8 ∧ b.length = 4 ∧ c.length = 4 ∧
      d.length = 4 ∧ e.length = 12 := by
  refine ⟨l.take 8, (l.drop 8).take 4, ((l.drop 8).drop 4).take 4, (((l.drop 8).drop 4).drop 4).take 4,
    (((l.drop 8).drop 4).drop 4).drop 4, by simp only [List.take_append_drop], ?_, ?_, ?_, ?_, ?_⟩ <;>
    simp [h]

theorem skipHyphen_of_ne {c : Char} (h : c ≠ '-') : skipHyphen (c :: rest) = c :: rest := by
  unfold skipHyphen
  split
  · rename_i heq
    exact absurd (List.cons.inj heq).1 h
  · rfl

/-- A stretch of digits is read, and then the hyphen where one may stand. -/
theorem readDigits_run (hne : ds ≠ []) (hds : ∀ d ∈ ds, d < 16) (left : ℕ) :
    readDigits (ds.length + left) (ds.map hexChar ++ src) =
      (readDigits left (if left % 4 = 0 ∧ left ≠ 0 then skipHyphen src else src)).map fun out =>
        (ds ++ out.1, out.2) := by
  induction ds with
  | nil => contradiction
  | cons d rest ih =>
    have hd : hexDigit (hexChar d) = some d := hexDigit_hexChar (hds d (by simp))
    rw [List.length_cons, Nat.add_right_comm, List.map_cons, List.cons_append, readDigits, hd, Option.bind_some]
    cases rest with
    | nil => simp
    | cons e rest =>
      have he : hexChar e ≠ '-' := hexChar_ne (hds e (by simp)) (by decide)
      have hskip : skipHyphen ((e :: rest).map hexChar ++ src) = (e :: rest).map hexChar ++ src := by
        rw [List.map_cons, List.cons_append, skipHyphen_of_ne he]
      rw [hskip, ite_self, ih (by simp) fun x hx => hds x (List.mem_cons_of_mem _ hx), Option.map_map]
      rfl

/-- The database reads what it writes. -/
theorem readDigits_hyphenated (hlen : ds.length = 32) (hds : ∀ d ∈ ds, d < 16) :
    readDigits 32 (hyphenated (ds.map hexChar)) = some (ds, []) := by
  obtain ⟨a, b, c, d, e, rfl, ha, hb, hc, hd, he⟩ := exists_groups hlen
  simp only [List.forall_mem_append] at hds
  obtain ⟨hads, hbds, hcds, hdds, heds⟩ := hds
  have hrun : ∀ (g : List ℕ) (n left : ℕ) (src : List Char), g.length = n → n ≠ 0 → (∀ x ∈ g, x < 16) →
      readDigits (n + left) (g.map hexChar ++ src) =
        (readDigits left (if left % 4 = 0 ∧ left ≠ 0 then skipHyphen src else src)).map fun out =>
          (g ++ out.1, out.2) := by
    rintro g _ left src rfl hne hg
    exact readDigits_run (List.ne_nil_of_length_pos (Nat.pos_of_ne_zero hne)) hg left
  have hlast : readDigits 12 (e.map hexChar) = some (e, []) := by
    simpa [readDigits] using hrun e 12 0 [] he (by decide) heds
  simp only [List.map_append]
  rw [hyphenated_groups (by simpa using ha) (by simpa using hb) (by simpa using hc) (by simpa using hd)]
  simp only [List.intercalate_cons_cons, List.intercalate_singleton, List.append_assoc, List.singleton_append]
  rw [show 32 = 8 + 24 from rfl, hrun a 8 24 _ ha (by decide) hads, if_pos (by decide), skipHyphen,
    show 24 = 4 + 20 from rfl, hrun b 4 20 _ hb (by decide) hbds, if_pos (by decide), skipHyphen,
    show 20 = 4 + 16 from rfl, hrun c 4 16 _ hc (by decide) hcds, if_pos (by decide), skipHyphen,
    show 16 = 4 + 12 from rfl, hrun d 4 12 _ hd (by decide) hdds, if_pos (by decide), skipHyphen, hlast]
  rfl

@[simp] theorem strip_skipHyphen (src : List Char) : strip (skipHyphen src) = strip src := by
  unfold skipHyphen
  split
  · rfl
  · rfl

theorem strip_cons {c : Char} {d : ℕ} (h : hexDigit c = some d) : strip (c :: rest) = c :: strip rest := by
  refine List.filter_cons_of_pos (decide_eq_true fun hmem => ?_)
  have hnone : ∀ p ∈ ['\x7b', '\x7d', '-'], hexDigit p = none := by
    intro p hp
    rcases List.mem_cons.mp hp with rfl | hp
    · rfl
    · rcases List.mem_cons.mp hp with rfl | hp
      · rfl
      · rw [List.mem_singleton.mp hp]
        rfl
  simp [hnone c hmem] at h

/-- The digits read are those of the text without its braces and hyphens, in lower case. -/
theorem readDigits_strip {left : ℕ} (h : readDigits left src = some (ds, rest)) :
    ds.length = left ∧ (∀ d ∈ ds, d < 16) ∧
      (strip src).map Char.toLower = ds.map hexChar ++ (strip rest).map Char.toLower := by
  induction left generalizing src ds with
  | zero =>
    obtain ⟨rfl, rfl⟩ := Prod.mk.inj (Option.some.inj h)
    simp
  | succ left ih =>
    cases src with
    | nil => simp [readDigits] at h
    | cons c src =>
      obtain ⟨d, hd, hrest⟩ := Option.bind_eq_some_iff.mp h
      obtain ⟨⟨es, tail⟩, hread, hout⟩ := Option.map_eq_some_iff.mp hrest
      obtain ⟨rfl, rfl⟩ := Prod.mk.inj hout
      obtain ⟨hlen, hlt, hstrip⟩ := ih hread
      obtain ⟨hd16, hlower⟩ := toLower_of_hexDigit hd
      refine ⟨by simp [hlen], by simpa [hd16] using hlt, ?_⟩
      rw [apply_ite strip, strip_skipHyphen, ite_self] at hstrip
      rw [strip_cons hd, List.map_cons, hstrip, hlower, List.map_cons, List.cons_append]

theorem strip_openBrace (cs : List Char) :
    strip (openBrace cs).1 = strip cs ∧ strip (openBrace cs).2 = [] := by
  unfold openBrace
  split <;> exact ⟨rfl, rfl⟩

/-- What the database accepts as a uuid: thirty-two digits, braces and hyphens taken away. -/
theorem uuidIn_strip {text : String} {id : Uuid} (h : uuidIn text = some id) :
    (strip text.toList).map Char.toLower = (hexDigits 32 id.val).map hexChar := by
  rw [uuidIn] at h
  obtain ⟨hsrc, hclosing⟩ := strip_openBrace text.toList
  cases hread : readDigits 32 (openBrace text.toList).1 with
  | none => simp [hread] at h
  | some out =>
    obtain ⟨ds, rest⟩ := out
    simp only [hread, Option.ite_none_right_eq_some, Option.some.injEq] at h
    obtain ⟨rfl, rfl⟩ := h
    obtain ⟨hlen, hlt, hstrip⟩ := readDigits_strip hread
    have hval : (Fin.ofNat (2 ^ 128) (hexValue ds)).val = hexValue ds := by
      have hbound := hexValue_lt hlt
      rw [hlen] at hbound
      exact Nat.mod_eq_of_lt (by omega)
    rw [← hsrc, hstrip, hclosing, hval, ← hlen, hexDigits_hexValue hlt, List.map_nil, List.append_nil]

/-- An id read from the text the database writes is that id. -/
theorem uuidIn_uuidText (id : Uuid) : uuidIn (uuidText id) = some id := by
  have hlt : ∀ d ∈ hexDigits 32 id.val, d < 16 := fun d => hexDigits_lt
  have hread := readDigits_hyphenated (hexDigits_length 32 id.val) hlt
  have hopen : openBrace (hyphenated ((hexDigits 32 id.val).map hexChar)) =
      (hyphenated ((hexDigits 32 id.val).map hexChar), []) := by
    unfold openBrace
    split
    · rename_i src heq
      rw [heq] at hread
      simp [readDigits, show hexDigit '\x7b' = none by decide] at hread
    · rfl
  rw [uuidIn, uuidText, String.toList_ofList, hopen]
  simp only [hread, if_true, hexValue_hexDigits]
  have hbound : id.val < 16 ^ 32 := id.isLt
  have hval : id.val % 16 ^ 32 % 2 ^ 128 = id.val := by rw [Nat.mod_eq_of_lt hbound, Nat.mod_eq_of_lt id.isLt]
  exact congrArg some (Fin.ext hval)

theorem uuidText_injective : Function.Injective uuidText := fun a b h =>
  Option.some.inj ((uuidIn_uuidText a).symm.trans ((congrArg uuidIn h).trans (uuidIn_uuidText b)))

theorem uuidText_length (id : Uuid) : (uuidText id).toList.length = 36 := by
  simp [uuidText, hyphenated, List.intercalate_cons_cons]

theorem lowerHex_hexChar {d : ℕ} (hd : d < 16) : lowerHex (hexChar d) = true := by
  simp [lowerHex, hexDigit_hexChar hd]

/-- A lower-case digit is its own lower case, and no brace or hyphen. -/
theorem lowerHex_spec {c : Char} (h : lowerHex c = true) : c.toLower = c ∧ ∃ d, hexDigit c = some d := by
  cases hd : hexDigit c with
  | none => simp [lowerHex, hd] at h
  | some d => exact ⟨(toLower_of_hexDigit hd).2.trans (by simpa [lowerHex, hd] using h), d, rfl⟩

theorem strip_lowerHex {cs : List Char} (h : cs.all lowerHex = true) :
    strip cs = cs ∧ cs.map Char.toLower = cs := by
  induction cs with
  | nil => exact ⟨rfl, rfl⟩
  | cons c cs ih =>
    simp only [List.all_cons, Bool.and_eq_true] at h
    obtain ⟨hlower, d, hd⟩ := lowerHex_spec h.1
    rw [strip_cons hd, List.map_cons, hlower, (ih h.2).1, (ih h.2).2]
    exact ⟨rfl, rfl⟩

/-- A text the pattern takes is what the other branch would make of it. -/
theorem canonicalPattern_spec {id : List Char} (h : canonicalPattern id = true) :
    id = hyphenated ((strip id).map Char.toLower) := by
  simp only [canonicalPattern, Bool.and_eq_true, decide_eq_true_eq] at h
  obtain ⟨hlengths, hall⟩ := h
  have hid : ['-'].intercalate (id.splitOn '-') = id := List.intercalate_splitOn '-'
  obtain ⟨a, b, c, d, e, hgroups, ha, hb, hc, hd⟩ : ∃ a b c d e : List Char, id.splitOn '-' = [a, b, c, d, e] ∧
      a.length = 8 ∧ b.length = 4 ∧ c.length = 4 ∧ d.length = 4 := by
    match hsplit : id.splitOn '-' with
    | [a, b, c, d, e] =>
      simp only [hsplit, List.map_cons, List.cons.injEq] at hlengths
      exact ⟨a, b, c, d, e, rfl, hlengths.1, hlengths.2.1, hlengths.2.2.1, hlengths.2.2.2.1⟩
    | [] | [_] | [_, _] | [_, _, _] | [_, _, _, _] | _ :: _ :: _ :: _ :: _ :: _ :: _ => simp [hsplit] at hlengths
  rw [hgroups] at hid hall
  simp only [List.all_cons, List.all_nil, Bool.and_eq_true, and_true] at hall
  obtain ⟨hla, hlb, hlc, hld, hle⟩ := hall
  have hstrip : strip id = a ++ (b ++ (c ++ (d ++ e))) := by
    rw [← hid]
    simp only [List.intercalate_cons_cons, List.intercalate_singleton, strip, List.filter_append]
    simp only [← strip.eq_def, (strip_lowerHex hla).1, (strip_lowerHex hlb).1, (strip_lowerHex hlc).1,
      (strip_lowerHex hld).1, (strip_lowerHex hle).1, show strip ['-'] = [] from rfl, List.append_nil]
  have hlower : (strip id).map Char.toLower = strip id := by
    rw [hstrip]
    simp only [List.map_append, (strip_lowerHex hla).2, (strip_lowerHex hlb).2, (strip_lowerHex hlc).2,
      (strip_lowerHex hld).2, (strip_lowerHex hle).2]
  rw [hlower, hstrip, hyphenated_groups ha hb hc hd, hid]

/-- However an id is spelled, `canonicalUuid` writes it as the database does. -/
theorem canonicalUuid_of_uuidIn {text : String} {id : Uuid} (h : uuidIn text = some id) :
    canonicalUuid text = uuidText id := by
  have hstrip := uuidIn_strip h
  have hall : ((hexDigits 32 id.val).map hexChar).all lowerHex = true := by
    rw [List.all_map, List.all_eq_true]
    exact fun d hd => lowerHex_hexChar (hexDigits_lt hd)
  rw [canonicalUuid, hstrip]
  split
  · rename_i hcanonical
    rw [uuidText, ← hstrip, ← canonicalPattern_spec hcanonical, String.ofList_toList]
  · rw [if_pos ⟨by simp, hall⟩, uuidText]

end Spelling

section Fence

/-- The texts tell attempts apart. -/
theorem attemptText_inj {a b : Uuid} {m n : ℕ} :
    attemptText (uuidText a) m = attemptText (uuidText b) n ↔ a = b ∧ m = n := by
  refine ⟨fun h => ?_, by rintro ⟨rfl, rfl⟩; rfl⟩
  have hlist := congrArg String.toList h
  simp only [attemptText, String.toList_append, List.append_assoc] at hlist
  obtain ⟨hid, hrest⟩ := List.append_inj hlist (by rw [uuidText_length, uuidText_length])
  have hcount : (toString m).toList = (toString n).toList := List.append_cancel_left hrest
  refine ⟨uuidText_injective (String.toList_inj.mp hid), ?_⟩
  simp only [Nat.toString_eq_repr, Nat.toList_repr] at hcount
  rw [← Nat.ofDigitChars_toDigits (b := 10) (n := m) (by decide) (by decide), hcount,
    Nat.ofDigitChars_toDigits (by decide) (by decide)]

/-- The fence as the statement has it: the row's text is one of the parameter's. -/
def attemptTextFence (pairs : List String) (j : Job) : Bool :=
  decide (j.state = .active) && decide (attemptText (uuidText j.id) j.retryCount ∈ pairs)

/-- The texts fence what the pairs of the ids they spell do. -/
theorem attemptTextFence_eq {texts : List String} {ids : List Uuid} (h : texts.mapM uuidIn = some ids)
    (attempts : List ℕ) (j : Job) :
    attemptTextFence (attemptPairs texts attempts) j = attemptFence (List.zipWith JobAttempt.mk ids attempts) j := by
  have hmem : attemptText (uuidText j.id) j.retryCount ∈ attemptPairs texts attempts ↔
      j.attempt ∈ List.zipWith JobAttempt.mk ids attempts := by
    induction texts generalizing ids attempts with
    | nil =>
      obtain rfl : ids = [] := by simpa using h.symm
      simp [attemptPairs]
    | cons text texts ih =>
      obtain ⟨id, hid, rest, hrest, rfl⟩ : ∃ id, uuidIn text = some id ∧ ∃ rest, texts.mapM uuidIn = some rest ∧
          ids = id :: rest := by
        rw [List.mapM_cons] at h
        obtain ⟨id, hid, h⟩ := Option.bind_eq_some_iff.mp h
        obtain ⟨rest, hrest, h⟩ := Option.bind_eq_some_iff.mp h
        exact ⟨id, hid, rest, hrest, (Option.some.inj h).symm⟩
      cases attempts with
      | nil => simp [attemptPairs]
      | cons n attempts =>
        have htail := ih hrest attempts
        simp only [attemptPairs] at htail
        simp only [attemptPairs, List.zipWith_cons_cons, List.mem_cons, htail, canonicalUuid_of_uuidIn hid,
          attemptText_inj, Job.attempt, JobAttempt.mk.injEq]
  simp only [attemptTextFence, attemptFence, hmem]

end Fence

end PgBoss
