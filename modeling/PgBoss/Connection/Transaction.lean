import PgBoss.Connection.Client

/-!
# Transaction handles

`beginTransaction` pins a client, opens a transaction on it and hands back `executeSql`, `commit`
and `rollback`. The handle refuses what comes after it was released, and it is released when a
COMMIT or ROLLBACK has been answered, so a call made while one is in flight is still accepted
and runs behind it. In runs without such calls every accepted statement runs before the COMMIT
or ROLLBACK, and a released client has nothing left to send.
-/

namespace PgBoss

open Connection Relation

/-- What the handle issues on its client. -/
inductive Command
  | begin
  | statement (text : String)
  | commit
  | rollback
  deriving DecidableEq, Repr

/-- The commands that end a transaction. -/
def Command.settles : Command → Bool
  | .commit | .rollback => true
  | _ => false

variable {σ : Type}

/-- A handle and its client: the commands whose promises the handle awaits, those whose promises are
settled and wait to be taken up, and a record of what it accepted, returned and released. -/
structure TransactionHandle (σ : Type) where
  client : σ
  opened : Bool := false
  released : Bool := false
  connectionError : Option String := none
  awaiting : List Command := []
  ready : List (Command × Option String) := []
  accepted : List String := []
  returned : List Command := []
  releases : ℕ := 0

namespace TransactionHandle

/-- `release`: `client.release(err)` gives a client with an error up, and one without back to the pool. -/
def release (c : Client Command σ) (err : Option String) (h : TransactionHandle σ) : TransactionHandle σ :=
  if h.released then h
  else { h with
    released := true, releases := h.releases + 1, client := if err.isSome then c.discard h.client else h.client }

/-- `onClientError`. -/
def onClientError (c : Client Command σ) (err : String) (h : TransactionHandle σ) : TransactionHandle σ :=
  release c (some err) { h with connectionError := some (h.connectionError.getD err) }

/-- `settledError`. -/
def settledError (h : TransactionHandle σ) : String := h.connectionError.getD "Transaction is already settled"

/-- A command issued on the client and awaited. -/
def await (c : Client Command σ) (x : Command) (h : TransactionHandle σ) : TransactionHandle σ :=
  { h with client := c.query x h.client, awaiting := h.awaiting ++ [x] }

/-- `executeSql` of the handle's `db`. -/
def executeSql (c : Client Command σ) (text : String) (h : TransactionHandle σ) :
    Except String (TransactionHandle σ) :=
  if h.released then .error h.settledError
  else .ok { h with client := c.query (.statement text) h.client, accepted := h.accepted ++ [text] }

/-- `commit` up to its COMMIT. -/
def commit (c : Client Command σ) (h : TransactionHandle σ) : Except String (TransactionHandle σ) :=
  if h.released then .error h.settledError else .ok (h.await c .commit)

/-- `rollback` up to its ROLLBACK. -/
def rollback (c : Client Command σ) (h : TransactionHandle σ) : TransactionHandle σ :=
  if h.released then h else h.await c .rollback

/-- What follows an awaited command: the handle is handed out after its BEGIN, and released after anything
else, with the error if there was one. -/
def resume (c : Client Command σ) (x : Command) (err : Option String) (h : TransactionHandle σ) :
    TransactionHandle σ :=
  if x = .begin ∧ err = none then { h with opened := true }
  else { release c err h with returned := h.returned ++ [x] }

/-- The deadline of a `rollback` passes before its ROLLBACK is answered. -/
def expire (c : Client Command σ) (h : TransactionHandle σ) : TransactionHandle σ :=
  resume c .rollback (some "ROLLBACK did not complete in time") { h with awaiting := h.awaiting.erase .rollback }

/-- A COMMIT or ROLLBACK of the handle is in flight. -/
def settling (h : TransactionHandle σ) : Bool :=
  (h.awaiting ++ h.ready.map Prod.fst).any Command.settles

end TransactionHandle

/-- `beginTransaction` on a client of the pool, up to its BEGIN. -/
def beginTransaction (c : Client Command σ) (client : σ) : TransactionHandle σ :=
  TransactionHandle.await c .begin { client }

/-- The calls on a handle, and what happens to it. -/
inductive HandleAction
  | executeSql (text : String)
  | commit
  | rollback
  | client
  | settle (x : Command) (err : Option String)
  | resume (x : Command) (err : Option String)
  | deadline
  | connectionError (err : String)

/-- One step of a handle and its client. -/
inductive TransactionHandle.Step (c : Client Command σ) :
    HandleAction → TransactionHandle σ → TransactionHandle σ → Prop
  | executeSql (text : String) (h h' : TransactionHandle σ) (hopened : h.opened = true)
      (hcall : h.executeSql c text = .ok h') : Step c (.executeSql text) h h'
  | commit (h h' : TransactionHandle σ) (hopened : h.opened = true) (hcall : h.commit c = .ok h') :
      Step c .commit h h'
  | rollback (h : TransactionHandle σ) (hopened : h.opened = true) : Step c .rollback h (h.rollback c)
  | client (h : TransactionHandle σ) (client : σ) (hstep : c.step h.client client) :
      Step c .client h { h with client }
  | settle (x : Command) (err : Option String) (h : TransactionHandle σ) (client : σ) (hmem : x ∈ h.awaiting)
      (hstep : c.settle x err h.client client) :
      Step c (.settle x err) h
        { h with client, awaiting := h.awaiting.erase x, ready := h.ready ++ [(x, err)] }
  | answer (text : String) (err : Option String) (h : TransactionHandle σ) (client : σ)
      (hstep : c.settle (.statement text) err h.client client) :
      Step c (.settle (.statement text) err) h { h with client }
  | resume (x : Command) (err : Option String) (h : TransactionHandle σ) (hmem : (x, err) ∈ h.ready) :
      Step c (.resume x err) h (TransactionHandle.resume c x err { h with ready := h.ready.erase (x, err) })
  | deadline (h : TransactionHandle σ) (hmem : .rollback ∈ h.awaiting) : Step c .deadline h (h.expire c)
  | connectionError (err : String) (h : TransactionHandle σ) (hreleased : h.released = false) :
      Step c (.connectionError err) h (h.onClientError c err)

/-- The calls that do not come while a COMMIT or ROLLBACK of the handle is in flight. -/
def HandleAction.Timely (h : TransactionHandle σ) : HandleAction → Prop
  | .executeSql _ | .commit | .rollback => h.released = true ∨ h.settling = false
  | _ => True

/-- Any number of steps that the run may take. -/
abbrev TransactionHandle.Run (c : Client Command σ) (may : TransactionHandle σ → HandleAction → Prop) :
    TransactionHandle σ → TransactionHandle σ → Prop :=
  ReflTransGen fun h h' => ∃ a, may h a ∧ Step c a h h'

/-- What the handle promises of its commands: BEGIN, the accepted statements and one COMMIT or ROLLBACK, as
far as they ran, and all of them on a client given back; no command left on a released client; and
one release, before a call of `commit` or `rollback` returns. -/
structure TransactionHandle.Confined (c : Client Command σ) (h : TransactionHandle σ) : Prop where
  between : ∃ settle : Option Command, (∀ x ∈ settle, x.settles = true) ∧
    c.ran h.client <+: .begin :: h.accepted.map .statement ++ settle.toList
  complete : h.released = true → c.ended h.client = false → ∃ settle, settle.settles = true ∧
    c.ran h.client = .begin :: h.accepted.map .statement ++ [settle]
  quiet : h.released = true → c.queued h.client = [] ∧ (c.ended h.client = false → c.sent h.client = [])
  once : h.releases = if h.released then 1 else 0
  returned : h.returned ≠ [] ∨ h.connectionError.isSome = true → h.released = true

section Invariant

variable {c : Client Command σ} {h h' : TransactionHandle σ} {x : Command} {err : Option String}
  {ending : Option Command} {a : HandleAction}

/-- The commands of the transaction, with the COMMIT or ROLLBACK that ends it, once issued. -/
def TransactionHandle.script (h : TransactionHandle σ) (ending : Option Command) : List Command :=
  .begin :: h.accepted.map .statement ++ ending.toList

/-- What a timely run keeps: the client holds the script of the handle, a COMMIT or ROLLBACK that is awaited
is the one of the script, and a handle that awaits none has issued none. -/
structure HandleInv (c : Client Command σ) (ending : Option Command) (h : TransactionHandle σ) : Prop where
  settles : ∀ x ∈ ending, x.settles = true
  script : c.trace h.client <+: h.script ending
  whole : c.ended h.client = false → c.trace h.client = h.script ending
  ended : c.ended h.client = true → h.released = true ∧ c.queued h.client = []
  idle : h.released = false → h.settling = false → ending = none
  pending : ∀ x, x ∈ h.awaiting ∨ x ∈ h.ready.map Prod.fst → x = .begin ∨ ending = some x
  answered : ∀ x, (x, none) ∈ h.ready → x ∈ c.ran h.client
  drained : h.released = true → c.ended h.client = false →
    ending.isSome = true ∧ c.sent h.client = [] ∧ c.queued h.client = []
  once : h.releases = if h.released then 1 else 0
  returned : h.returned ≠ [] ∨ h.connectionError.isSome = true → h.released = true

/-- A handle that was not released has its connection. -/
theorem HandleInv.live (hinv : HandleInv c ending h) (hopen : h.released = false) : c.ended h.client = false := by
  cases hended : c.ended h.client with
  | false => rfl
  | true => exact (hinv.ended hended).1.symm.trans hopen

namespace TransactionHandle

/-- A released handle is left as it is. -/
@[simp] theorem release_of_released (hreleased : h.released = true) : h.release c err = h := if_pos hreleased

@[simp] theorem release_released : (h.release c err).released = true := by
  unfold release
  split
  · assumption
  · rfl

end TransactionHandle

open TransactionHandle

/-- Releasing keeps the invariant where a client is given back with nothing left on it. -/
theorem HandleInv.release (hc : c.Serial) (hinv : HandleInv c ending h)
    (hclean : err = none → h.released = false → ending.isSome = true ∧ c.sent h.client = [] ∧ c.queued h.client = []) :
    HandleInv c ending (h.release c err) := by
  cases hreleased : h.released with
  | true => rwa [release_of_released hreleased]
  | false =>
    have hlive := hinv.live hreleased
    have honce := hinv.once
    simp only [hreleased, Bool.false_eq_true, if_false] at honce
    simp only [TransactionHandle.release, hreleased, Bool.false_eq_true, if_false]
    cases err with
    | none =>
      refine { hinv with ended := ?_, idle := ?_, drained := ?_, once := ?_, returned := fun _ => rfl }
      · intro hended
        exact nomatch hlive.symm.trans hended
      · exact fun hopen => nomatch hopen
      · exact fun _ _ => hclean rfl hreleased
      · simp only [honce, if_true]
    | some e =>
      have htrace := hc.discard_trace h.client
      refine { hinv with
        script := ?_, whole := ?_, ended := ?_, idle := ?_, answered := ?_, drained := ?_, once := ?_
        returned := fun _ => rfl }
      · exact (htrace.trans (List.prefix_append _ _)).trans hinv.script
      · intro hended
        exact nomatch (hc.discard_ended h.client).symm.trans hended
      · exact fun _ => ⟨rfl, hc.discard_queued h.client⟩
      · exact fun hopen => nomatch hopen
      · intro x hx
        simpa only [Option.isSome_some, if_true, hc.discard_ran] using hinv.answered x hx
      · intro _ hended
        exact nomatch (hc.discard_ended h.client).symm.trans hended
      · simp only [honce, if_true]

/-- A call that is made in time on an open handle finds the script without a COMMIT or ROLLBACK. -/
theorem HandleInv.timely (hinv : HandleInv c ending h) (hopen : h.released = false)
    (htimely : h.released = true ∨ h.settling = false) : c.ended h.client = false ∧ ending = none := by
  have hidle := htimely.resolve_left (hopen ▸ Bool.false_ne_true)
  exact ⟨hinv.live hopen, hinv.idle hopen hidle⟩

/-- A command joins the script on an open client. -/
theorem HandleInv.query_trace (hc : c.Serial) (hinv : HandleInv c ending h) (hopen : h.released = false) :
    c.trace (c.query x h.client) = h.script ending ++ [x] := by
  have hlive := hinv.live hopen
  rw [hc.query_trace x h.client hlive, hinv.whole hlive]

/-- An accepted statement joins the script. -/
theorem HandleInv.executeSql {text : String} (hc : c.Serial) (hinv : HandleInv c ending h)
    (htimely : h.released = true ∨ h.settling = false) (hcall : h.executeSql c text = .ok h') :
    HandleInv c ending h' := by
  cases hopen : h.released with
  | true =>
    simp only [TransactionHandle.executeSql, hopen, if_true] at hcall
    exact nomatch hcall
  | false =>
    obtain ⟨hlive, rfl⟩ := hinv.timely hopen htimely
    have htrace : c.trace (c.query (.statement text) h.client) =
        .begin :: (h.accepted ++ [text]).map .statement ++ (none : Option Command).toList := by
      rw [hinv.query_trace hc hopen]
      simp [TransactionHandle.script]
    rw [TransactionHandle.executeSql, if_neg (hopen ▸ Bool.false_ne_true)] at hcall
    cases hcall
    refine { hinv with
      script := htrace ▸ List.prefix_refl _, whole := fun _ => htrace, ended := ?_, answered := ?_, drained := ?_ }
    · intro hended
      exact nomatch (hlive.symm.trans (hc.query_ended _ _).symm).trans hended
    · intro x hx
      exact (hc.query_ran _ _).symm ▸ hinv.answered x hx
    · exact fun hreleased => nomatch hopen.symm.trans hreleased

/-- A COMMIT or ROLLBACK ends the script. -/
theorem HandleInv.await (hc : c.Serial) (hinv : HandleInv c ending h) (hx : x.settles = true)
    (hopen : h.released = false) (htimely : h.released = true ∨ h.settling = false) :
    HandleInv c (some x) (h.await c x) := by
  obtain ⟨hlive, rfl⟩ := hinv.timely hopen htimely
  have htrace : c.trace (c.query x h.client) = h.script (some x) := by
    rw [hinv.query_trace hc hopen]
    simp [TransactionHandle.script]
  refine { hinv with
    settles := ?_, script := htrace ▸ List.prefix_refl _, whole := fun _ => htrace, ended := ?_, idle := ?_
    pending := ?_, answered := ?_, drained := ?_ }
  · rintro y ⟨⟩
    exact hx
  · intro hended
    exact nomatch (hlive.symm.trans (hc.query_ended _ _).symm).trans hended
  · intro _ hidle
    simp [TransactionHandle.settling, TransactionHandle.await, hx] at hidle
  · intro y hy
    simp only [TransactionHandle.await, List.mem_append, List.mem_singleton] at hy
    rcases hy with (hy | rfl) | hy
    · exact .inl ((hinv.pending y (.inl hy)).resolve_right nofun)
    · exact .inr rfl
    · exact .inl ((hinv.pending y (.inr hy)).resolve_right nofun)
  · intro y hy
    exact (hc.query_ran _ _).symm ▸ hinv.answered y hy
  · exact fun hreleased => nomatch hopen.symm.trans hreleased

/-- The client moves under the handle. -/
theorem HandleInv.client {client : σ} (hc : c.Serial) (hinv : HandleInv c ending h) (hstep : c.step h.client client) :
    HandleInv c ending { h with client } := by
  have hran := hc.step_ran _ _ hstep
  cases hended : c.ended h.client with
  | false =>
    obtain ⟨hended', htrace⟩ := hc.step_trace _ _ hstep hended
    have hwhole : c.trace client = h.script ending := htrace.trans (hinv.whole hended)
    refine { hinv with
      script := hwhole ▸ List.prefix_refl _, whole := fun _ => hwhole, ended := ?_, answered := ?_, drained := ?_ }
    · intro h
      cases hended'.symm.trans h
    · exact fun x hx => hran.subset (hinv.answered x hx)
    · intro hreleased _
      obtain ⟨hsome, hdrained⟩ := hinv.drained hreleased hended
      exact ⟨hsome, (hc.step_drained hstep hended hdrained).2⟩
  | true =>
    obtain ⟨hreleased, hqueued⟩ := hinv.ended hended
    obtain ⟨hended', hqueued', hreached⟩ := hc.step_ended _ _ hstep hended hqueued
    refine { hinv with script := ?_, whole := ?_, ended := ?_, answered := ?_, drained := ?_ }
    · rw [Client.trace, hqueued', List.append_nil]
      exact (hreached.trans (List.prefix_append _ _)).trans hinv.script
    · intro h
      cases hended'.symm.trans h
    · exact fun _ => ⟨hreleased, hqueued'⟩
    · exact fun x hx => hran.subset (hinv.answered x hx)
    · intro _ h
      cases hended'.symm.trans h

/-- An answer leaves the commands of the client alone. -/
theorem HandleInv.answer {client : σ} (hc : c.Serial) (hinv : HandleInv c ending h)
    (hstep : c.settle x err h.client client) : HandleInv c ending { h with client } := by
  obtain ⟨hran, hsent, hqueued, hended⟩ := hc.settle_keeps _ _ _ _ hstep
  have htrace := hc.settle_trace hstep
  refine { hinv with script := htrace ▸ hinv.script, whole := ?_, ended := ?_, answered := ?_, drained := ?_ }
  · exact fun h => htrace.trans (hinv.whole (hended.symm.trans h))
  · rw [hended, hqueued]
    exact hinv.ended
  · rw [hran]
    exact hinv.answered
  · rw [hended, hsent, hqueued]
    exact hinv.drained

/-- The promise of an awaited command is settled. -/
theorem HandleInv.settle {client : σ} (hc : c.Serial) (hinv : HandleInv c ending h) (hmem : x ∈ h.awaiting)
    (hstep : c.settle x err h.client client) :
    HandleInv c ending { h with client, awaiting := h.awaiting.erase x, ready := h.ready ++ [(x, err)] } := by
  have hpending : ∀ y, y ∈ h.awaiting.erase x ∨ y ∈ (h.ready ++ [(x, err)]).map Prod.fst →
      y ∈ h.awaiting ∨ y ∈ h.ready.map Prod.fst := by
    simp only [List.map_append, List.map_cons, List.map_nil, List.mem_append, List.mem_singleton]
    rintro y (hy | hy | rfl)
    · exact .inl (List.mem_of_mem_erase hy)
    · exact .inr hy
    · exact .inl hmem
  refine { hinv.answer hc hstep with idle := ?_, pending := fun y hy => hinv.pending y (hpending y hy), answered := ?_ }
  · intro hopen hidle
    refine hinv.idle hopen (List.any_eq_false.mpr fun y hy => ?_)
    refine List.any_eq_false.mp hidle y ?_
    simp only [List.map_append, List.map_cons, List.map_nil, List.mem_append, List.mem_singleton]
    rcases List.mem_append.mp hy with hy | hy
    · by_cases hyx : y = x
      · exact .inr (.inr hyx)
      · exact .inl ((List.mem_erase_of_ne hyx).mpr hy)
    · exact .inr (.inl hy)
  · intro y hy
    rcases List.mem_append.mp hy with hy | hy
    · exact (hinv.answer hc hstep).answered y hy
    · obtain ⟨rfl, rfl⟩ := Prod.mk.inj (List.mem_singleton.mp hy)
      exact (hc.settle_keeps _ _ _ _ hstep).1 ▸ hc.settle_ran _ _ _ hstep

/-- Fewer promises to take up, and none of a COMMIT or ROLLBACK among the others. -/
theorem HandleInv.forget {awaiting : List Command} {ready : List (Command × Option String)}
    (hinv : HandleInv c ending h) (hawaiting : awaiting ⊆ h.awaiting) (hready : ready ⊆ h.ready)
    (hidle : h.released = false →
      ∀ x, x ∈ h.awaiting ∨ x ∈ h.ready.map Prod.fst → x.settles = true → x ∈ awaiting ∨ x ∈ ready.map Prod.fst) :
    HandleInv c ending { h with awaiting, ready } :=
  { hinv with
    idle := fun hopen hsettling => by
      refine hinv.idle hopen (List.any_eq_false.mpr fun y hy hsettles => ?_)
      have hmem := hidle hopen y (List.mem_append.mp hy) hsettles
      exact List.any_eq_false.mp hsettling y (List.mem_append.mpr hmem) hsettles
    pending := fun y hy => hinv.pending y (hy.imp (@hawaiting y) (@List.map_subset _ _ _ _ Prod.fst hready y))
    answered := fun y hy => hinv.answered y (hready hy) }

/-- A COMMIT or ROLLBACK that was answered is the last of the script, and all before it has run. -/
theorem HandleInv.finished (hinv : HandleInv c ending h) (hopen : h.released = false) (hmem : (x, none) ∈ h.ready)
    (hbegin : x ≠ .begin) : ending.isSome = true ∧ c.sent h.client = [] ∧ c.queued h.client = [] := by
  have hx : ending = some x := (hinv.pending x (.inr (List.mem_map_of_mem hmem))).resolve_left hbegin
  subst hx
  have hsettles := hinv.settles x rfl
  refine ⟨rfl, Client.Serial.drained (hinv.whole (hinv.live hopen)) ?_ (hinv.answered x hmem)⟩
  intro hold
  rcases List.mem_cons.mp hold with rfl | hold
  · exact hbegin rfl
  · obtain ⟨text, -, rfl⟩ := List.mem_map.mp hold
    exact nomatch hsettles

/-- A release leaves the promises as they are. -/
theorem TransactionHandle.release_keeps (c : Client Command σ) (err : Option String) (h : TransactionHandle σ) :
    (h.release c err).awaiting = h.awaiting ∧ (h.release c err).ready = h.ready := by
  unfold TransactionHandle.release
  split
  · exact ⟨rfl, rfl⟩
  · exact ⟨rfl, rfl⟩

/-- A release takes no notice of the promises and the recorded error. -/
theorem TransactionHandle.release_with {awaiting : List Command} {ready : List (Command × Option String)}
    {connectionError : Option String} : TransactionHandle.release c err { h with awaiting, ready, connectionError } =
      { h.release c err with awaiting, ready, connectionError } := by
  unfold TransactionHandle.release
  split
  · rfl
  · rfl

/-- Once released, a handle may drop promises and record what it returned. -/
theorem HandleInv.record {awaiting returned : List Command} {ready : List (Command × Option String)}
    {connectionError : Option String} (hinv : HandleInv c ending h) (hreleased : h.released = true)
    (hawaiting : awaiting ⊆ h.awaiting) (hready : ready ⊆ h.ready) :
    HandleInv c ending { h with awaiting, ready, connectionError, returned } :=
  { hinv.forget hawaiting hready fun hopen => nomatch hreleased.symm.trans hopen with
    returned := fun _ => hreleased }

/-- What follows an awaited command keeps the invariant. -/
theorem HandleInv.resume (hc : c.Serial) (hinv : HandleInv c ending h) (hmem : (x, err) ∈ h.ready) :
    HandleInv c ending (TransactionHandle.resume c x err { h with ready := h.ready.erase (x, err) }) := by
  have hsub : h.ready.erase (x, err) ⊆ h.ready := List.erase_subset
  unfold TransactionHandle.resume
  split
  case isTrue hbegin =>
    obtain ⟨rfl, rfl⟩ := hbegin
    refine { hinv.forget (List.Subset.refl _) hsub ?_ with }
    rintro - y (hy | hy) hsettles
    · exact .inl hy
    · obtain ⟨p, hp, rfl⟩ := List.mem_map.mp hy
      have hne : p ≠ (.begin, none) := fun heq => nomatch heq ▸ hsettles
      exact .inr (List.mem_map_of_mem ((List.mem_erase_of_ne hne).mpr hp))
  case isFalse hbegin =>
    have hreleased : HandleInv c ending (h.release c err) := hinv.release hc fun herr hopen =>
      hinv.finished hopen (herr ▸ hmem) fun hx => hbegin ⟨hx, herr⟩
    obtain ⟨hawaiting, hready⟩ := release_keeps c err h
    rw [TransactionHandle.release_with]
    exact hreleased.record release_released (hawaiting ▸ List.Subset.refl _) (hready ▸ hsub)

/-- The deadline of a rollback keeps the invariant. -/
theorem HandleInv.expire (hc : c.Serial) (hinv : HandleInv c ending h) : HandleInv c ending (h.expire c) := by
  have hreleased : HandleInv c ending (h.release c (some "ROLLBACK did not complete in time")) :=
    hinv.release hc nofun
  obtain ⟨hawaiting, hready⟩ := release_keeps c (some "ROLLBACK did not complete in time") h
  rw [TransactionHandle.expire, TransactionHandle.resume, if_neg (fun hbegin => nomatch hbegin.1),
    TransactionHandle.release_with]
  exact hreleased.record release_released (hawaiting ▸ List.erase_subset) (hready ▸ List.Subset.refl _)

/-- A connection error keeps the invariant. -/
theorem HandleInv.onClientError {e : String} (hc : c.Serial) (hinv : HandleInv c ending h) :
    HandleInv c ending (h.onClientError c e) := by
  have hreleased : HandleInv c ending (h.release c (some e)) := hinv.release hc nofun
  obtain ⟨hawaiting, hready⟩ := release_keeps c (some e) h
  rw [TransactionHandle.onClientError, TransactionHandle.release_with]
  exact hreleased.record release_released (hawaiting ▸ List.Subset.refl _) (hready ▸ List.Subset.refl _)

/-- A step keeps the invariant, and a timely call may end the script. -/
theorem HandleInv.step (hc : c.Serial) (hinv : HandleInv c ending h) (hstep : h.Step c a h')
    (htimely : a.Timely h) : ∃ ending', HandleInv c ending' h' := by
  cases hstep with
  | executeSql text _ _ _ hcall => exact ⟨_, hinv.executeSql hc htimely hcall⟩
  | commit _ _ _ hcall =>
    cases hopen : h.released with
    | true =>
      rw [TransactionHandle.commit, if_pos hopen] at hcall
      exact nomatch hcall
    | false =>
      rw [TransactionHandle.commit, if_neg (hopen ▸ Bool.false_ne_true)] at hcall
      cases hcall
      exact ⟨_, hinv.await hc rfl hopen htimely⟩
  | rollback _ _ =>
    cases hopen : h.released with
    | true =>
      rw [TransactionHandle.rollback, if_pos hopen]
      exact ⟨_, hinv⟩
    | false =>
      rw [TransactionHandle.rollback, if_neg (hopen ▸ Bool.false_ne_true)]
      exact ⟨_, hinv.await hc rfl hopen htimely⟩
  | client _ _ hmove => exact ⟨_, hinv.client hc hmove⟩
  | settle _ _ _ _ hmem hanswer => exact ⟨_, hinv.settle hc hmem hanswer⟩
  | answer _ _ _ _ hanswer => exact ⟨_, hinv.answer hc hanswer⟩
  | resume _ _ _ hmem => exact ⟨_, hinv.resume hc hmem⟩
  | deadline _ hmem => exact ⟨_, hinv.expire hc⟩
  | connectionError _ _ _ => exact ⟨_, hinv.onClientError hc⟩

/-- After its BEGIN the script of a handle is that BEGIN. -/
theorem HandleInv.beginTransaction {client : σ} (hc : c.Serial) (hidle : c.Idle client) :
    HandleInv c none (beginTransaction c client) := by
  have hended : c.ended (c.query .begin client) = false := (hc.query_ended _ _).trans hidle.ended
  have htrace : c.trace (c.query .begin client) = [.begin] := by
    rw [hc.query_trace _ _ hidle.ended, hidle.trace, List.nil_append]
  refine
    { settles := nofun
      script := htrace ▸ List.prefix_refl _
      whole := fun _ => htrace
      ended := fun h => nomatch hended.symm.trans h
      idle := fun _ _ => rfl
      pending := ?_
      answered := nofun
      drained := nofun
      once := rfl
      returned := ?_ }
  · rintro x (hx | hx)
    · exact .inl (List.mem_singleton.mp hx)
    · exact nomatch hx
  · rintro (hreturned | herror)
    · exact absurd rfl hreturned
    · exact nomatch herror

/-- The promise of the handle, read off its script. -/
theorem HandleInv.confined (hinv : HandleInv c ending h) : h.Confined c := by
  have hran : c.ran h.client <+: h.script ending := (Client.Serial.ran_prefix c h.client).trans hinv.script
  refine ⟨⟨ending, hinv.settles, hran⟩, ?_, ?_, hinv.once, hinv.returned⟩
  · intro hreleased hlive
    obtain ⟨hsome, hsent, hqueued⟩ := hinv.drained hreleased hlive
    obtain ⟨x, rfl⟩ := Option.isSome_iff_exists.mp hsome
    have hwhole := hinv.whole hlive
    rw [Client.trace, Client.reached, hsent, hqueued, List.append_nil, List.append_nil] at hwhole
    exact ⟨x, hinv.settles x rfl, hwhole⟩
  · intro hreleased
    cases hended : c.ended h.client with
    | false => exact ⟨(hinv.drained hreleased hended).2.2, fun _ => (hinv.drained hreleased hended).2.1⟩
    | true => exact ⟨(hinv.ended hended).2, fun h => Bool.noConfusion h⟩

/-- A timely run keeps the invariant. -/
theorem HandleInv.run (hc : c.Serial) (hinv : HandleInv c ending h)
    (hrun : Run c (fun h a => a.Timely h) h h') : ∃ ending', HandleInv c ending' h' := by
  induction hrun with
  | refl => exact ⟨_, hinv⟩
  | tail _ hstep ih =>
    obtain ⟨_, hmid⟩ := ih
    obtain ⟨a, htimely, hstep⟩ := hstep
    exact hmid.step hc hstep htimely

/-- What follows an awaited command leaves the client of a released handle alone. -/
theorem TransactionHandle.resume_of_released (c : Client Command σ) (x : Command) (err : Option String)
    {h : TransactionHandle σ} (hreleased : h.released = true) :
    (h.resume c x err).released = true ∧ (h.resume c x err).client = h.client := by
  unfold TransactionHandle.resume
  split
  · exact ⟨hreleased, rfl⟩
  · rw [release_of_released hreleased]
    exact ⟨hreleased, rfl⟩

/-- A released handle stays released, and nothing more of its commands is sent. -/
theorem HandleInv.step_released (hc : c.Serial) (hinv : HandleInv c ending h) (hstep : h.Step c a h')
    (hreleased : h.released = true) : h'.released = true ∧ c.reached h'.client <+: c.reached h.client := by
  cases hstep with
  | executeSql text _ _ _ hcall =>
    rw [TransactionHandle.executeSql, if_pos hreleased] at hcall
    cases hcall
  | commit _ _ _ hcall =>
    rw [TransactionHandle.commit, if_pos hreleased] at hcall
    cases hcall
  | rollback _ _ =>
    rw [TransactionHandle.rollback, if_pos hreleased]
    exact ⟨hreleased, List.prefix_refl _⟩
  | client _ client hmove =>
    refine ⟨hreleased, ?_⟩
    cases hended : c.ended h.client with
    | false =>
      obtain ⟨-, hdrained⟩ := hinv.drained hreleased hended
      obtain ⟨hran, hsent, -⟩ := hc.step_drained hmove hended hdrained
      simp only [Client.reached, hran, hsent, hdrained.1, List.prefix_refl]
    | true => exact (hc.step_ended _ _ hmove hended (hinv.ended hended).2).2.2
  | settle _ _ _ client _ hanswer | answer _ _ _ client hanswer =>
    obtain ⟨hran, hsent, -⟩ := hc.settle_keeps _ _ _ _ hanswer
    exact ⟨hreleased, by simp only [Client.reached, hran, hsent, List.prefix_refl]⟩
  | resume x err _ hmem =>
    obtain ⟨hstay, hclient⟩ := resume_of_released c x err (h := { h with ready := h.ready.erase (x, err) }) hreleased
    exact ⟨hstay, by rw [hclient]⟩
  | deadline _ hmem =>
    obtain ⟨hstay, hclient⟩ := resume_of_released c .rollback (some "ROLLBACK did not complete in time")
      (h := { h with awaiting := h.awaiting.erase .rollback }) hreleased
    exact ⟨hstay, by rw [TransactionHandle.expire, hclient]⟩
  | connectionError _ _ hopen => cases hreleased.symm.trans hopen

/-- What a released handle has sent is all it will have sent. -/
theorem HandleInv.run_released (hc : c.Serial) (hinv : HandleInv c ending h)
    (hrun : Run c (fun h a => a.Timely h) h h') (hreleased : h.released = true) :
    h'.released = true ∧ c.reached h'.client <+: c.reached h.client := by
  induction hrun with
  | refl => exact ⟨hreleased, List.prefix_refl _⟩
  | tail hrun hstep ih =>
    obtain ⟨_, hmid⟩ := hinv.run hc hrun
    obtain ⟨a, -, hstep⟩ := hstep
    obtain ⟨hstay, hreached⟩ := hmid.step_released hc hstep ih.1
    exact ⟨hstay, hreached.trans ih.2⟩

end Invariant

variable {c : Client Command σ} {h : TransactionHandle σ} {client : σ}

/-- In a run without a call that comes while a COMMIT or ROLLBACK is in flight, no accepted statement runs
outside the transaction, a released client has nothing of the handle left and is sent nothing more,
and it is released once. -/
theorem beginTransaction_confines (hc : c.Serial) (hidle : c.Idle client)
    (hrun : TransactionHandle.Run c (fun h a => a.Timely h) (beginTransaction c client) h) :
    h.Confined c ∧ ∀ h', TransactionHandle.Run c (fun h a => a.Timely h) h h' → h.released = true →
      c.reached h'.client <+: c.reached h.client := by
  obtain ⟨_, hinv⟩ := (HandleInv.beginTransaction hc hidle).run hc hrun
  exact ⟨hinv.confined, fun h' hrun' hreleased => (hinv.run_released hc hrun' hreleased).2⟩

section Played

/-- A handle on a client whose commands take turns, once its BEGIN was answered. -/
def openHandle (client : Turns Command) (awaiting : List Command) (accepted : List String) :
    TransactionHandle (Turns Command) :=
  { client, opened := true, awaiting, accepted }

/-- The client sends the first command of its queue. -/
theorem TransactionHandle.Step.send {h : TransactionHandle (Turns Command)} (x : Command) (queue : List Command)
    (hqueue : h.client.queue = x :: queue) (hwire : h.client.wire = none) (hreply : h.client.reply = none) :
    h.Step Turns.client .client { h with client := { h.client with queue, wire := some x } } :=
  .client h _ (Turns.Step.send x queue hqueue hwire hreply)

/-- The server runs the command it was sent. -/
theorem TransactionHandle.Step.run {h : TransactionHandle (Turns Command)} (x : Command)
    (hwire : h.client.wire = some x) :
    h.Step Turns.client .client
      { h with client := { h.client with wire := none, reply := some (x, none), ran := h.client.ran ++ [x] } } :=
  .client h _ (Turns.Step.run x none hwire)

/-- A command first in the queue is sent, run and answered, and the call that awaits it goes on. -/
theorem TransactionHandle.Run.turn {may : TransactionHandle (Turns Command) → HandleAction → Prop}
    {h : TransactionHandle (Turns Command)} (x : Command) (queue : List Command)
    (hmay : ∀ h, may h .client ∧ may h (.settle x none) ∧ may h (.resume x none))
    (hqueue : h.client.queue = x :: queue) (hwire : h.client.wire = none) (hreply : h.client.reply = none)
    (hlive : h.client.ended = false) (hready : h.ready = []) (hmem : x ∈ h.awaiting) :
    TransactionHandle.Run Turns.client may h (TransactionHandle.resume Turns.client x none
      { h with client := { h.client with queue, ran := h.client.ran ++ [x] }, awaiting := h.awaiting.erase x }) := by
  obtain ⟨⟨_, _, _, ran, _⟩, opened, released, connectionError, awaiting, ready, accepted, returned, releases⟩ := h
  simp only at hqueue hwire hreply hlive hready hmem
  subst hqueue hwire hreply hlive hready
  refine .head ⟨_, (hmay _).1, .send x queue rfl rfl rfl⟩ ?_
  refine .head ⟨_, (hmay _).1, .run x rfl⟩ ?_
  refine .head ⟨_, (hmay _).2.1, .settle x none _ { queue, ran := ran ++ [x] } hmem ?_⟩ ?_
  · exact Turns.Settle.answer none _ rfl rfl (List.mem_append_right _ (List.mem_singleton_self x))
  · refine .single ⟨_, (hmay _).2.2, ?_⟩
    have hstep := Step.resume (c := Turns.client) x none
      { client := { queue, ran := ran ++ [x] }, opened, released, connectionError, awaiting := awaiting.erase x
        ready := [(x, none)], accepted, returned, releases } (List.mem_singleton_self _)
    rwa [List.erase_cons_head] at hstep

/-- A BEGIN is sent, run and answered, and the handle is handed out. -/
theorem openHandle_run {may : TransactionHandle (Turns Command) → HandleAction → Prop}
    (hmay : ∀ h, may h .client ∧ may h (.settle .begin none) ∧ may h (.resume .begin none)) :
    TransactionHandle.Run Turns.client may (beginTransaction Turns.client {}) (openHandle { ran := [.begin] } [] []) :=
  TransactionHandle.Run.turn .begin [] hmay rfl rfl rfl rfl rfl (List.mem_singleton_self _)

/-- A worker whose handler timed out rolls back, the handler issues one more statement before the ROLLBACK
is answered, and that statement runs after it, on a client that was given back with it queued. -/
theorem beginTransaction_escapes : ∃ h, TransactionHandle.Run Turns.client (fun _ _ => True)
    (beginTransaction Turns.client {}) h ∧ h.released = true ∧ h.accepted = ["INSERT"] ∧
      h.client.ran = [.begin, .rollback, .statement "INSERT"] ∧ ¬ h.Confined Turns.client := by
  let late := openHandle { ran := [.begin], queue := [.rollback, .statement "INSERT"] } [.rollback] ["INSERT"]
  let freed : TransactionHandle (Turns Command) := TransactionHandle.resume Turns.client .rollback none
    { late with client := { queue := [.statement "INSERT"], ran := [.begin, .rollback] }, awaiting := [] }
  have hlate : TransactionHandle.Run Turns.client (fun _ _ => True) (beginTransaction Turns.client {}) late :=
    ((openHandle_run fun _ => ⟨trivial, trivial, trivial⟩).tail ⟨.rollback, trivial, .rollback _ rfl⟩).tail
      ⟨.executeSql "INSERT", trivial, .executeSql "INSERT" _ late rfl rfl⟩
  have hfreed : TransactionHandle.Run Turns.client (fun _ _ => True) late freed :=
    .turn .rollback [.statement "INSERT"] (fun _ => ⟨trivial, trivial, trivial⟩) rfl rfl rfl rfl rfl
      (List.mem_singleton_self _)
  have hsent : TransactionHandle.Step Turns.client .client freed
      { freed with client := { wire := some (.statement "INSERT"), ran := [.begin, .rollback] } } :=
    .send (.statement "INSERT") [] rfl rfl rfl
  refine ⟨_, ((hlate.trans hfreed).tail ⟨_, trivial, hsent⟩).tail ⟨_, trivial, .run (.statement "INSERT") rfl⟩, rfl, rfl,
    rfl, fun hconfined => ?_⟩
  obtain ⟨settle, -, hbetween⟩ := hconfined.between
  exact nomatch (List.cons_prefix_cons.mp (List.cons_prefix_cons.mp hbetween).2).1

/-- A committed handler: its statement runs between BEGIN and COMMIT. -/
theorem beginTransaction_confines_commit : ∃ h, (h.Confined Turns.client ∧
    ∀ h', TransactionHandle.Run Turns.client (fun h a => a.Timely h) h h' → h.released = true →
      Turns.client.reached h'.client <+: Turns.client.reached h.client) ∧ h.released = true ∧
        h.client.ran = [.begin, .statement "INSERT", .commit] := by
  let issued := openHandle { ran := [.begin], queue := [.statement "INSERT"] } [] ["INSERT"]
  let ran := openHandle { ran := [.begin, .statement "INSERT"] } [] ["INSERT"]
  let committing := openHandle { ran := [.begin, .statement "INSERT"], queue := [.commit] } [.commit] ["INSERT"]
  have hissued : TransactionHandle.Run Turns.client (fun h a => a.Timely h) (beginTransaction Turns.client {}) issued :=
    (openHandle_run fun _ => ⟨trivial, trivial, trivial⟩).tail
      ⟨.executeSql "INSERT", .inr rfl, .executeSql "INSERT" _ issued rfl rfl⟩
  have hran : TransactionHandle.Run Turns.client (fun h a => a.Timely h) issued ran :=
    .head ⟨.client, trivial, .send (.statement "INSERT") [] rfl rfl rfl⟩
      (.head ⟨.client, trivial, .run (.statement "INSERT") rfl⟩
        (.single ⟨.settle (.statement "INSERT") none, trivial, .answer "INSERT" none _ _
          (Turns.Settle.answer none _ rfl rfl (by decide))⟩))
  have hcommit : TransactionHandle.Step Turns.client .commit ran committing := .commit _ committing rfl rfl
  have hturn : TransactionHandle.Run Turns.client (fun h a => a.Timely h) committing _ :=
    .turn .commit [] (fun _ => ⟨trivial, trivial, trivial⟩) rfl rfl rfl rfl rfl (List.mem_singleton_self _)
  exact ⟨_, beginTransaction_confines Turns.client_serial ⟨rfl, rfl⟩
    (((hissued.trans hran).tail ⟨.commit, .inr rfl, hcommit⟩).trans hturn), rfl, rfl⟩

end Played

end PgBoss
