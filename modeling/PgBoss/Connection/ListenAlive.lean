import PgBoss.Connection.Listen

/-!
# A listener stays alive

While its events come at times the code allows for, a returned subscription has a heartbeat, a `connect()` call or a
reconnect timer under way until it is closed, one client with handlers and one reconnect timer at most, and nothing to
say once closed. Three moments break this, which the conditions name.
-/

namespace PgBoss

namespace Listener

/-- The conditions: the first client is not lost behind its reply, nothing is closed behind a reply, and the reconnect
timer does not fire while a client has handlers. -/
def Timely (l : Listener) : ListenEvent → Prop
  | .clientLost x => l.established = true ∨ l.phase x ≠ some .replied
  | .close => ∀ x, l.phase x ≠ some .replied
  | .reconnectFires _ => ∀ x, l.attached x = false
  | _ => True

/-- A `connect()` call under way: that of the current client, or one that failed and is behind its `end()` or its throw. -/
def Attempting (l : Listener) (x : ℕ) : Prop :=
  l.client = some x ∧ l.phase x ≠ none ∨ l.phase x = some .ending ∨ l.phase x = some .thrown

/-- A current client with its heartbeat armed or in flight, a connection attempt, or a reconnect timer. -/
def Alive (l : Listener) : Prop :=
  (∃ x, l.client = some x ∧ ((∃ id, (id, x) ∈ l.heartbeats) ∨ x ∈ l.beats)) ∨ (∃ x, Attempting l x) ∨ l.reconnects ≠ []

/-- One client with handlers, which is the current one, and one reconnect timer, at most. -/
def Single (l : Listener) : Prop :=
  (∀ x, l.attached x = true → l.client = some x) ∧ l.reconnects.length ≤ 1

/-- What a listener that goes on has under way: the current client's part, a timer, or a call that will set one. -/
def UnderWay (l : Listener) : Prop :=
  (∃ x, l.client = some x ∧ (l.phase x ≠ none ∨ (∃ id, (id, x) ∈ l.heartbeats) ∨ x ∈ l.beats)) ∨ l.reconnects ≠ [] ∨
    ∃ x, x ≠ 0 ∧ (l.phase x = some .ending ∨ l.phase x = some .thrown)

theorem UnderWay.alive {l : Listener} (h : UnderWay l) : Alive l := by
  rcases h with ⟨x, hx, hphase | hbeat⟩ | htimer | ⟨x, -, hfailed⟩
  · exact .inr (.inl ⟨x, .inl ⟨hx, hphase⟩⟩)
  · exact .inl ⟨x, hx, hbeat⟩
  · exact .inr (.inr htimer)
  · exact .inr (.inl ⟨x, .inr hfailed⟩)

/-- A call still waits for its connection or the reply. -/
def Waiting (l : Listener) (x : ℕ) : Prop :=
  l.phase x = some .connecting ∨ l.phase x = some .listening ∨ l.phase x = some .replied

/-- Before the first connection is established, there is only its client. -/
structure Unestablished (l : Listener) : Prop where
  clients : l.clients = 1
  timer : l.reconnectTimer = none
  heartbeats : l.heartbeats = []
  beats : l.beats = []
  replied : l.phase 0 = some .replied → l.client = some 0

/-- What a closed listener has left. -/
structure Silenced (l : Listener) : Prop where
  returned : l.returned = true
  timer : l.reconnectTimer = none
  detached : ∀ x, l.attached x = false
  replied : ∀ x, l.phase x ≠ some .replied

/-- What holds throughout. -/
structure Inv (l : Listener) : Prop where
  made : 0 < l.clients
  fresh : ∀ x, l.clients ≤ x → l.phase x = none ∧ l.attached x = false
  current : ∀ x, l.attached x = true → l.client = some x
  timer : l.reconnects.map Prod.fst = l.reconnectTimer.toList
  returned : l.returned = l.established
  first : l.returned = true → l.phase 0 = none
  unestablished : l.established = false → Unestablished l
  ending : ∀ x, l.phase x = some .ending → l.attached x = false
  waiting : ∀ x, Waiting l x → l.ended x = true ∨ l.client = some x ∧ l.attached x = true
  silenced : l.closed = true → Silenced l
  underWay : l.returned = true → l.closed = false → UnderWay l

theorem inv_start : Inv start where
  made := Nat.one_pos
  fresh x hx := by
    have hne : x ≠ 0 := by
      have : 1 ≤ x := hx
      omega
    simp [start, connect, hne]
  current x hx := by
    by_cases hzero : x = 0
    · subst hzero; rfl
    · simp [start, connect, hzero] at hx
  timer := rfl
  returned := rfl
  first h := nomatch h
  unestablished _ := ⟨rfl, rfl, rfl, rfl, fun h => by simp [start, connect] at h⟩
  ending x hx := by
    by_cases hzero : x = 0
    · subst hzero; simp [start, connect] at hx
    · simp [start, connect, hzero] at hx
  waiting x hx := by
    by_cases hzero : x = 0
    · subst hzero; exact .inr ⟨rfl, rfl⟩
    · simp [start, connect, Waiting, hzero] at hx
  silenced h := nomatch h
  underWay h := nomatch h

section Parts

variable {l : Listener} {x : ℕ}

@[simp] theorem clearHeartbeat_fields : l.clearHeartbeat.closed = l.closed ∧ l.clearHeartbeat.client = l.client ∧
    l.clearHeartbeat.reconnectTimer = l.reconnectTimer ∧ l.clearHeartbeat.established = l.established ∧
    l.clearHeartbeat.returned = l.returned ∧ l.clearHeartbeat.clients = l.clients ∧ l.clearHeartbeat.phase = l.phase ∧
    l.clearHeartbeat.attached = l.attached ∧ l.clearHeartbeat.ended = l.ended ∧
    l.clearHeartbeat.reconnects = l.reconnects ∧ l.clearHeartbeat.beats = l.beats := by
  unfold clearHeartbeat
  split <;> simp

theorem scheduleHeartbeat_fields (x : ℕ) (l : Listener) : (scheduleHeartbeat x l).closed = l.closed ∧
    (scheduleHeartbeat x l).client = l.client ∧ (scheduleHeartbeat x l).reconnectTimer = l.reconnectTimer ∧
    (scheduleHeartbeat x l).established = l.established ∧ (scheduleHeartbeat x l).returned = l.returned ∧
    (scheduleHeartbeat x l).clients = l.clients ∧ (scheduleHeartbeat x l).phase = l.phase ∧
    (scheduleHeartbeat x l).attached = l.attached ∧ (scheduleHeartbeat x l).ended = l.ended ∧
    (scheduleHeartbeat x l).reconnects = l.reconnects ∧ (scheduleHeartbeat x l).beats = l.beats := by
  unfold scheduleHeartbeat
  split <;> simp

/-- The current client gets its heartbeat, and what else was under way goes on. -/
theorem underWay_scheduleHeartbeat (hopen : l.closed = false) (h : l.client ≠ some x → UnderWay l) :
    UnderWay (scheduleHeartbeat x l) := by
  by_cases hcurrent : l.client = some x
  · refine .inl ⟨x, by rw [(scheduleHeartbeat_fields x l).2.1, hcurrent], .inr (.inl ⟨l.timers, ?_⟩)⟩
    simp [scheduleHeartbeat, hopen, hcurrent]
  · have hidle : scheduleHeartbeat x l = l := by simp [scheduleHeartbeat, hcurrent]
    rw [hidle]
    exact h hcurrent

/-- A reconnect timer is pending once one was scheduled. -/
theorem scheduleReconnect_pending (h : l.reconnects.map Prod.fst = l.reconnectTimer.toList) (hopen : l.closed = false) :
    l.scheduleReconnect.reconnects ≠ [] ∧
      l.scheduleReconnect.reconnects.map Prod.fst = l.scheduleReconnect.reconnectTimer.toList := by
  unfold scheduleReconnect
  cases htimer : l.reconnectTimer with
  | none =>
    have hnone : l.reconnects = [] := by simpa [htimer] using h
    simp [hopen, hnone]
  | some id =>
    have hsome : l.reconnects ≠ [] := fun hnil => by simp [htimer, hnil] at h
    simp [hopen, htimer, h, hsome]

theorem scheduleReconnect_fields : l.scheduleReconnect.closed = l.closed ∧ l.scheduleReconnect.client = l.client ∧
    l.scheduleReconnect.established = l.established ∧ l.scheduleReconnect.returned = l.returned ∧
    l.scheduleReconnect.clients = l.clients ∧ l.scheduleReconnect.phase = l.phase ∧
    l.scheduleReconnect.attached = l.attached ∧ l.scheduleReconnect.ended = l.ended := by
  unfold scheduleReconnect
  split <;> simp

theorem forget_fields : (forget x l).closed = l.closed ∧ (forget x l).client = none ∧
    (forget x l).reconnectTimer = l.reconnectTimer ∧ (forget x l).established = l.established ∧
    (forget x l).returned = l.returned ∧ (forget x l).clients = l.clients ∧ (forget x l).phase = l.phase ∧
    (forget x l).attached = Function.update l.attached x false ∧ (forget x l).ended = Function.update l.ended x true ∧
    (forget x l).reconnects = l.reconnects ∧ (forget x l).beats = l.beats := by
  simp [forget, dropClient, clearHeartbeat_fields]

theorem disconnect_of_current (hopen : l.closed = false) (hcurrent : l.client = some x) :
    (disconnect x l).1 = if l.established then (forget x l).scheduleReconnect else forget x l := by
  simp [disconnect, hopen, hcurrent]

/-- What `disconnect` leaves of a current client. -/
theorem disconnect_current (hopen : l.closed = false) (hcurrent : l.client = some x) :
    (disconnect x l).1.closed = false ∧ (disconnect x l).1.client = none ∧
      (disconnect x l).1.established = l.established ∧ (disconnect x l).1.returned = l.returned ∧
      (disconnect x l).1.clients = l.clients ∧ (disconnect x l).1.phase = l.phase ∧
      (disconnect x l).1.attached = Function.update l.attached x false ∧
      (disconnect x l).1.ended = Function.update l.ended x true := by
  rw [disconnect_of_current hopen hcurrent]
  split <;> simp [scheduleReconnect_fields, forget_fields, hopen]

theorem disconnect_timer (h : l.reconnects.map Prod.fst = l.reconnectTimer.toList) (hopen : l.closed = false)
    (hcurrent : l.client = some x) :
    (disconnect x l).1.reconnects.map Prod.fst = (disconnect x l).1.reconnectTimer.toList ∧
      (l.established = true → (disconnect x l).1.reconnects ≠ []) ∧
      (l.established = false → (disconnect x l).1.reconnectTimer = l.reconnectTimer) := by
  have hforgotten : (forget x l).reconnects.map Prod.fst = (forget x l).reconnectTimer.toList := by
    simpa [forget_fields] using h
  have hpending := scheduleReconnect_pending hforgotten (by simp [forget_fields, hopen])
  rw [disconnect_of_current hopen hcurrent]
  cases hest : l.established with
  | true => exact ⟨hpending.2, fun _ => hpending.1, nofun⟩
  | false => exact ⟨hforgotten, nofun, fun _ => by simp [forget_fields]⟩

theorem disconnect_idle (h : l.closed = true ∨ l.client ≠ some x) : disconnect x l = (l, []) := by
  unfold disconnect
  rw [if_pos (by rcases h with h | h <;> simp [h])]

/-- The heartbeat queries in flight make no difference to `disconnect`. -/
theorem disconnect_beats (beats : List ℕ) :
    (disconnect x { l with beats := beats }).1 = { (disconnect x l).1 with beats := beats } := by
  by_cases hidle : l.closed = true ∨ l.client ≠ some x
  · have hsame : disconnect x { l with beats := beats } = ({ l with beats := beats }, []) := disconnect_idle hidle
    rw [hsame, disconnect_idle hidle]
  · rw [not_or, not_not, Bool.not_eq_true] at hidle
    have hsame : (disconnect x { l with beats := beats }).1 = if l.established then (forget x { l with beats := beats }).scheduleReconnect
        else forget x { l with beats := beats } := disconnect_of_current hidle.1 hidle.2
    rw [hsame, disconnect_of_current hidle.1 hidle.2]
    split <;> cases htimer : l.heartbeatTimer <;> cases hreconnect : l.reconnectTimer <;>
      simp [forget, clearHeartbeat, dropClient, scheduleReconnect, htimer, hreconnect, hidle.1]

/-- Losing the current client keeps the invariant, unless it is the first behind its reply. -/
theorem Inv.disconnect (h : Inv l) (hearly : l.established = true ∨ l.phase x ≠ some .replied ∧ l.heartbeats = [] ∧ l.beats = []) :
    Inv (disconnect x l).1 := by
  by_cases hidle : l.closed = true ∨ l.client ≠ some x
  · rw [disconnect_idle hidle]
    exact h
  rw [not_or, not_not, Bool.not_eq_true] at hidle
  obtain ⟨hopen, hcurrent⟩ := hidle
  obtain ⟨hclosed', hclient', hest', hret', hclients', hphase', hattached', hended'⟩ := disconnect_current hopen hcurrent
  obtain ⟨htimer', hpending', hkept'⟩ := disconnect_timer h.timer hopen hcurrent
  have hdetached : ∀ y, (Listener.disconnect x l).1.attached y = false := by
    intro y
    rw [hattached']
    by_cases hy : y = x
    · simp [hy]
    · rw [Function.update_of_ne hy, Bool.eq_false_iff]
      intro hattached
      exact hy (Option.some.inj ((h.current y hattached).symm.trans hcurrent))
  refine ⟨hclients' ▸ h.made, fun y hy => ⟨?_, hdetached y⟩, fun y hy => ?_, htimer', by rw [hret', hest', h.returned], fun hret => ?_,
    fun hest => ?_, fun y _ => hdetached y, fun y hy => .inl ?_, fun hclosed => ?_, fun hret _ => ?_⟩
  · rw [hphase']
    exact (h.fresh y (hclients' ▸ hy)).1
  · rw [hdetached y] at hy
    cases hy
  · rw [hphase']
    exact h.first (hret' ▸ hret)
  · rw [hest'] at hest
    obtain ⟨hphase, hheartbeats, hbeats⟩ := hearly.resolve_left (by simp [hest])
    have hfirst := h.unestablished hest
    have hheart : (Listener.disconnect x l).1.heartbeats = [] ∧ (Listener.disconnect x l).1.beats = [] := by
      rw [disconnect_of_current hopen hcurrent, hest]
      refine ⟨?_, by simp [forget_fields, hbeats]⟩
      simp only [forget, dropClient, clearHeartbeat, Bool.false_eq_true, if_false]
      split <;> simp [hheartbeats]
    refine ⟨by rw [hclients', hfirst.clients], by rw [hkept' hest, hfirst.timer], hheart.1, hheart.2, fun hreplied => ?_⟩
    rw [hphase'] at hreplied
    have hzero : x = 0 := Option.some.inj (hcurrent.symm.trans (hfirst.replied hreplied))
    exact absurd (hzero ▸ hreplied) hphase
  · rw [hended']
    by_cases hy' : y = x
    · simp [hy']
    · rw [Function.update_of_ne hy']
      have hwaiting : Waiting l y := by
        unfold Waiting at hy ⊢
        rwa [hphase'] at hy
      rcases h.waiting y hwaiting with hended | ⟨hother, -⟩
      · exact hended
      · exact absurd (Option.some.inj (hother.symm.trans hcurrent)) hy'
  · rw [hclosed'] at hclosed
    cases hclosed
  · exact .inr (.inl (hpending' (by rw [← h.returned, ← hret', hret])))

end Parts

section Steps

variable {l : Listener} {x : ℕ}

/-- A call that is under way has its client among those made. -/
theorem Inv.lt_clients (h : Inv l) (hphase : l.phase x ≠ none) : x < l.clients := by
  by_contra hge
  exact hphase (h.fresh x (Nat.not_lt.mp hge)).1

theorem Inv.ne_of_le (h : Inv l) (hphase : l.phase x ≠ none) {y : ℕ} (hy : l.clients ≤ y) : y ≠ x := by
  have hlt := h.lt_clients hphase
  omega

/-- Before anything is established, the call under way is the first. -/
theorem Inv.first_of_unestablished (h : Inv l) (hphase : l.phase x ≠ none) (hest : l.established = false) : x = 0 := by
  have hlt := h.lt_clients hphase
  rw [(h.unestablished hest).clients] at hlt
  omega

theorem Inv.ne_first (h : Inv l) (hphase : l.phase x ≠ none) (hreturned : l.returned = true) : x ≠ 0 := by
  rintro rfl
  exact hphase (h.first hreturned)

/-- A call that goes on waiting keeps the invariant, where a reply it has was not that of an ended client. -/
theorem Inv.wait (h : Inv l) {before after : ConnectPhase} (hbefore : l.phase x = some before) (hwaiting : Waiting l x)
    (hended : l.ended x = false) (hafter : after = .listening ∨ after = .replied) : Inv (goTo x (some after) l) := by
  have hcurrent : l.client = some x ∧ l.attached x = true := (h.waiting x hwaiting).resolve_left (by simp [hended])
  have hphase : l.phase x ≠ none := by simp [hbefore]
  refine ⟨h.made, fun y hy => ?_, h.current, h.timer, h.returned, fun hret => ?_, fun hest => ?_, fun y hy => ?_, fun y hy => ?_,
    fun hclosed => ?_, fun hret hopen => ?_⟩
  · have hne : y ≠ x := h.ne_of_le hphase hy
    simpa [goTo, hne] using h.fresh y hy
  · have hne : 0 ≠ x := (h.ne_first hphase hret).symm
    simpa [goTo, hne] using h.first hret
  · obtain rfl := h.first_of_unestablished hphase hest
    have hfirst := h.unestablished hest
    exact ⟨hfirst.clients, hfirst.timer, hfirst.heartbeats, hfirst.beats, fun _ => hcurrent.1⟩
  · by_cases hne : y = x
    · rcases hafter with rfl | rfl <;> simp [goTo, hne] at hy
    · exact h.ending y (by simpa [goTo, hne] using hy)
  · by_cases hy' : y = x
    · exact .inr (hy' ▸ hcurrent)
    · refine h.waiting y ?_
      simpa [Waiting, goTo, hy'] using hy
  · have hattached := (h.silenced hclosed).detached x
    rw [hcurrent.2] at hattached
    cases hattached
  · refine .inl ⟨x, hcurrent.1, .inl ?_⟩
    simp [goTo]

theorem Inv.failed (h : Inv l) (hphase : l.phase x = some .connecting ∨ l.phase x = some .listening) :
    Inv (dropClient x (goTo x (some .ending) l)) := by
  have hsome : l.phase x ≠ none := by rcases hphase with h | h <;> simp [h]
  refine ⟨h.made, fun y hy => ?_, fun y hy => ?_, h.timer, h.returned, fun hret => ?_, fun hest => ?_, fun y hy => ?_,
    fun y hy => ?_, fun hclosed => ?_, fun hret hopen => ?_⟩
  · have hne : y ≠ x := h.ne_of_le hsome hy
    simpa [dropClient, goTo, hne] using h.fresh y hy
  · by_cases hne : y = x
    · simp [dropClient, goTo, hne] at hy
    · exact h.current y (by simpa [dropClient, goTo, hne] using hy)
  · have hne : 0 ≠ x := (h.ne_first hsome hret).symm
    simpa [dropClient, goTo, hne] using h.first hret
  · obtain rfl := h.first_of_unestablished hsome hest
    have hfirst := h.unestablished hest
    exact ⟨hfirst.clients, hfirst.timer, hfirst.heartbeats, hfirst.beats, fun hreplied => by simp [dropClient, goTo] at hreplied⟩
  · by_cases hne : y = x
    · simp [dropClient, goTo, hne]
    · simpa [dropClient, goTo, hne] using h.ending y (by simpa [dropClient, goTo, hne] using hy)
  · by_cases hne : y = x
    · simp [Waiting, dropClient, goTo, hne] at hy
    · have hwaiting := h.waiting y (by simpa [Waiting, dropClient, goTo, hne] using hy)
      simpa [dropClient, goTo, hne] using hwaiting
  · have hsilent := h.silenced hclosed
    refine ⟨hsilent.returned, hsilent.timer, fun y => ?_, fun y => ?_⟩
    · by_cases hne : y = x
      · simp [dropClient, goTo, hne]
      · simpa [dropClient, goTo, hne] using hsilent.detached y
    · by_cases hne : y = x
      · simp [dropClient, goTo, hne]
      · simpa [dropClient, goTo, hne] using hsilent.replied y
  · have hne := h.ne_first hsome hret
    exact .inr (.inr ⟨x, hne, .inl (by simp [dropClient, goTo])⟩)

theorem Inv.endSettled (h : Inv l) (hphase : l.phase x = some .ending) :
    Inv { goTo x (some .thrown) l with client := if l.client = some x then none else l.client } := by
  have hsome : l.phase x ≠ none := by simp [hphase]
  have hdetached := h.ending x hphase
  have hkept : ∀ y, l.attached y = true → l.client = some y ∧ l.client ≠ some x := by
    intro y hy
    refine ⟨h.current y hy, fun hcurrent => ?_⟩
    obtain rfl : y = x := Option.some.inj ((h.current y hy).symm.trans hcurrent)
    rw [hdetached] at hy
    cases hy
  refine ⟨h.made, fun y hy => ?_, fun y hy => ?_, h.timer, h.returned, fun hret => ?_, fun hest => ?_, fun y hy => ?_,
    fun y hy => ?_, fun hclosed => ?_, fun hret hopen => ?_⟩
  · have hne : y ≠ x := h.ne_of_le hsome hy
    simpa [goTo, hne] using h.fresh y hy
  · obtain ⟨hcurrent, hother⟩ := hkept y hy
    simpa [hother] using hcurrent
  · have hne : 0 ≠ x := (h.ne_first hsome hret).symm
    simpa [goTo, hne] using h.first hret
  · obtain rfl := h.first_of_unestablished hsome hest
    have hfirst := h.unestablished hest
    exact ⟨hfirst.clients, hfirst.timer, hfirst.heartbeats, hfirst.beats, fun hreplied => by simp [goTo] at hreplied⟩
  · by_cases hne : y = x
    · simp [goTo, hne] at hy
    · exact h.ending y (by simpa [goTo, hne] using hy)
  · by_cases hne : y = x
    · simp [Waiting, goTo, hne] at hy
    · rcases h.waiting y (by simpa [Waiting, goTo, hne] using hy) with hended | ⟨hcurrent, hattached⟩
      · exact .inl hended
      · exact .inr ⟨by simpa [(hkept y hattached).2] using hcurrent, hattached⟩
  · have hsilent := h.silenced hclosed
    refine ⟨hsilent.returned, hsilent.timer, hsilent.detached, fun y => ?_⟩
    by_cases hne : y = x
    · simp [goTo, hne]
    · simpa [goTo, hne] using hsilent.replied y
  · exact .inr (.inr ⟨x, h.ne_first hsome hret, .inr (by simp [goTo])⟩)

theorem Inv.done (h : Inv l) (hphase : l.phase x = some .thrown) (hidle : l.returned = true → l.closed = false → l.reconnects ≠ []) :
    Inv (goTo x none l) := by
  have hsome : l.phase x ≠ none := by simp [hphase]
  have hother : ∀ {y p}, (goTo x none l).phase y = some p → l.phase y = some p := by
    intro y p hy
    by_cases hne : y = x
    · simp [goTo, hne] at hy
    · simpa [goTo, hne] using hy
  refine ⟨h.made, fun y hy => ?_, h.current, h.timer, h.returned, fun hret => ?_, fun hest => ?_, fun y hy => h.ending y (hother hy),
    fun y hy => h.waiting y (hy.imp hother (Or.imp hother hother)), fun hclosed => ?_, fun hret hopen => ?_⟩
  · have hne : y ≠ x := h.ne_of_le hsome hy
    simpa [goTo, hne] using h.fresh y hy
  · have hne : 0 ≠ x := (h.ne_first hsome hret).symm
    simpa [goTo, hne] using h.first hret
  · have hfirst := h.unestablished hest
    exact ⟨hfirst.clients, hfirst.timer, hfirst.heartbeats, hfirst.beats, fun hreplied => hfirst.replied (hother hreplied)⟩
  · have hsilent := h.silenced hclosed
    exact ⟨hsilent.returned, hsilent.timer, hsilent.detached, fun y hy => hsilent.replied y (hother hy)⟩
  · exact .inr (.inl (hidle hret hopen))

theorem Inv.scheduleReconnect (h : Inv l) (hest : l.established = true) : Inv l.scheduleReconnect := by
  cases hclosed : l.closed with
  | true =>
    rw [show l.scheduleReconnect = l by simp [Listener.scheduleReconnect, hclosed]]
    exact h
  | false =>
    obtain ⟨hpending, htimer⟩ := scheduleReconnect_pending h.timer hclosed
    obtain ⟨hclosed', hclient', hest', hret', hclients', hphase', hattached', hended'⟩ := @scheduleReconnect_fields l
    refine ⟨hclients' ▸ h.made, ?_, ?_, htimer, ?_, ?_, ?_, ?_, ?_, ?_, fun _ _ => .inr (.inl hpending)⟩
    · rw [hclients', hphase', hattached']
      exact h.fresh
    · rw [hattached', hclient']
      exact h.current
    · rw [hret', hest', h.returned]
    · rw [hret', hphase']
      exact h.first
    · rw [hest', hest]
      nofun
    · rw [hphase', hattached']
      exact h.ending
    · unfold Waiting
      rw [hphase', hended', hclient', hattached']
      exact h.waiting
    · rw [hclosed', hclosed]
      nofun

/-- A failed call sets the reconnect timer, but for the first, which fails `listen()`. -/
theorem Inv.caught (h : Inv l) (hphase : l.phase x = some .thrown) :
    Inv (if x = 0 then goTo x none l else Listener.scheduleReconnect (goTo x none l)) := by
  have hsome : l.phase x ≠ none := by simp [hphase]
  split_ifs with hzero
  · refine h.done hphase fun hret _ => ?_
    exact absurd hzero (h.ne_first hsome hret)
  · have hest : l.established = true := by
      by_contra hest
      exact hzero (h.first_of_unestablished hsome (Bool.eq_false_iff.mpr hest))
    have hcomm : Listener.scheduleReconnect (goTo x none l) = goTo x none l.scheduleReconnect := by
      cases hidle : l.closed || l.reconnectTimer.isSome <;> simp [Listener.scheduleReconnect, goTo, hidle]
    rw [hcomm]
    refine (h.scheduleReconnect hest).done ?_ fun _ hopen => ?_
    · rw [scheduleReconnect_fields.2.2.2.2.2.1, hphase]
    · rw [scheduleReconnect_fields.1] at hopen
      exact (scheduleReconnect_pending h.timer hopen).1

theorem Inv.establish (h : Inv l) (hphase : l.phase x = some .replied) : Inv (establish x l).1 := by
  have hsome : l.phase x ≠ none := by simp [hphase]
  have hopen : l.closed = false := by
    by_contra hclosed
    exact (h.silenced (by simpa using hclosed)).replied x hphase
  have hother : ∀ {y p}, (goTo x none l).phase y = some p → l.phase y = some p := by
    intro y p hy
    by_cases hne : y = x
    · simp [goTo, hne] at hy
    · simpa [goTo, hne] using hy
  have hreturned : (l.returned || decide (x = 0)) = true := by
    cases hret : l.returned with
    | true => rfl
    | false => simp [h.first_of_unestablished hsome (h.returned ▸ hret)]
  have hzero : (goTo x none l).phase 0 = none := by
    by_cases hx : 0 = x
    · simp [goTo, hx]
    · have hret : l.returned = true := by simpa [Ne.symm hx] using hreturned
      simpa [goTo, hx] using h.first hret
  obtain ⟨hclosed', hclient', htimer', hest', hret', hclients', hphase', hattached', hended', hreconnects', -⟩ :=
    scheduleHeartbeat_fields x
      { goTo x none l with attempt := 0, established := true, returned := l.returned || decide (x = 0) }
  have hunder : UnderWay (Listener.establish x l).1 := by
    refine underWay_scheduleHeartbeat hopen fun hlost => ?_
    have hret : l.returned = true := by
      by_contra hret
      have hest : l.established = false := by rw [← h.returned]; simpa using hret
      obtain rfl := h.first_of_unestablished hsome hest
      exact hlost ((h.unestablished hest).replied hphase)
    rcases h.underWay hret hopen with ⟨y, hy, hbusy⟩ | htimer | ⟨y, hy, hending⟩
    · have hne : y ≠ x := fun heq => hlost (heq ▸ hy)
      exact .inl ⟨y, hy, by simpa [goTo, hne] using hbusy⟩
    · exact .inr (.inl htimer)
    · have hne : y ≠ x := by rintro rfl; simp [hphase] at hending
      exact .inr (.inr ⟨y, hy, by simpa [goTo, hne] using hending⟩)
  refine ⟨?_, fun y hy => ?_, fun y hy => ?_, ?_, ?_, fun _ => ?_, fun hest => ?_, fun y hy => ?_, fun y hy => ?_,
    fun hclosed => ?_, fun _ _ => hunder⟩ <;>
    simp only [Listener.establish, Waiting, hclosed', hclient', htimer', hest', hret', hclients', hphase', hattached', hended',
      hreconnects'] at *
  · exact h.made
  · have hne := h.ne_of_le hsome hy
    simpa [goTo, hne] using h.fresh y hy
  · exact h.current y hy
  · exact h.timer
  · exact hreturned
  · exact hzero
  · cases hest
  · exact h.ending y (hother hy)
  · exact h.waiting y (hy.imp hother (Or.imp hother hother))
  · rw [show (goTo x none l).closed = l.closed from rfl, hopen] at hclosed
    cases hclosed

/-- A change of the heartbeats alone. -/
theorem Inv.beat (h : Inv l) {l' : Listener} (hsame : l'.closed = l.closed ∧ l'.client = l.client ∧
    l'.reconnectTimer = l.reconnectTimer ∧ l'.established = l.established ∧ l'.returned = l.returned ∧
    l'.clients = l.clients ∧ l'.phase = l.phase ∧ l'.attached = l.attached ∧ l'.ended = l.ended ∧
    l'.reconnects = l.reconnects) (hest : l.established = true)
    (hunder : l.returned = true → l.closed = false → UnderWay l') : Inv l' := by
  obtain ⟨hclosed', hclient', htimer', hest', hret', hclients', hphase', hattached', hended', hreconnects'⟩ := hsame
  refine ⟨?_, ?_, ?_, ?_, ?_, ?_, ?_, ?_, ?_, ?_, ?_⟩ <;>
    simp only [Waiting, hclosed', hclient', htimer', hest', hret', hclients', hphase', hattached', hended', hreconnects']
  · exact h.made
  · exact h.fresh
  · exact h.current
  · exact h.timer
  · exact h.returned
  · exact h.first
  · rw [hest]
    nofun
  · exact h.ending
  · exact h.waiting
  · intro hclosed
    have hsilent := h.silenced hclosed
    exact ⟨hret' ▸ hsilent.returned, htimer' ▸ hsilent.timer, hattached' ▸ hsilent.detached, hphase' ▸ hsilent.replied⟩
  · exact hunder

/-- A timer that fired or a query that settled takes no other client's heartbeat away. -/
theorem UnderWay.other (h : UnderWay l) {l' : Listener} (hlost : l.client ≠ some x)
    (hsame : l'.client = l.client ∧ l'.phase = l.phase ∧ l'.reconnects = l.reconnects)
    (hheartbeats : ∀ id y, y ≠ x → (id, y) ∈ l.heartbeats → (id, y) ∈ l'.heartbeats)
    (hbeats : ∀ y, y ≠ x → y ∈ l.beats → y ∈ l'.beats) : UnderWay l' := by
  obtain ⟨hclient', hphase', hreconnects'⟩ := hsame
  unfold UnderWay
  rw [hclient', hphase', hreconnects']
  rcases h with ⟨y, hy, hbusy⟩ | h | h
  · have hne : y ≠ x := fun heq => hlost (heq ▸ hy)
    exact .inl ⟨y, hy, hbusy.imp_right (Or.imp (fun ⟨id, hid⟩ => ⟨id, hheartbeats id y hne hid⟩) (hbeats y hne))⟩
  · exact .inr (.inl h)
  · exact .inr (.inr h)

theorem Inv.heartbeatFires (h : Inv l) {timer : ℕ × ℕ} (htimer : timer ∈ l.heartbeats) :
    Inv (heartbeat timer.2 { l with heartbeats := l.heartbeats.erase timer, heartbeatTimer := none }) := by
  have hest : l.established = true := by
    by_contra hest
    rw [(h.unestablished (by simpa using hest)).heartbeats] at htimer
    cases htimer
  refine h.beat ?_ hest fun hret hopen => ?_
  · unfold heartbeat
    split <;> simp
  · by_cases hcurrent : l.client = some timer.2
    · refine .inl ⟨timer.2, ?_, .inr (.inr ?_)⟩ <;> simp [heartbeat, hopen, hcurrent]
    · refine (h.underWay hret hopen).other hcurrent ?_ (fun id y hne hid => ?_) fun y hne hy => ?_
      · simp [heartbeat, hcurrent]
      · have hdifferent : (id, y) ≠ timer := by rintro rfl; exact hne rfl
        simpa [heartbeat, hcurrent] using (List.mem_erase_of_ne hdifferent).mpr hid
      · simpa [heartbeat, hcurrent] using hy

theorem Inv.beatSettled (h : Inv l) (hbeat : x ∈ l.beats) (listening : Bool) :
    Inv (if listening then (scheduleHeartbeat x { l with beats := l.beats.erase x }, [])
      else Listener.disconnect x { l with beats := l.beats.erase x }).1 := by
  have hest : l.established = true := by
    by_contra hest
    rw [(h.unestablished (by simpa using hest)).beats] at hbeat
    cases hbeat
  have hother : l.client ≠ some x → l.returned = true → l.closed = false → UnderWay { l with beats := l.beats.erase x } :=
    fun hlost hret hopen => (h.underWay hret hopen).other hlost ⟨rfl, rfl, rfl⟩ (fun _ _ _ hid => hid)
      fun y hne hy => (List.mem_erase_of_ne hne).mpr hy
  cases listening with
  | true =>
    have hfields := scheduleHeartbeat_fields x { l with beats := l.beats.erase x }
    refine h.beat ?_ hest fun hret hopen => ?_
    · simp [hfields]
    · exact underWay_scheduleHeartbeat hopen fun hlost => hother hlost hret hopen
  | false =>
    rw [if_neg Bool.false_ne_true, disconnect_beats]
    refine (h.disconnect (.inl hest)).beat ⟨rfl, rfl, rfl, rfl, rfl, rfl, rfl, rfl, rfl, rfl⟩ ?_ fun hret hopen => ?_
    · by_cases hidle : l.closed = true ∨ l.client ≠ some x
      · rw [disconnect_idle hidle]
        exact hest
      · rw [not_or, not_not, Bool.not_eq_true] at hidle
        rw [(disconnect_current hidle.1 hidle.2).2.2.1, hest]
    · by_cases hidle : l.closed = true ∨ l.client ≠ some x
      · rw [disconnect_idle hidle] at hret hopen ⊢
        exact hother (hidle.resolve_left (by simp [show l.closed = false from hopen])) hret hopen
      · rw [not_or, not_not, Bool.not_eq_true] at hidle
        exact .inr (.inl ((disconnect_timer h.timer hidle.1 hidle.2).2.1 hest))

theorem close_fields : l.close.closed = true ∧ l.close.client = l.client ∧ l.close.reconnectTimer = none ∧
    l.close.established = l.established ∧ l.close.returned = l.returned ∧ l.close.clients = l.clients ∧
    l.close.phase = l.phase ∧ l.close.reconnects = l.reconnects.filter (fun timer => some timer.1 ≠ l.reconnectTimer) ∧
    (∀ y, l.close.attached y = (l.attached y && decide (l.client ≠ some y))) ∧
    ∀ y, l.close.ended y = (l.ended y || decide (l.client = some y)) := by
  cases hclient : l.client with
  | none => simp [Listener.close, hclient, clearHeartbeat_fields]
  | some x =>
    simp only [Listener.close, hclient, dropClient, clearHeartbeat_fields, true_and, Function.update_apply, ne_eq,
      Option.some.injEq]
    refine ⟨fun y => ?_, fun y => ?_⟩ <;> by_cases hy : y = x <;> simp [hy, Ne.symm]

/-- The one timer there can be is the one `close` clears. -/
theorem Inv.close_reconnects (h : Inv l) : l.close.reconnects = [] := by
  rw [close_fields.2.2.2.2.2.2.2.1, List.filter_eq_nil_iff]
  intro timer htimer
  have hmem : timer.1 ∈ l.reconnectTimer.toList := h.timer ▸ List.mem_map_of_mem htimer
  rw [Option.mem_toList] at hmem
  simp [hmem]

theorem Inv.close (h : Inv l) (hreturned : l.returned = true) (hreplied : ∀ y, l.phase y ≠ some .replied) : Inv l.close := by
  obtain ⟨hclosed', hclient', htimer', hest', hret', hclients', hphase', -, hattached', hended'⟩ := @close_fields l
  have hdetached : ∀ y, l.close.attached y = false := by
    intro y
    rw [hattached']
    cases hy : l.attached y with
    | false => rfl
    | true => simp [h.current y hy]
  refine ⟨hclients' ▸ h.made, fun y hy => ⟨?_, hdetached y⟩, fun y hy => ?_, by rw [h.close_reconnects, htimer']; rfl, by rw [hret', hest', h.returned],
    fun _ => ?_, fun hest => ?_, fun y _ => hdetached y, fun y hy => .inl ?_,
    fun _ => ⟨hret' ▸ hreturned, htimer', hdetached, hphase' ▸ hreplied⟩, fun _ hopen => ?_⟩
  · rw [hphase']
    exact (h.fresh y (hclients' ▸ hy)).1
  · rw [hdetached y] at hy
    cases hy
  · rw [hphase']
    exact h.first hreturned
  · rw [hest', ← h.returned, hreturned] at hest
    cases hest
  · have hwaiting : Waiting l y := by
      unfold Waiting at hy ⊢
      rwa [hphase'] at hy
    rw [hended']
    rcases h.waiting y hwaiting with hended | ⟨hcurrent, -⟩
    · simp [hended]
    · simp [hcurrent]
  · rw [hclosed'] at hopen
    cases hopen

theorem Inv.closeSettled (h : Inv l) (hclosed : l.closed = true) : Inv { l with client := none } := by
  have hsilent := h.silenced hclosed
  refine ⟨h.made, h.fresh, fun y hy => ?_, h.timer, h.returned, h.first, fun hest => ?_, h.ending, fun y hy => ?_,
    fun _ => ⟨hsilent.returned, hsilent.timer, hsilent.detached, hsilent.replied⟩, fun _ hopen => ?_⟩
  · rw [hsilent.detached y] at hy
    cases hy
  · rw [← h.returned, hsilent.returned] at hest
    cases hest
  · rcases h.waiting y hy with hended | ⟨-, hattached⟩
    · exact .inl hended
    · rw [hsilent.detached y] at hattached
      cases hattached
  · rw [hclosed] at hopen
    cases hopen

theorem Inv.reconnectFires (h : Inv l) {timer : ℕ × ℕ} (htimer : timer ∈ l.reconnects) (hfree : ∀ y, l.attached y = false) :
    Inv (connect { l with reconnects := l.reconnects.erase timer, reconnectTimer := none }).1 := by
  have hsome : timer.1 ∈ l.reconnectTimer.toList := h.timer ▸ List.mem_map_of_mem htimer
  rw [Option.mem_toList] at hsome
  have hopen : l.closed = false := by
    by_contra hclosed
    rw [(h.silenced (by simpa using hclosed)).timer] at hsome
    cases hsome
  have hest : l.established = true := by
    by_contra hest
    rw [(h.unestablished (by simpa using hest)).timer] at hsome
    cases hsome
  have hreturned : l.returned = true := h.returned.trans hest
  have hlone : l.reconnects = [timer] := by
    have hmap := h.timer
    rw [hsome] at hmap
    obtain ⟨only, honly⟩ : ∃ only, l.reconnects = [only] := List.length_eq_one_iff.mp (by simpa using congrArg List.length hmap)
    rw [honly] at htimer ⊢
    rw [List.mem_singleton.mp htimer]
  simp only [connect, hopen, Bool.false_eq_true, if_false]
  refine ⟨Nat.succ_pos _, fun y hy => ?_, fun y hy => ?_, ?_, h.returned, fun _ => ?_, fun hest' => ?_, fun y hy => ?_,
    fun y hy => ?_, fun hclosed => ?_, fun _ _ => .inl ⟨l.clients, rfl, .inl (by simp)⟩⟩
  · have hle : l.clients + 1 ≤ y := hy
    have hne : y ≠ l.clients := by omega
    simpa [hne] using h.fresh y (by omega)
  · by_cases hne : y = l.clients
    · rw [hne]
    · simp [hne, hfree y] at hy
  · simp [hlone]
  · have hne : 0 ≠ l.clients := Nat.ne_of_lt h.made
    simpa [hne] using h.first hreturned
  · rw [hest] at hest'
    cases hest'
  · by_cases hne : y = l.clients
    · simp [hne] at hy
    · simp [hne, hfree y]
  · by_cases hne : y = l.clients
    · simp [hne]
    · refine .inl ((h.waiting y (by simpa [Waiting, hne] using hy)).resolve_right fun hattached => ?_)
      simp [hfree y] at hattached
  · cases hclosed

/-- A step at a time the code allows for keeps the invariant. -/
theorem Inv.step (h : Inv l) {l' : Listener} {e : ListenEvent} {out : List ListenOutput} (hmay : Timely l e)
    (hstep : l.step e = some (l', out)) : Inv l' := by
  cases e <;> simp only [Listener.step, Option.ite_none_right_eq_some, Option.some.injEq] at hstep
  case connected x =>
    obtain ⟨⟨hphase, hended⟩, heq⟩ := hstep
    cases heq
    exact h.wait hphase (.inl hphase) hended (.inl rfl)
  case replied x =>
    obtain ⟨⟨hphase, hended⟩, heq⟩ := hstep
    cases heq
    exact h.wait hphase (.inr (.inl hphase)) hended (.inr rfl)
  case failed x =>
    obtain ⟨hphase, heq⟩ := hstep
    cases heq
    exact h.failed hphase
  case goesOn x =>
    obtain ⟨hphase, heq⟩ := hstep
    obtain rfl := congrArg Prod.fst heq
    exact h.establish hphase
  case endSettled x =>
    obtain ⟨hphase, heq⟩ := hstep
    cases heq
    exact h.endSettled hphase
  case caught x =>
    obtain ⟨hphase, heq⟩ := hstep
    cases heq
    exact h.caught hphase
  case clientLost x =>
    obtain ⟨hattached, heq⟩ := hstep
    have hearly : l.established = true ∨ l.phase x ≠ some .replied ∧ l.heartbeats = [] ∧ l.beats = [] := by
      cases hest : l.established with
      | true => exact .inl rfl
      | false =>
        have hfirst := h.unestablished hest
        exact .inr ⟨hmay.resolve_left (by simp [hest]), hfirst.heartbeats, hfirst.beats⟩
    obtain rfl := congrArg Prod.fst heq
    exact h.disconnect hearly
  case notification x payload =>
    obtain ⟨-, heq⟩ := hstep
    cases heq
    exact h
  case reconnectFires timer =>
    obtain ⟨htimer, heq⟩ := hstep
    obtain rfl := congrArg Prod.fst heq
    exact h.reconnectFires htimer hmay
  case heartbeatFires timer =>
    obtain ⟨htimer, heq⟩ := hstep
    cases heq
    exact h.heartbeatFires htimer
  case beatSettled x listening =>
    obtain ⟨hbeat, heq⟩ := hstep
    obtain rfl := congrArg Prod.fst heq
    exact h.beatSettled hbeat listening
  case close =>
    obtain ⟨hreturned, heq⟩ := hstep
    cases heq
    exact h.close hreturned hmay
  case closeSettled =>
    obtain ⟨hclosed, heq⟩ := hstep
    cases heq
    exact h.closeSettled hclosed

theorem Run.inv (h : Run Timely l) : Inv l := by
  induction h with
  | start => exact inv_start
  | step _ hmay hstep ih => exact ih.step hmay hstep

theorem Inv.single (h : Inv l) : Single l := by
  refine ⟨h.current, ?_⟩
  have hlength := congrArg List.length h.timer
  rw [List.length_map] at hlength
  rw [hlength]
  cases l.reconnectTimer <;> simp

/-- A closed listener opens no client, and says nothing. -/
theorem Inv.silent (h : Inv l) (hclosed : l.closed = true) {l' : Listener} {e : ListenEvent} {out : List ListenOutput}
    (hstep : l.step e = some (l', out)) : out = [] := by
  have hsilent := h.silenced hclosed
  cases e <;> simp only [Listener.step, Option.ite_none_right_eq_some, Option.some.injEq] at hstep
  case goesOn x => exact absurd hstep.1 (hsilent.replied x)
  case clientLost x => simp [hsilent.detached x] at hstep
  case notification x payload => simp [hsilent.detached x] at hstep
  case reconnectFires timer =>
    obtain ⟨-, heq⟩ := hstep
    simp only [connect, hclosed, if_true, Prod.mk.injEq] at heq
    exact heq.2.symm
  case beatSettled x listening =>
    obtain ⟨-, heq⟩ := hstep
    cases listening with
    | true => exact (congrArg Prod.snd heq).symm
    | false =>
      have hidle : Listener.disconnect x { l with beats := l.beats.erase x } = ({ l with beats := l.beats.erase x }, []) :=
        disconnect_idle (.inl hclosed)
      exact (congrArg Prod.snd (hidle.symm.trans heq)).symm
  all_goals exact (congrArg Prod.snd hstep.2).symm

/-- In a run whose steps all meet the conditions, a returned subscription stays alive until it is closed, with one
client and one reconnect timer at most, and says nothing once closed. -/
theorem listen_stays_alive (h : Run Timely l) :
    (l.returned = true → l.closed = false → Alive l) ∧ Single l ∧
      ∀ (e : ListenEvent) (l' : Listener) (out : List ListenOutput),
        l.closed = true → l.step e = some (l', out) → out = [] :=
  ⟨fun hreturned hopen => (h.inv.underWay hreturned hopen).alive, h.inv.single, fun _ _ _ hclosed => h.inv.silent hclosed⟩

/-- A subscription that lost its client after it was returned has a reconnect timer. -/
theorem listen_stays_alive_after_loss :
    ∃ l, after [.connected 0, .replied 0, .goesOn 0, .clientLost 0] = some l ∧ l.returned = true ∧ Alive l := by
  have hstarted : Run Timely start := .start
  have hconnected := hstarted.step (e := .connected 0) trivial rfl
  have hreplied := hconnected.step (e := .replied 0) trivial rfl
  have hreturned := hreplied.step (e := .goesOn 0) trivial rfl
  have hlost := hreturned.step (e := .clientLost 0) (.inl rfl) rfl
  exact ⟨_, rfl, rfl, (listen_stays_alive hlost).1 rfl rfl⟩

/-- The first client lost behind its reply: the handle is returned, and nothing is under way. -/
theorem listen_dead_behind_reply :
    ∃ l, after [.connected 0, .replied 0, .clientLost 0, .goesOn 0] = some l ∧ l.returned = true ∧ l.closed = false ∧
      ¬ Alive l := by
  refine ⟨_, rfl, rfl, rfl, ?_⟩
  have hphase : ∀ x, (goTo 0 none (goTo 0 (some .replied) (goTo 0 (some .listening) start))).phase x = none := by
    intro x
    by_cases hzero : x = 0 <;> simp [goTo, start, connect, hzero]
  rintro (⟨x, hx, -⟩ | ⟨x, ⟨hx, -⟩ | hending | hthrown⟩ | htimer)
  · cases hx
  · cases hx
  · cases (hphase x).symm.trans hending
  · cases (hphase x).symm.trans hthrown
  · exact htimer rfl

end Steps

end Listener

end PgBoss
