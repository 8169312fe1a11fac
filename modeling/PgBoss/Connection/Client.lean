import Mathlib

/-!
# Clients of one connection

A client takes commands, sends them on one connection and has them run there in the order they
were issued. What a user of a client sees of it is abstract: the commands run, those on the wire
and those queued, and how the state moves. The laws are those of a client that keeps its order;
the last section has a client that sends a command when the answer to the one before has come.
-/

namespace Connection

universe u v

/-- A client of commands `α`: what has become of the commands issued on it, and how it moves. -/
structure Client (α : Type u) (σ : Type v) where
  ran : σ → List α
  sent : σ → List α
  queued : σ → List α
  ended : σ → Bool
  query : α → σ → σ
  discard : σ → σ
  step : σ → σ → Prop
  settle : α → Option String → σ → σ → Prop

variable {α : Type u} {σ : Type v}

/-- The commands that have reached the server or its connection. -/
def Client.reached (c : Client α σ) (s : σ) : List α := c.ran s ++ c.sent s

/-- The commands issued, in order. -/
def Client.trace (c : Client α σ) (s : σ) : List α := c.reached s ++ c.queued s

/-- The client of a connection nothing was issued on. -/
structure Client.Idle (c : Client α σ) (s : σ) : Prop where
  ended : c.ended s = false
  trace : c.trace s = []

/-- The client keeps the order of its commands: a command joins the end, one that runs was the next,
an answer is to one that ran, and nothing is sent on a connection that was given up. -/
structure Client.Serial (c : Client α σ) : Prop where
  query_ran : ∀ x s, c.ran (c.query x s) = c.ran s
  query_trace : ∀ x s, c.ended s = false → c.trace (c.query x s) = c.trace s ++ [x]
  query_ended : ∀ x s, c.ended (c.query x s) = c.ended s
  step_ran : ∀ s s', c.step s s' → c.ran s <+: c.ran s'
  step_trace : ∀ s s', c.step s s' → c.ended s = false → c.ended s' = false ∧ c.trace s' = c.trace s
  step_ended : ∀ s s', c.step s s' → c.ended s = true → c.queued s = [] →
    c.ended s' = true ∧ c.queued s' = [] ∧ c.reached s' <+: c.reached s
  settle_ran : ∀ x s s', c.settle x none s s' → x ∈ c.ran s
  settle_keeps : ∀ x e s s', c.settle x e s s' → c.ran s' = c.ran s ∧ c.sent s' = c.sent s ∧
    c.queued s' = c.queued s ∧ c.ended s' = c.ended s
  discard_ran : ∀ s, c.ran (c.discard s) = c.ran s
  discard_ended : ∀ s, c.ended (c.discard s) = true
  discard_queued : ∀ s, c.queued (c.discard s) = []
  discard_sent : ∀ s, c.sent (c.discard s) <+: c.sent s

namespace Client.Serial

variable {c : Client α σ} {s s' : σ} {x : α} {e : Option String} {before : List α}

/-- An answer leaves the commands where they are. -/
theorem settle_trace (hc : c.Serial) (h : c.settle x e s s') : c.trace s' = c.trace s := by
  obtain ⟨hran, hsent, hqueued, -⟩ := hc.settle_keeps x e s s' h
  simp only [Client.trace, Client.reached, hran, hsent, hqueued]

/-- Giving the connection up leaves a part of the commands. -/
theorem discard_trace (hc : c.Serial) (s : σ) : c.trace (c.discard s) <+: c.reached s := by
  simp only [Client.trace, Client.reached, hc.discard_ran, hc.discard_queued, List.append_nil]
  exact (List.prefix_append_right_inj _).mpr (hc.discard_sent s)

/-- What ran was reached, and what was reached was issued. -/
theorem ran_prefix (c : Client α σ) (s : σ) : c.ran s <+: c.trace s :=
  (List.prefix_append _ _).trans (List.prefix_append _ _)

/-- When the last command, unlike the ones before, has run, all have. -/
theorem drained (hlast : c.trace s = before ++ [x]) (hnew : x ∉ before) (hran : x ∈ c.ran s) :
    c.sent s = [] ∧ c.queued s = [] := by
  simp only [Client.trace, Client.reached, List.append_assoc] at hlast
  rcases List.append_eq_append_iff.mp hlast with ⟨rest, hbefore, -⟩ | ⟨rest, hran', hrest⟩
  · exact absurd (hbefore ▸ List.mem_append_left rest hran) hnew
  · cases rest with
    | nil => exact absurd (by simpa [hran'] using hran) hnew
    | cons y rest =>
      obtain ⟨-, hnil⟩ := List.cons.inj hrest
      exact List.append_eq_nil_iff.mp (List.append_eq_nil_iff.mp hnil.symm).2

/-- A client with nothing left stays so until a command is issued. -/
theorem step_drained (hc : c.Serial) (h : c.step s s') (hended : c.ended s = false)
    (hdrained : c.sent s = [] ∧ c.queued s = []) : c.ran s' = c.ran s ∧ c.sent s' = [] ∧ c.queued s' = [] := by
  obtain ⟨rest, hrest⟩ := hc.step_ran s s' h
  have htrace := (hc.step_trace s s' h hended).2
  simp only [Client.trace, Client.reached, hdrained.1, hdrained.2, List.append_nil, ← hrest,
    List.append_assoc] at htrace
  have hnil := List.append_right_eq_self.mp htrace
  simp only [List.append_eq_nil_iff] at hnil
  exact ⟨by rw [← hrest, hnil.1, List.append_nil], hnil.2⟩

end Client.Serial

/-- A client that sends one command at a time. -/
structure Turns (α : Type u) where
  queue : List α := []
  wire : Option α := none
  reply : Option (α × Option String) := none
  ran : List α := []
  ended : Bool := false

namespace Turns

/-- What a client that sends one command at a time does on its own: the first command in the queue is sent
once the answer to the last one has come, and the server runs the command it was sent. -/
inductive Step (s : Turns α) : Turns α → Prop
  | send (x : α) (queue : List α) (hqueue : s.queue = x :: queue) (hwire : s.wire = none) (hreply : s.reply = none) :
    Step s { s with queue, wire := some x }
  | run (x : α) (e : Option String) (hwire : s.wire = some x) :
    Step s { s with wire := none, reply := some (x, e), ran := s.ran ++ [x] }

/-- An answer comes, or the end of the connection answers for one that will not. -/
inductive Settle (x : α) : Option String → Turns α → Turns α → Prop
  | answer (e : Option String) (s : Turns α) (hended : s.ended = false) (hreply : s.reply = some (x, e))
      (hran : x ∈ s.ran) : Settle x e s { s with reply := none }
  | lost (e : String) (s : Turns α) (hended : s.ended = true) : Settle x (some e) s s

/-- The client whose commands take turns. -/
def client : Client α (Turns α) where
  ran s := s.ran
  sent s := s.wire.toList
  queued s := s.queue
  ended s := s.ended
  query x s := { s with queue := if s.ended then s.queue else s.queue ++ [x] }
  discard s := { s with queue := [], reply := none, ended := true }
  step := Step
  settle := Settle

/-- Commands that take turns keep their order. -/
theorem client_serial : (client : Client α (Turns α)).Serial where
  query_ran _ _ := rfl
  query_trace x s hended := by
    simp only [client, Client.trace, Client.reached] at hended ⊢
    simp only [hended, Bool.false_eq_true, if_false, List.append_assoc]
  query_ended _ _ := rfl
  step_ran
    | _, _, .send .. => List.prefix_refl _
    | _, _, .run .. => List.prefix_append _ _
  step_trace
    | s, _, .send x queue hqueue hwire _, hended =>
      ⟨hended, by simp [client, Client.trace, Client.reached, hqueue, hwire]⟩
    | s, _, .run x _ hwire, hended => ⟨hended, by simp [client, Client.trace, Client.reached, hwire]⟩
  step_ended
    | _, _, .send _ _ hqueue _ _, _, hnone => nomatch hqueue.symm.trans hnone
    | _, _, .run x _ hwire, hended, hqueue => ⟨hended, hqueue, by simp [client, Client.reached, hwire]⟩
  settle_ran | _, _, _, .answer _ _ _ _ hran => hran
  settle_keeps
    | _, _, _, _, .answer .. => ⟨rfl, rfl, rfl, rfl⟩
    | _, _, _, _, .lost .. => ⟨rfl, rfl, rfl, rfl⟩
  discard_ran _ := rfl
  discard_ended _ := rfl
  discard_queued _ := rfl
  discard_sent _ := List.prefix_refl _

end Turns

end Connection
