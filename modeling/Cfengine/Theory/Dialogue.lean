import Mathlib.Data.List.ReduceOption

/-!
# Dialogues

Two parties exchange messages over a queue in each direction. What a party does next depends only on
what it has received, so steps of the two can be exchanged (`Config.diamond`): if one run comes to
an end, every run can be continued to the same end, and none is longer (`Reaches.ends_alike`). In
every run each party has received, in order, a beginning of what the other one has sent
(`Reaches.transcripts`).
-/

namespace Dialogue

universe u v w

/-- What a party does next. A party that hangs up leaves the other one with what is still in its
queue. -/
inductive Party (μ : Type u) (ρ : Type v) where
  | ended (hangsUp : Bool) (result : ρ)
  | send (message : μ) (next : Party μ ρ)
  | receive (next : Option μ → Party μ ρ)

namespace Party

variable {μ : Type u} {ρ : Type v} {p p' q q' next : Party μ ρ} {message : μ}
  {f : Option μ → Party μ ρ}
  {inbox inbox' sent outs outs' : List μ} {ins ins' : List (Option μ)} {closed : Bool}
    {b : Bool} {r : ρ}

def isHungUp : Party μ ρ → Bool
  | ended hangsUp _ => hangsUp
  | _ => false

/-- Where the party is after its next step, what is left of its queue, and what it sends. -/
def move (closed : Bool) (inbox : List μ) : Party μ ρ → Option (Party μ ρ × List μ × List μ)
  | ended _ _ => none
  | send message next => some (next, inbox, [message])
  | receive next =>
    match inbox with
    | [] => if closed then some (next none, [], []) else none
    | message :: inbox => some (next (some message), inbox, [])

/-- What the party receives, where a message that does not arrive is `none`, and what it sends
meanwhile. -/
inductive Trace : Party μ ρ → List (Option μ) → List μ → Party μ ρ → Prop where
  | nil {p : Party μ ρ} : Trace p [] [] p
  | send {message : μ} {next q : Party μ ρ} {ins : List (Option μ)} {outs : List μ} : Trace next
      ins outs q →
    Trace (.send message next) ins (message :: outs) q
  | receive {next : Option μ → Party μ ρ} {message : Option μ} {q : Party μ ρ}
      {ins : List (Option μ)}
    {outs : List μ} : Trace (next message) ins outs q →
      Trace (.receive next) (message :: ins) outs q

theorem Trace.trans (h : Trace p ins outs p') (h' : Trace p' ins' outs' q) :
    Trace p (ins ++ ins') (outs ++ outs') q := by
  induction h with
  | nil => exact h'
  | send _ ih => exact .send (ih h')
  | receive _ ih => exact .receive (ih h')

theorem Trace.of_ended (h : Trace (.ended b r) ins outs q) :
    ins = [] ∧ outs = [] ∧ q = .ended b r := by
  cases h
  exact ⟨rfl, rfl, rfl⟩

/-- A party that is at its end has sent what it had to send. -/
theorem Trace.of_send (h : Trace (.send message next) ins outs (.ended b r)) :
    ∃ outs', outs = message :: outs' ∧ Trace next ins outs' (.ended b r) := by
  cases h with
  | send h => exact ⟨_, rfl, h⟩

theorem Trace.of_receive (h : Trace (.receive f) ins outs (.ended b r)) :
    ∃ message ins', ins = message :: ins' ∧ Trace (f message) ins' outs (.ended b r) := by
  cases h with
  | receive h => exact ⟨_, _, rfl, h⟩

/-- A party that has sent something has received what comes in front of it. -/
theorem Trace.of_receive_cons (h : Trace (.receive f) ins (message :: outs) q) :
    ∃ received ins', ins = received :: ins' ∧ Trace (f received) ins' (message :: outs) q := by
  cases h with
  | receive h => exact ⟨_, _, rfl, h⟩

theorem Trace.of_send_cons {message' : μ}
    (h : Trace (.send message next) ins (message' :: outs) q) :
    message' = message ∧ Trace next ins outs q := by
  cases h with
  | send h => exact ⟨rfl, h⟩

/-- A step takes a message from the front of the queue, or none from an empty one. -/
theorem trace_of_move (h : p.move closed inbox = some (p', inbox', sent)) :
    ∃ ins, Trace p ins sent p' ∧ ins.reduceOption ++ inbox' = inbox := by
  cases p with
  | ended => cases h
  | send message next =>
    cases h
    exact ⟨[], .send .nil, rfl⟩
  | receive next =>
    cases inbox with
    | nil =>
      cases closed with
      | false => cases h
      | true =>
        cases h
        exact ⟨[none], .receive .nil, rfl⟩
    | cons message inbox =>
      cases h
      exact ⟨[some message], .receive .nil, rfl⟩

/-- A step does not depend on what comes later into the queue. -/
theorem move_append (h : p.move false inbox = some (p', inbox', sent)) (later : List μ)
    (closed : Bool) :
    p.move closed (inbox ++ later) = some (p', inbox' ++ later, sent) := by
  cases p with
  | ended => cases h
  | send message next =>
    cases h
    rfl
  | receive next =>
    cases inbox with
    | nil => cases h
    | cons message inbox =>
      cases h
      rfl

theorem not_isHungUp_of_move (h : p.move closed inbox = some (p', inbox', sent)) :
    p.isHungUp = false := by
  cases p with
  | ended => cases h
  | send | receive => rfl

end Party

open Party

/-- Both parties, each with the queue of what it has not received yet. -/
structure Config (μ : Type u) (ρ : Type v) (σ : Type w) where
  left : Party μ ρ
  right : Party μ σ
  toLeft : List μ
  toRight : List μ

variable {μ : Type u} {ρ : Type v} {σ : Type w} {c c' c₁ c₂ d e : Config μ ρ σ} {m n : Nat}

namespace Config

def moveLeft (c : Config μ ρ σ) : Option (Config μ ρ σ) :=
  (c.left.move c.right.isHungUp c.toLeft).map fun r =>
    { c with left := r.1, toLeft := r.2.1, toRight := c.toRight ++ r.2.2 }

def moveRight (c : Config μ ρ σ) : Option (Config μ ρ σ) :=
  (c.right.move c.left.isHungUp c.toRight).map fun r =>
    { c with right := r.1, toRight := r.2.1, toLeft := c.toLeft ++ r.2.2 }

/-- One of the parties moves. -/
def Step (c c' : Config μ ρ σ) : Prop := c.moveLeft = some c' ∨ c.moveRight = some c'

/-- Neither party can move. -/
def Ended (c : Config μ ρ σ) : Prop := ∀ c', ¬ c.Step c'

/-- The start of a dialogue. -/
def start (p : Party μ ρ) (q : Party μ σ) : Config μ ρ σ := ⟨p, q, [], []⟩

theorem moveLeft_eq_some : c.moveLeft = some c' ↔ ∃ p inbox sent,
    c.left.move c.right.isHungUp c.toLeft = some (p, inbox, sent) ∧
      c' = ⟨p, c.right, inbox, c.toRight ++ sent⟩ := by
  rw [moveLeft, Option.map_eq_some_iff]
  constructor
  · rintro ⟨⟨p, inbox, sent⟩, h, rfl⟩
    exact ⟨p, inbox, sent, h, rfl⟩
  · rintro ⟨p, inbox, sent, h, rfl⟩
    exact ⟨(p, inbox, sent), h, rfl⟩

theorem moveRight_eq_some : c.moveRight = some c' ↔ ∃ p inbox sent,
    c.right.move c.left.isHungUp c.toRight = some (p, inbox, sent) ∧
      c' = ⟨c.left, p, c.toLeft ++ sent, inbox⟩ := by
  rw [moveRight, Option.map_eq_some_iff]
  constructor
  · rintro ⟨⟨p, inbox, sent⟩, h, rfl⟩
    exact ⟨p, inbox, sent, h, rfl⟩
  · rintro ⟨p, inbox, sent, h, rfl⟩
    exact ⟨(p, inbox, sent), h, rfl⟩

/-- A step of the one party and a step of the other one can be exchanged. -/
theorem exchange (hleft : c.moveLeft = some c₁) (hright : c.moveRight = some c₂) :
    ∃ d, c₁.moveRight = some d ∧ c₂.moveLeft = some d := by
  obtain ⟨p, inbox, sent, hp, rfl⟩ := moveLeft_eq_some.mp hleft
  obtain ⟨q, inbox', sent', hq, rfl⟩ := moveRight_eq_some.mp hright
  -- neither queue is at its end, since the party that fills it can still move
  rw [not_isHungUp_of_move hq] at hp
  rw [not_isHungUp_of_move hp] at hq
  refine ⟨⟨p, q, inbox ++ sent', inbox' ++ sent⟩, moveRight_eq_some.mpr ?_, moveLeft_eq_some.mpr ?_⟩
  · exact ⟨q, inbox' ++ sent, sent', move_append hq sent _, rfl⟩
  · exact ⟨p, inbox ++ sent', sent, move_append hp sent' _, rfl⟩

/-- Two steps from one state lead to one state, or are the same. -/
theorem diamond (h₁ : c.Step c₁) (h₂ : c.Step c₂) : c₁ = c₂ ∨ ∃ d, c₁.Step d ∧ c₂.Step d := by
  obtain h₁ | h₁ := h₁ <;> obtain h₂ | h₂ := h₂
  · exact .inl (Option.some.inj (h₁.symm.trans h₂))
  · obtain ⟨d, hd₁, hd₂⟩ := exchange h₁ h₂
    exact .inr ⟨d, .inr hd₁, .inl hd₂⟩
  · obtain ⟨d, hd₂, hd₁⟩ := exchange h₂ h₁
    exact .inr ⟨d, .inl hd₁, .inr hd₂⟩
  · exact .inl (Option.some.inj (h₁.symm.trans h₂))

end Config

open Config

/-- A run of so many steps, of the parties in any order. -/
inductive Reaches : Nat → Config μ ρ σ → Config μ ρ σ → Prop where
  | refl {c : Config μ ρ σ} : Reaches 0 c c
  | step {n : Nat} {c d e : Config μ ρ σ} : c.Step d → Reaches n d e → Reaches (n + 1) c e

theorem Reaches.one (h : c.Step d) : Reaches 1 c d := .step h .refl

theorem Reaches.trans (h : Reaches m c d) (h' : Reaches n d e) : Reaches (m + n) c e := by
  induction h with
  | refl => exact (Nat.zero_add n).symm ▸ h'
  | step hstep _ ih => exact (Nat.add_right_comm _ 1 n) ▸ .step hstep (ih h')

def RunsTo (c d : Config μ ρ σ) : Prop := ∃ n, Reaches n c d

theorem RunsTo.refl : RunsTo c c := ⟨0, .refl⟩

theorem RunsTo.trans (h : RunsTo c d) (h' : RunsTo d e) : RunsTo c e := by
  obtain ⟨m, h⟩ := h
  obtain ⟨n, h'⟩ := h'
  exact ⟨m + n, h.trans h'⟩

section
variable {left : Party μ ρ} {right : Party μ σ} {f : Option μ → Party μ ρ}
  {g : Option μ → Party μ σ}
  {message : μ} {toLeft toRight : List μ}

theorem reaches_sendLeft :
    Reaches 1 ⟨.send message left, right, toLeft, toRight⟩
      ⟨left, right, toLeft, toRight ++ [message]⟩ :=
  .one (.inl rfl)

theorem reaches_sendRight :
    Reaches 1 ⟨left, .send message right, toLeft, toRight⟩
      ⟨left, right, toLeft ++ [message], toRight⟩ :=
  .one (.inr rfl)

theorem reaches_receiveLeft :
    Reaches 1 ⟨.receive f, right, message :: toLeft, toRight⟩
      ⟨f (some message), right, toLeft, toRight⟩ :=
  .one (.inl (by rw [moveLeft, Party.move, Option.map_some, List.append_nil]))

theorem reaches_receiveRight :
    Reaches 1 ⟨left, .receive g, toLeft, message :: toRight⟩
      ⟨left, g (some message), toLeft, toRight⟩ :=
  .one (.inr (by rw [moveRight, Party.move, Option.map_some, List.append_nil]))

/-- A message that is sent while nothing is in the queues, and received. -/
theorem runsTo_passRight :
    RunsTo ⟨.send message left, .receive g, [], []⟩ ⟨left, g (some message), [], []⟩ :=
  .trans ⟨1, reaches_sendLeft⟩ ⟨1, reaches_receiveRight⟩

theorem runsTo_passLeft :
    RunsTo ⟨.receive f, .send message right, [], []⟩ ⟨f (some message), right, [], []⟩ :=
  .trans ⟨1, reaches_sendRight⟩ ⟨1, reaches_receiveLeft⟩

theorem ended_ended {b b' : Bool} {r : ρ} {r' : σ} :
    (⟨.ended b r, .ended b' r', toLeft, toRight⟩ : Config μ ρ σ).Ended := by
  rintro c (h | h) <;> cases h

end

/-- After any first step the run comes to the same end. -/
theorem Reaches.after_step (h : Reaches n c e) (he : e.Ended) (hstep : c.Step d) :
    ∃ k, n = k + 1 ∧ Reaches k d e := by
  induction h generalizing d with
  | refl => exact absurd hstep (he d)
  | step hstep' hrest ih =>
    obtain rfl | ⟨d', hd', hd⟩ := diamond hstep' hstep
    · exact ⟨_, rfl, hrest⟩
    · obtain ⟨k, rfl, hk⟩ := ih he hd'
      exact ⟨k + 1, rfl, .step hd hk⟩

/-- If a run comes to an end, every run can be continued to this end, and is as long then. -/
theorem Reaches.ends_alike (h : Reaches n c e) (he : e.Ended) (h' : Reaches m c d) :
    ∃ k, n = m + k ∧ Reaches k d e := by
  induction h' generalizing n with
  | refl => exact ⟨n, (Nat.zero_add n).symm, h⟩
  | step hstep _ ih =>
    obtain ⟨k, rfl, hk⟩ := h.after_step he hstep
    obtain ⟨l, rfl, hl⟩ := ih hk
    exact ⟨l, by omega, hl⟩

/-- What the parties have received is the beginning of what the other one has sent. -/
structure Transcripts (p : Party μ ρ) (q : Party μ σ) (c : Config μ ρ σ) where
  leftIns : List (Option μ)
  leftOuts : List μ
  rightIns : List (Option μ)
  rightOuts : List μ
  left : Trace p leftIns leftOuts c.left
  right : Trace q rightIns rightOuts c.right
  toLeft : leftIns.reduceOption ++ c.toLeft = rightOuts
  toRight : rightIns.reduceOption ++ c.toRight = leftOuts

variable {p : Party μ ρ} {q : Party μ σ}

theorem Transcripts.moveLeft (t : Transcripts p q c) (h : c.moveLeft = some d) :
    Nonempty (Transcripts p q d) := by
  obtain ⟨p', inbox, sent, hmove, rfl⟩ := moveLeft_eq_some.mp h
  obtain ⟨ins, htrace, hinbox⟩ := trace_of_move hmove
  refine ⟨⟨t.leftIns ++ ins, t.leftOuts ++ sent, t.rightIns, t.rightOuts, t.left.trans htrace,
    t.right, ?_, ?_⟩⟩
  · rw [List.reduceOption_append, List.append_assoc, hinbox, t.toLeft]
  · rw [← t.toRight, List.append_assoc]

theorem Transcripts.moveRight (t : Transcripts p q c) (h : c.moveRight = some d) :
    Nonempty (Transcripts p q d) := by
  obtain ⟨q', inbox, sent, hmove, rfl⟩ := moveRight_eq_some.mp h
  obtain ⟨ins, htrace, hinbox⟩ := trace_of_move hmove
  refine ⟨⟨t.leftIns, t.leftOuts, t.rightIns ++ ins, t.rightOuts ++ sent, t.left,
    t.right.trans htrace, ?_, ?_⟩⟩
  · rw [← t.toLeft, List.append_assoc]
  · rw [List.reduceOption_append, List.append_assoc, hinbox, t.toRight]

theorem Transcripts.reaches (t : Transcripts p q c) (h : Reaches n c d) :
    Nonempty (Transcripts p q d) := by
  induction h with
  | refl => exact ⟨t⟩
  | step hstep _ ih =>
    obtain hleft | hright := hstep
    · obtain ⟨t'⟩ := t.moveLeft hleft
      exact ih t'
    · obtain ⟨t'⟩ := t.moveRight hright
      exact ih t'

theorem Reaches.transcripts (h : Reaches n (start p q) d) : Nonempty (Transcripts p q d) :=
  Transcripts.reaches ⟨[], [], [], [], .nil, .nil, rfl, rfl⟩ h

end Dialogue
