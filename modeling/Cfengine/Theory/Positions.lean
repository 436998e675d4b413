import Cfengine.Theory.Descent

/-!
# Parsers over positions

A parser here is told where to start, reads the text through accesses that can fail, and returns a
position. `Tracks` relates a call to a `ParseResult` over what is left of the text: the call
returns, its position lies between the start and the end and behind the start after a success, and
it marks what the other one leaves. `tracks_recurse` carries the relation from the bodies of two
recursive parsers to the parsers.
-/

namespace Positions
open Descent

variable {τ α β : Type*}

/-- Why a parser does not return. -/
inductive Stuck where
  | outOfSteps | outOfBounds
deriving DecidableEq, Repr

structure Result (β : Type*) where
  result : Option β
  position : Nat
deriving DecidableEq, Repr

abbrev PosParser (β : Type*) := Nat → Except Stuck (Result β)

/-- Continues behind a success; a failure is passed on with its position. -/
def andThen (call : Except Stuck (Result α)) (f : α → PosParser β) : Except Stuck (Result β) :=
  match call with
  | .error stuck => .error stuck
  | .ok ⟨none, position⟩ => .ok ⟨none, position⟩
  | .ok ⟨some a, position⟩ => f a position

/-- The parser that is unrolled `n` times. -/
def unroll (body : PosParser β → PosParser β) : Nat → PosParser β
  | 0, _ => .error .outOfSteps
  | n + 1, start => body (unroll body n) start

/-- The recursive parser with the given body, on a text of length `len`. -/
def recurse (len : Nat) (body : PosParser β → PosParser β) : PosParser β := fun start =>
  unroll body (len - start + 1) start

/-- The call returns a position from `start` to `len`, behind `start` after a success. -/
def Sound (start len : Nat) (call : Except Stuck (Result β)) : Prop :=
  ∃ res, call = .ok res ∧ start ≤ res.position ∧ res.position ≤ len ∧
    (res.result.isSome → start < res.position)

/-- A sound call that has the given result and stops where the given rest of the text starts. -/
structure Tracks (text : List τ) (start : Nat) (call : Except Stuck (Result β))
    (parsed : ParseResult τ β) :
    Prop where
  sound : Sound start text.length call
  agrees : ∀ res, call = .ok res → parsed = ⟨res.result, text.drop res.position⟩

variable {text : List τ} {start start' position : Nat} {call : Except Stuck (Result α)}
  {parsed : ParseResult τ α}

theorem tracks_fail {rest : List τ} (hstart : start ≤ position) (hend : position ≤ text.length)
    (hrest : text.drop position = rest) :
    Tracks text start (.ok ⟨none, position⟩ : Except Stuck (Result α)) ⟨none, rest⟩ where
  sound := ⟨_, rfl, hstart, hend, nofun⟩
  agrees := by
    rintro _ ⟨⟩
    rw [hrest]

theorem tracks_success {a : α} {rest : List τ} (hstart : start < position)
    (hend : position ≤ text.length) (hrest : text.drop position = rest) :
    Tracks text start (.ok ⟨some a, position⟩) ⟨some a, rest⟩ where
  sound := ⟨_, rfl, Nat.le_of_lt hstart, hend, fun _ => hstart⟩
  agrees := by
    rintro _ ⟨⟩
    rw [hrest]

theorem Tracks.mono (h : Tracks text start' call parsed) (hstart : start ≤ start') :
    Tracks text start call parsed where
  sound := by
    obtain ⟨res, hcall, hfrom, hend, hprogress⟩ := h.sound
    exact ⟨res, hcall, hstart.trans hfrom, hend, fun hres =>
      Nat.lt_of_le_of_lt hstart (hprogress hres)⟩
  agrees := h.agrees

/-- The two ways in which a call can end. -/
theorem Tracks.cases (h : Tracks text start call parsed) :
    (∃ position, start ≤ position ∧ position ≤ text.length ∧ call = .ok ⟨none, position⟩ ∧
      parsed = ⟨none, text.drop position⟩) ∨
    ∃ a position, start < position ∧ position ≤ text.length ∧ call = .ok ⟨some a, position⟩ ∧
      parsed = ⟨some a, text.drop position⟩ := by
  obtain ⟨⟨_ | a, position⟩, hcall, hstart, hend, hprogress⟩ := h.sound
  · exact .inl ⟨position, hstart, hend, hcall, h.agrees _ hcall⟩
  · exact .inr ⟨a, position, hprogress rfl, hend, hcall, h.agrees _ hcall⟩

theorem Tracks.andThen {f : α → PosParser β} {g : α → List τ → ParseResult τ β}
    (h : Tracks text start call parsed)
    (hf : ∀ a position, start < position → position ≤ text.length →
      Tracks text start (f a position) (g a (text.drop position))) :
    Tracks text start (Positions.andThen call f) (parsed.bind g) := by
  obtain ⟨position, hstart, hend, rfl, rfl⟩ | ⟨a, position, hstart, hend, rfl, rfl⟩ := h.cases
  · exact tracks_fail hstart hend rfl
  · exact hf a position hstart hend

/-- The parsers agree at every start from `start` on. -/
def TracksFrom (text : List τ) (start : Nat) (p : PosParser β) (q : Parser τ β) : Prop :=
  ∀ k, start ≤ k → k ≤ text.length → Tracks text k (p k) (q (text.drop k))

theorem TracksFrom.mono {p : PosParser β} {q : Parser τ β} (h : TracksFrom text start p q)
    (hstart : start ≤ start') :
    TracksFrom text start' p q := fun k hk => h k (hstart.trans hk)

/-- The bodies agree wherever the parsers they call agree further on. -/
def TracksBody (text : List τ) (start : Nat) (pbody : PosParser β → PosParser β)
    (qbody : Parser τ β → Parser τ β) : Prop :=
  ∀ p q k, start ≤ k → k ≤ text.length → TracksFrom text (k + 1) p q →
    Tracks text k (pbody p k) (qbody q (text.drop k))

variable {pbody : PosParser β → PosParser β} {qbody : Parser τ β → Parser τ β}

/-- Both parsers get by with more unrollings than there is text left. -/
theorem tracks_unroll (h : TracksBody text start pbody qbody) {n k : Nat} (hstart : start ≤ k)
    (hend : k ≤ text.length) (hn : text.length - k < n) :
    Tracks text k (unroll pbody n k) (Descent.unroll qbody n (text.drop k)) := by
  induction n generalizing k with
  | zero => omega
  | succ n ih =>
    refine h _ _ k hstart hend fun j hj hjend => ?_
    exact ih (by omega) hjend (by omega)

theorem tracks_recurse (h : TracksBody text start pbody qbody) :
    TracksFrom text start (recurse text.length pbody) (Descent.recurse qbody) := by
  intro k hstart hend
  rw [recurse, Descent.recurse, List.length_drop]
  exact tracks_unroll h hstart hend (Nat.lt_succ_self _)

end Positions
