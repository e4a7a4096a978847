/-
Module: Mimi.Lib.Duplex
Purpose: Two parties that follow dual scripts and exchange messages over two FIFO queues.
Trusted boundary: none
-/
import Mathlib

namespace Mimi.Lib

/-- Whether a party outputs or inputs a message. -/
inductive Polarity where
  | output
  | input
deriving DecidableEq, Repr

def Polarity.flip : Polarity → Polarity
  | output => input
  | input => output

@[simp] theorem Polarity.flip_flip (p : Polarity) : p.flip.flip = p := by cases p <;> rfl

/-- The messages a party still has to exchange, in order. -/
abbrev Script (α : Type) := List (Polarity × α)

/-- The script of the peer. -/
def Script.dual {α : Type} (script : Script α) : Script α :=
  script.map fun action => (action.1.flip, action.2)

/-- The script that receives the given messages. -/
def Script.inputs {α : Type} (messages : List α) : Script α :=
  messages.map fun message => (Polarity.input, message)

namespace Script

variable {α : Type}

@[simp] theorem dual_nil : dual ([] : Script α) = [] := rfl

@[simp] theorem dual_cons (p : Polarity) (x : α) (script : Script α) :
    dual ((p, x) :: script) = (p.flip, x) :: dual script := rfl

@[simp] theorem dual_dual (script : Script α) : script.dual.dual = script := by
  induction script with
  | nil => rfl
  | cons action script ih => obtain ⟨p, x⟩ := action; simp [ih]

@[simp] theorem dual_eq_nil {script : Script α} : script.dual = [] ↔ script = [] := by
  cases script <;> simp [dual]

@[simp] theorem inputs_nil : inputs ([] : List α) = [] := rfl

@[simp] theorem inputs_cons (x : α) (messages : List α) :
    inputs (x :: messages) = (.input, x) :: inputs messages := rfl

@[simp] theorem inputs_append (xs ys : List α) : inputs (xs ++ ys) = inputs xs ++ inputs ys := by
  simp [inputs]

end Script

/-- The two ends of a connection. -/
inductive Side where
  | lo
  | hi
deriving DecidableEq, Repr

def Side.peer : Side → Side
  | lo => hi
  | hi => lo

@[simp] theorem Side.peer_peer (s : Side) : s.peer.peer = s := by cases s <;> rfl

@[simp] theorem Side.peer_ne (s : Side) : s.peer ≠ s := by cases s <;> decide

@[simp] theorem Side.ne_peer (s : Side) : s ≠ s.peer := by cases s <;> decide

theorem Side.eq_or_eq_peer (s t : Side) : t = s ∨ t = s.peer := by
  cases s <;> cases t <;> simp [peer]

/-- Both residual scripts, and the messages in flight towards each side. -/
structure Duplex (α : Type) where
  residual : Side → Script α
  queue : Side → List α

namespace Duplex

open Function

variable {α : Type}

/-- One party sends or receives the next message of its script. -/
inductive Step : Duplex α → Duplex α → Prop where
  | send {d : Duplex α} {s : Side} {x : α} {rest : Script α}
      (next : d.residual s = (.output, x) :: rest) :
      Step d ⟨update d.residual s rest, update d.queue s.peer (d.queue s.peer ++ [x])⟩
  | recv {d : Duplex α} {s : Side} {x y : α} {rest : Script α} {messages : List α}
      (next : d.residual s = (.input, x) :: rest) (arrived : d.queue s = y :: messages) :
      Step d ⟨update d.residual s rest, update d.queue s messages⟩

/-- The two parties at the start of a script. -/
def start (script : Script α) : Duplex α where
  residual
    | .lo => script
    | .hi => script.dual
  queue _ := []

/-- Side `s` has run ahead: its peer first has to receive what is in flight towards it, and then
follows the dual of what `s` has left. -/
def Ahead (d : Duplex α) (s : Side) : Prop :=
  d.residual s.peer = Script.inputs (d.queue s.peer) ++ (d.residual s).dual ∧ d.queue s = []

/-- One of the sides has run ahead. -/
def Coherent (d : Duplex α) : Prop := ∃ s, d.Ahead s

theorem coherent_start (script : Script α) : (start script).Coherent :=
  ⟨.lo, by simp [Ahead, start, Side.peer]⟩

variable {d : Duplex α}

/-- A party that cannot receive and follows the dual script becomes the one ahead by sending. -/
theorem Ahead.swap {s : Side} (ahead : d.Ahead s) (caughtUp : d.queue s.peer = []) :
    d.Ahead s.peer := by
  obtain ⟨follows, quiet⟩ := ahead
  simp only [caughtUp, Script.inputs_nil, List.nil_append] at follows
  exact ⟨by simp [follows, quiet], caughtUp⟩

theorem Ahead.send {s : Side} {x : α} {rest : Script α} (ahead : d.Ahead s)
    (next : d.residual s = (.output, x) :: rest) :
    Ahead ⟨update d.residual s rest, update d.queue s.peer (d.queue s.peer ++ [x])⟩ s := by
  obtain ⟨follows, quiet⟩ := ahead
  simp [Ahead, follows, quiet, next, Polarity.flip]

/-- Coherence is kept by every step: sending puts the sender further ahead, or ahead when both were
level, and only the side that is behind can receive. -/
theorem Step.coherent {d d' : Duplex α} (step : Step d d') (coherent : d.Coherent) :
    d'.Coherent := by
  obtain ⟨s, ahead⟩ := coherent
  cases step with
  | @send t x rest next =>
      rcases Side.eq_or_eq_peer s t with rfl | rfl
      · exact ⟨t, ahead.send next⟩
      · cases inFlight : d.queue s.peer with
        | nil => exact ⟨s.peer, (ahead.swap inFlight).send next⟩
        | cons y messages => simp [ahead.1, inFlight] at next
  | @recv t x y rest messages next arrived =>
      rcases Side.eq_or_eq_peer s t with rfl | rfl
      · simp [ahead.2] at arrived
      · obtain ⟨follows, quiet⟩ := ahead
        simp only [follows, arrived, Script.inputs_cons, List.cons_append, List.cons.injEq] at next
        exact ⟨s, by simp [Ahead, ← next.2, quiet]⟩

/-- The message at the head of a queue is the one its receiver's script asks for. -/
theorem Coherent.agree (coherent : d.Coherent) {s : Side} {x y : α}
    {rest : Script α} {messages : List α} (next : d.residual s = (.input, x) :: rest)
    (arrived : d.queue s = y :: messages) : y = x := by
  obtain ⟨t, follows, quiet⟩ := coherent
  rcases Side.eq_or_eq_peer t s with rfl | rfl
  · simp [quiet] at arrived
  · simp only [follows, arrived, Script.inputs_cons, List.cons_append, List.cons.injEq,
      Prod.mk.injEq] at next
    exact next.1.2

/-- Until both scripts are finished somebody can move. -/
theorem Coherent.progress (coherent : d.Coherent) (unfinished : ¬ ∀ s, d.residual s = []) :
    (∃ s x rest, d.residual s = (.output, x) :: rest) ∨
      ∃ s x rest y messages,
        d.residual s = (.input, x) :: rest ∧ d.queue s = y :: messages := by
  obtain ⟨s, follows, quiet⟩ := coherent
  cases inFlight : d.queue s.peer with
  | cons y messages =>
      have waiting : d.residual s.peer
          = (.input, y) :: (Script.inputs messages ++ (d.residual s).dual) := by
        simp [follows, inFlight]
      exact .inr ⟨s.peer, y, _, y, messages, waiting, inFlight⟩
  | nil =>
      simp only [inFlight, Script.inputs_nil, List.nil_append] at follows
      cases left : d.residual s with
      | nil =>
          refine absurd (fun t => ?_) unfinished
          rcases Side.eq_or_eq_peer s t with rfl | rfl
          · exact left
          · simp [follows, left]
      | cons action rest =>
          obtain ⟨p, x⟩ := action
          cases p with
          | output => exact .inl ⟨s, x, rest, left⟩
          | input =>
              exact .inl ⟨s.peer, x, Script.dual rest, by simp [follows, left, Polarity.flip]⟩

/-- Once both scripts are finished nothing is in flight. -/
theorem Coherent.queues_empty (coherent : d.Coherent)
    (finished : ∀ s, d.residual s = []) (s : Side) : d.queue s = [] := by
  obtain ⟨t, follows, quiet⟩ := coherent
  rcases Side.eq_or_eq_peer t s with rfl | rfl
  · exact quiet
  · simpa [finished, Script.inputs] using follows.symm

end Duplex

end Mimi.Lib
