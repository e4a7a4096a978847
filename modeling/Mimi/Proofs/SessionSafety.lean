/-
Module: Mimi.Proofs.SessionSafety
Purpose: Two endpoints that speak a session type and its dual, checked action by action, communicate
  safely over FIFO queues.  The endpoints are shown to simulate the dual scripts of
  `Mimi.Lib.Duplex`.
Trusted boundary: none
-/
import Mimi.Lib.Duplex
import Mimi.Session

namespace Mimi

open Mimi.Core Mimi.Lib

namespace SessionType

/-- No session name occurs in the expression. -/
def nameFree : SessionType → Bool
  | located session => session.nameFree
  | send _ cont => cont.nameFree
  | recv _ cont => cont.nameFree
  | dual inner => inner.nameFree
  | name _ => false
  | end_ => true

/-- The script a name-free session type describes. -/
def actions : SessionType → Script Ty
  | located session => session.actions
  | send payload cont => (.output, payload) :: cont.actions
  | recv payload cont => (.input, payload) :: cont.actions
  | dual inner => inner.actions.dual
  | name _ => []
  | end_ => []

/-- A prefix or the end of a protocol, with no wrapper around it. -/
def exposed : SessionType → Bool
  | send _ _ | recv _ _ | end_ => true
  | _ => false

/-! ### Dualization -/

mutual

/-- Dualization turns a script around and leaves a bare prefix. -/
theorem dualize_spec : ∀ s : SessionType, s.nameFree = true →
    s.dualize.actions = s.actions.dual ∧ s.dualize.nameFree = true ∧ s.dualize.exposed = true
  | located session, h => dualize_spec session h
  | send payload cont, h => by
      have ih := dualize_spec cont h
      exact ⟨by simp [dualize, actions, ih.1, Polarity.flip], ih.2.1, rfl⟩
  | recv payload cont, h => by
      have ih := dualize_spec cont h
      exact ⟨by simp [dualize, actions, ih.1, Polarity.flip], ih.2.1, rfl⟩
  | end_, _ => ⟨rfl, rfl, rfl⟩
  | dual inner, h => by
      have ih := dualizeDual_spec inner h
      exact ⟨by simp [dualize, actions, ih.1], ih.2⟩
  | name n, h => by simp [nameFree] at h

theorem dualizeDual_spec : ∀ s : SessionType, s.nameFree = true →
    s.dualizeDual.actions = s.actions ∧ s.dualizeDual.nameFree = true ∧
      s.dualizeDual.exposed = true
  | located session, h => dualizeDual_spec session h
  | dual inner, h => dualize_spec inner h
  | send _ _, h => ⟨rfl, h, rfl⟩
  | recv _ _, h => ⟨rfl, h, rfl⟩
  | end_, _ => ⟨rfl, rfl, rfl⟩
  | name n, h => by simp [nameFree] at h

end

/-- Resolution leaves no name behind. -/
theorem nameFree_of_resolveInner {env : List (String × SessionType)} (visiting : List String)
    (s : SessionType) :
    ∀ r, resolveInner env visiting s = some r → r.nameFree = true := by
  induction visiting, s using resolveInner.induct env with
  | case1 visiting session ih => simpa only [resolveInner] using ih
  | case2 visiting payload cont ih | case3 visiting payload cont ih =>
      intro r resolves
      simp only [resolveInner, Option.bind_eq_bind, Option.bind_eq_some_iff,
        Option.some.injEq] at resolves
      obtain ⟨c, resolved, rfl⟩ := resolves
      exact ih c resolved
  | case4 visiting =>
      intro r resolves
      simp only [resolveInner, Option.some.injEq] at resolves
      simp [← resolves, nameFree]
  | case5 visiting n fresh body declared ih =>
      rw [resolveInner_name fresh declared]
      exact ih
  | case6 visiting n fresh undeclared =>
      intro r resolves
      rw [resolveInner, dif_pos fresh] at resolves
      split at resolves <;> simp_all
  | case7 visiting n seen => simp [resolveInner, seen]
  | case8 visiting inner ih =>
      intro r resolves
      simp only [resolveInner, Option.bind_eq_bind, Option.bind_eq_some_iff,
        Option.some.injEq] at resolves
      obtain ⟨c, resolved, rfl⟩ := resolves
      exact (dualize_spec c (ih c resolved)).2.1

theorem nameFree_of_resolve {env : List (String × SessionType)} {s r : SessionType}
    (resolves : resolve env s = some r) : r.nameFree = true :=
  nameFree_of_resolveInner [] s r resolves

/-- Normalizing a residual keeps its script and leaves a bare prefix. -/
theorem normalize_spec {s : SessionType} (h : s.nameFree = true) :
    s.normalize.actions = s.actions ∧ s.normalize.nameFree = true ∧
      s.normalize.exposed = true := by
  induction s with
  | located session ih => exact ih h
  | dual inner => exact dualize_spec inner h
  | name n => simp [nameFree] at h
  | _ => exact ⟨rfl, h, rfl⟩

end SessionType

open SessionType

/-! ### The two endpoints -/

/-- The endpoints of a session pair: their residuals, and the payloads in flight towards each. -/
structure Connection where
  residual : Side → SessionType
  queue : Side → List Ty

namespace Connection

open Function

/-- One endpoint speaks the protocol, the other its dual. -/
def pair (s : SessionType) : Connection where
  residual
    | .lo => s
    | .hi => s.dualize
  queue _ := []

/-- Endpoint `s` performs an action its order checker accepts.  A receive waits for a payload. -/
def perform (c : Connection) (s : Side) (action : SessionAction) : Option Connection :=
  match applyAction (c.residual s) action, action, c.queue s with
  | .ok (next, some payload), .send, _ =>
      some ⟨update c.residual s next, update c.queue s.peer (c.queue s.peer ++ [payload])⟩
  | .ok (next, some _), .recv, _ :: messages =>
      some ⟨update c.residual s next, update c.queue s messages⟩
  | .ok (next, _), .close, _ => some ⟨update c.residual s next, c.queue⟩
  | _, _, _ => none

/-- One step of an interleaving. -/
def Moves (c c' : Connection) : Prop := ∃ s action, c.perform s action = some c'

/-- The residual is finished: the checker accepts a close. -/
def Ended (c : Connection) (s : Side) : Prop :=
  applyAction (c.residual s) .close = .ok (end_, none)

/-- The payload an endpoint receives is of the type its checker demands; until both residuals are
finished some endpoint can send or receive; and then nothing is in flight. -/
structure Safe (c : Connection) : Prop where
  payloads : ∀ s next demanded sent messages,
    applyAction (c.residual s) .recv = .ok (next, some demanded) →
      c.queue s = sent :: messages → sent = demanded
  progress : ¬ (∀ s, c.Ended s) →
    ∃ s action c', action ≠ .close ∧ c.perform s action = some c'
  drained : (∀ s, c.Ended s) → ∀ s, c.queue s = []

/-- The abstract state of a connection. -/
def script (c : Connection) : Duplex Ty where
  residual s := (c.residual s).actions
  queue := c.queue

/-- The residuals stay name-free and the scripts coherent. -/
structure Invariant (c : Connection) : Prop where
  free : ∀ s, (c.residual s).nameFree = true
  coherent : c.script.Coherent

theorem invariant_pair {s : SessionType} (h : s.nameFree = true) : (pair s).Invariant where
  free
    | .lo => h
    | .hi => (dualize_spec s h).2.1
  coherent := by
    have same : (pair s).script = Duplex.start s.actions := by
      simp only [script, Duplex.start, pair, Duplex.mk.injEq, and_true]
      funext side
      cases side
      · rfl
      · exact (dualize_spec s h).1
    rw [same]
    exact Duplex.coherent_start s.actions

theorem actions_update (residual : Side → SessionType) (s : Side) (next : SessionType) :
    (fun t => (update residual s next t).actions)
      = update (fun t => (residual t).actions) s next.actions := by
  funext t
  by_cases h : t = s
  · subst h; simp
  · simp [h]

theorem nameFree_update {residual : Side → SessionType} {next : SessionType}
    (free : ∀ s, (residual s).nameFree = true) (h : next.nameFree = true) (s t : Side) :
    (update residual s next t).nameFree = true := by
  by_cases same : t = s
  · subst same; simpa using h
  · simpa [same] using free t

/-- An action of an endpoint is a step of the scripts; a close changes nothing in them. -/
theorem script_perform {c c' : Connection} {s : Side} {action : SessionAction}
    (free : ∀ s, (c.residual s).nameFree = true) (h : c.perform s action = some c') :
    (∀ s, (c'.residual s).nameFree = true) ∧
      (c'.script = c.script ∨ Duplex.Step c.script c'.script) := by
  obtain ⟨same, freeNext, bare⟩ := normalize_spec (free s)
  cases shape : (c.residual s).normalize with
  | send t cont =>
      simp only [shape, actions, nameFree] at same freeNext
      cases action with
      | send =>
          simp only [perform, applyAction, shape, Option.some.injEq] at h
          subst h
          refine ⟨nameFree_update free freeNext s, .inr ?_⟩
          simpa only [script, actions_update] using
            @Duplex.Step.send _ c.script s _ _ same.symm
      | _ => simp [perform, applyAction, shape] at h
  | recv t cont =>
      simp only [shape, actions, nameFree] at same freeNext
      cases action with
      | recv =>
          cases inFlight : c.queue s with
          | nil => simp [perform, applyAction, shape, inFlight] at h
          | cons message messages =>
              simp only [perform, applyAction, shape, inFlight, Option.some.injEq] at h
              subst h
              refine ⟨nameFree_update free freeNext s, .inr ?_⟩
              simpa only [script, actions_update] using
                @Duplex.Step.recv _ c.script s _ _ _ _ same.symm inFlight
      | _ => simp [perform, applyAction, shape] at h
  | end_ =>
      simp only [shape, actions] at same
      cases action with
      | close =>
          simp only [perform, applyAction, shape, Option.some.injEq] at h
          subst h
          refine ⟨nameFree_update free rfl s, .inl ?_⟩
          simp only [script, actions_update, actions, Duplex.mk.injEq, and_true]
          exact update_eq_self_iff.mpr same
      | _ => simp [perform, applyAction, shape] at h
  | _ => simp [shape, exposed] at bare

theorem Invariant.run {c c' : Connection} (inv : c.Invariant)
    (run : Relation.ReflTransGen Moves c c') : c'.Invariant := by
  induction run with
  | refl => exact inv
  | tail _ moves ih =>
      obtain ⟨s, action, performed⟩ := moves
      obtain ⟨free, unchanged | step⟩ := script_perform ih.free performed
      · exact ⟨free, unchanged ▸ ih.coherent⟩
      · exact ⟨free, step.coherent ih.coherent⟩

/-- A residual is finished exactly when its script is. -/
theorem ended_iff {c : Connection} {s : Side} (free : (c.residual s).nameFree = true) :
    c.Ended s ↔ c.script.residual s = [] := by
  obtain ⟨same, -, bare⟩ := normalize_spec free
  cases shape : (c.residual s).normalize <;>
    simp_all [Ended, applyAction, script, exposed, actions, ← same]

theorem Invariant.safe {c : Connection} (inv : c.Invariant) : c.Safe where
  payloads s next demanded sent messages accepts arrived := by
    obtain ⟨same, -, -⟩ := normalize_spec (inv.free s)
    cases shape : (c.residual s).normalize <;>
      simp only [applyAction, shape, Except.ok.injEq, Prod.mk.injEq, Option.some.injEq,
        reduceCtorEq] at accepts
    obtain ⟨rfl, rfl⟩ := accepts
    simp only [shape, actions] at same
    exact inv.coherent.agree (s := s) same.symm arrived
  progress unfinished := by
    have left : ¬ ∀ s, c.script.residual s = [] := fun finished =>
      unfinished fun s => (ended_iff (inv.free s)).mpr (finished s)
    rcases inv.coherent.progress left with
      ⟨s, t, rest, next⟩ | ⟨s, t, rest, message, messages, next, arrived⟩
    · obtain ⟨same, -, bare⟩ := normalize_spec (inv.free s)
      cases shape : (c.residual s).normalize <;>
        simp_all [script, actions, exposed]
      exact ⟨s, .send, by simp [perform, applyAction, shape]⟩
    · obtain ⟨same, -, bare⟩ := normalize_spec (inv.free s)
      cases shape : (c.residual s).normalize <;>
        simp_all [script, actions, exposed]
      exact ⟨s, .recv, by simp [perform, applyAction, shape, arrived]⟩
  drained finished :=
    inv.coherent.queues_empty fun s => (ended_iff (inv.free s)).mp (finished s)

/-- Let two endpoints start with the resolution of a session type and its dual (or, for a session
type without names, with the type itself and its dual).  Every state they reach is safe. -/
theorem resolved_sessions_are_safe {env : List (String × SessionType)} {session r s : SessionType}
    (resolves : resolve env session = some r)
    (starts : s = r ∨ s = session ∧ session.nameFree = true) {c : Connection}
    (run : Relation.ReflTransGen Moves (pair s) c) : c.Safe := by
  have free : s.nameFree = true := by
    rcases starts with rfl | ⟨rfl, closed⟩
    · exact nameFree_of_resolve resolves
    · exact closed
  exact ((invariant_pair free).run run).safe

/-- Send a word, receive a flag. -/
def query : SessionType := .send (.name "i32" []) (.recv (.name "bool" []) .end_)

theorem resolve_query : resolve [("Query", query)] (.located (.name "Query")) = some query := by
  rw [resolve, resolveInner, @resolveInner_name _ [] _ query (by simp) rfl]
  simp [query, resolveInner]

/-- The declared name resolves, and the state with the word in flight is safe. -/
theorem resolved_sessions_are_safe_query :
    ∃ c, (pair query).perform .lo .send = some c ∧ c.queue .hi = [.name "i32" []] ∧ c.Safe :=
  ⟨_, rfl, rfl, @resolved_sessions_are_safe [("Query", query)] (.located (.name "Query")) query query
    resolve_query (.inl rfl) _ (.single ⟨.lo, .send, rfl⟩)⟩

end Connection

end Mimi
