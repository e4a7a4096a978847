/-
Module: Mimi.Proofs.KillSafety
Purpose: A kill cuts off what its actor owns.  Whatever other threads spawn, drop and kill meanwhile, no
  actor below a killed one is live afterwards, as long as no actor between them had been dropped when
  the kill looked for its victims.
Trusted boundary: none
-/
import Mimi.Runtime.Actor

namespace Mimi.Runtime

open Mimi.Lib

/-- The actors of some entries. -/
def actorsOf (entries : List (Nat × Actor)) : List Actor := entries.map Prod.snd

/-- The chain of recorded parents, followed through attached spawns, leads to the root. -/
def Owned (entries : List (Nat × Actor)) (root id : Nat) : Prop :=
  Relation.ReflTransGen (Successor (childIds (actorsOf entries))) root id

/-- Of the actors of a killed one, none is live. -/
def Cut (s : ActorRuntime) (root : Nat) : Prop := ∀ entry ∈ s.live, ¬Owned s.born root entry.2.id

/-- Every kill that has returned has cut its actor. -/
def KillsHold (trace : List (ActorOp × ActorAnswer)) (s : ActorRuntime) : Prop :=
  ∀ op root, (op, ActorAnswer.killed (some root)) ∈ trace → Cut s root

/-- Every live actor that is owned by the one under a handle is linked to it by live actors; where the
handle has been dropped, there is no such actor. -/
def ChainsLive (s : ActorRuntime) (handle : Nat) : Prop :=
  match s.live.lookup handle with
  | some root => ∀ entry ∈ s.live, Owned s.born root.id entry.2.id → Owned s.live root.id entry.2.id
  | none => ∀ root, s.born.lookup handle = some root → Cut s root.id

/-- The identities do not wrap around, and a kill finds unbroken chains. -/
def KeepsChains (op : ActorOp) (s : ActorRuntime) : Prop :=
  match op with
  | .advance thread _ =>
      match s.calls thread with
      | some (.spawnDraw _) => s.drawn + 1 < 2 ^ 64
      | some (.systemKill handle) => handle ≠ 0 → ChainsLive s handle
      | _ => True
  | _ => True

theorem mem_childIds {actors : List Actor} {parent id : Nat} : id ∈ childIds actors parent ↔
    ∃ actor ∈ actors, actor.id = id ∧ actor.parent_id = some parent ∧ actor.detached = false := by
  simp only [childIds, List.mem_map, List.mem_filter, Bool.and_eq_true, decide_eq_true_eq,
    Bool.not_eq_true']
  constructor
  · rintro ⟨actor, ⟨member, parent, attached⟩, rfl⟩
    exact ⟨actor, member, rfl, parent, attached⟩
  · rintro ⟨actor, member, rfl, parent, attached⟩
    exact ⟨actor, ⟨member, parent, attached⟩, rfl⟩

/-- A kill collects its root and all that is linked to it by live actors. -/
theorem mem_killIds {entries : List (Nat × Actor)} {root id : Nat} :
    id ∈ killIds (actorsOf entries) root ↔ Owned entries root id := by
  have size : (actorsOf entries).length = ((actorsOf entries).map Actor.id).length :=
    (List.length_map _).symm
  rw [killIds, size]
  refine mem_closeFrom fun parent child member => ?_
  obtain ⟨actor, known, same, -⟩ := mem_childIds.mp member
  exact List.mem_map.mpr ⟨actor, known, same⟩

variable {s : ActorRuntime}

/-- What a kill leaves is cut exactly when the chains were live. -/
theorem kill_exact {handle : Nat} {root : Actor} (found : s.live.lookup handle = some root) :
    (∀ entry ∈ s.live.filter fun entry => entry.2.id ∉ killIds (actorsOf s.live) root.id,
      ¬Owned s.born root.id entry.2.id) ↔ ChainsLive s handle := by
  rw [ChainsLive, found]
  simp only [List.mem_filter, decide_eq_true_eq, mem_killIds]
  constructor
  · intro cut entry member owned
    by_contra broken
    exact cut entry ⟨member, broken⟩ owned
  · rintro chains entry ⟨member, unlinked⟩ owned
    exact unlinked (chains entry member owned)

/-- Where all actors are live that were ever spawned, all chains are. -/
theorem chains_live_of_all {handle : Nat} (all : actorsOf s.born ⊆ actorsOf s.live)
    (here : (s.live.lookup handle).isSome = true) : ChainsLive s handle := by
  obtain ⟨root, found⟩ := Option.isSome_iff_exists.mp here
  rw [ChainsLive, found]
  intro entry _ owned
  refine Relation.ReflTransGen.mono (fun parent child step => ?_) _ _ owned
  obtain ⟨actor, member, rest⟩ := mem_childIds.mp step
  exact mem_childIds.mpr ⟨actor, all member, rest⟩

/-! ### What a step can do -/

/-- A step that ends or goes on with a kill whose victims have been removed. -/
def Kills (answer : ActorAnswer) (next : Option Call) (root : Nat) : Prop :=
  answer = .killed (some root) ∨ ∃ victims removed, next = some (.killStop root victims removed)

/-- A step that neither kills nor comes to the registration of an actor. -/
def isPlain (answer : ActorAnswer) (next : Option Call) : Bool :=
  match answer, next with
  | .killed (some _), _ | _, some (.spawnInsert _) | _, some (.killStop ..) => false
  | _, _ => true

variable {answer : ActorAnswer}

theorem not_kills_of_plain {next : Option Call}
    (plain : isPlain answer next = true) (root : Nat) : ¬Kills answer next root := by
  rintro (rfl | ⟨victims, removed, rfl⟩)
  · cases plain
  · cases answer with
    | killed root => cases root <;> cases plain
    | _ => cases plain

theorem not_insert_of_plain {next : Option Call}
    (plain : isPlain answer next = true) (actor : Actor) : next ≠ some (.spawnInsert actor) := by
  rintro rfl
  cases answer with
  | killed root => cases root <;> cases plain
  | _ => cases plain

/-- The steps of a call, by what they do to the registry. -/
inductive Effect (chance : Chance) (s : ActorRuntime) :
    Call → ActorAnswer → Option Call → ActorRuntime → Prop where
  | quiet {call : Call} {answer : ActorAnswer} {next : Option Call} {s' : ActorRuntime}
      (plain : isPlain answer next = true) (live : s'.live ⊆ s.live) (born : s'.born = s.born)
      (drawn : s'.drawn = s.drawn) : Effect chance s call answer next s'
  | draw {request : SpawnRequest} {answer : ActorAnswer} {next : Option Call}
      (id : ∀ actor, next = some (.spawnInsert actor) → actor.id = wrapping (s.drawn + 1))
      (kill : ∀ root, ¬Kills answer next root) :
      Effect chance s (.spawnDraw request) answer next { s with drawn := s.drawn + 1 }
  | insert {actor : Actor}
      (parent : ∀ id, actor.parent_id = some id → ∃ entry ∈ s.live, entry.2.id = id) :
      Effect chance s (.spawnInsert actor) .running (some (.spawnCount chance.raw))
        { s with live := s.live ++ [(chance.raw, actor)]
                 born := (chance.raw, actor) :: s.born }
  | missed {handle : Nat} (given : handle ≠ 0) (gone : s.live.lookup handle = none) :
      Effect chance s (.systemKill handle) (.killed ((s.born.lookup handle).map Actor.id)) none s
  | kill {handle : Nat} {root : Actor} {victims : List Actor} {removed : Nat} (given : handle ≠ 0)
      (found : s.live.lookup handle = some root) :
      Effect chance s (.systemKill handle) .running
        (some (.killStop root.id victims removed))
        { s with live := s.live.filter fun entry =>
            entry.2.id ∉ killIds (actorsOf s.live) root.id }
  | stop {root removed : Nat} {actor : Actor} {victims : List Actor} :
      Effect chance s (.killStop root (actor :: victims) removed) .running
        (some (.killStop root victims removed)) { s with stopped := actor.id :: s.stopped }
  | killed {root removed : Nat} :
      Effect chance s (.killStop root [] removed) (.killed (some root)) none
        { s with spawn_count := s.spawn_count - removed }

variable {s' : ActorRuntime}

theorem eq_of_some {answer' : ActorAnswer} {next next' : Option Call}
    (same : some (answer, next, s) = some (answer', next', s')) :
    answer = answer' ∧ next = next' ∧ s = s' := by
  simpa only [Option.some.injEq, Prod.mk.injEq] using same

variable {chance : Chance} {call : Call}

/-- A step that touches nothing but the count. -/
theorem Effect.still {next : Option Call} (plain : isPlain answer next = true) (count : Nat) :
    Effect chance s call answer next { s with spawn_count := count } :=
  .quiet plain (fun _ member => member) rfl rfl

theorem advance_effect {next : Option Call} (steps : advance chance call s = some (answer, next, s')) :
    Effect chance s call answer next s' ∧ s'.calls = s.calls := by
  cases call with
  | spawn request =>
      rw [advance] at steps
      split_ifs at steps <;> obtain ⟨rfl, rfl, rfl⟩ := eq_of_some steps <;>
        exact ⟨.still rfl _, rfl⟩
  | spawnQuota request max =>
      rw [advance] at steps
      split_ifs at steps <;> obtain ⟨rfl, rfl, rfl⟩ := eq_of_some steps <;>
        exact ⟨.still rfl _, rfl⟩
  | spawnDraw request =>
      simp only [advance] at steps
      by_cases size : (request.fields_size < 0 || 2 ^ 30 < request.fields_size) = true
      · rw [if_pos size] at steps
        obtain ⟨rfl, rfl, rfl⟩ := eq_of_some steps
        exact ⟨.draw nofun (not_kills_of_plain rfl), rfl⟩
      · rw [if_neg size] at steps
        by_cases starts : chance.starts = true
        · rw [if_pos starts] at steps
          obtain ⟨rfl, rfl, rfl⟩ := eq_of_some steps
          refine ⟨.draw (fun actor eq => ?_) fun root kills => ?_, rfl⟩
          · obtain rfl := Call.spawnInsert.inj (Option.some.inj eq)
            rfl
          · rcases kills with h | ⟨_, _, h⟩ <;> cases h
        · rw [if_neg starts] at steps
          obtain ⟨rfl, rfl, rfl⟩ := eq_of_some steps
          exact ⟨.draw nofun (not_kills_of_plain rfl), rfl⟩
  | spawnInsert actor =>
      rw [advance] at steps
      split_ifs at steps with taken parent <;> obtain ⟨rfl, rfl, rfl⟩ := eq_of_some steps
      · refine ⟨.insert fun id eq => ?_, rfl⟩
        rw [eq, Option.all_some, List.any_eq_true] at parent
        obtain ⟨entry, member, same⟩ := parent
        exact ⟨entry, member, of_decide_eq_true same⟩
      · exact ⟨.still rfl _, rfl⟩
  | spawnCount handle =>
      obtain ⟨rfl, rfl, rfl⟩ := eq_of_some steps
      exact ⟨.still rfl _, rfl⟩
  | drop handle =>
      rw [advance] at steps
      split_ifs at steps with null
      · obtain ⟨rfl, rfl, rfl⟩ := eq_of_some steps
        exact ⟨.still rfl _, rfl⟩
      · cases found : s.live.lookup handle with
        | none =>
            rw [found] at steps
            obtain ⟨rfl, rfl, rfl⟩ := eq_of_some steps
            exact ⟨.still rfl _, rfl⟩
        | some actor =>
            rw [found] at steps
            obtain ⟨rfl, rfl, rfl⟩ := eq_of_some steps
            exact ⟨.quiet rfl List.filter_sublist.subset rfl rfl, rfl⟩
  | dropAll =>
      rw [advance] at steps
      split_ifs at steps with none_ <;> obtain ⟨rfl, rfl, rfl⟩ := eq_of_some steps
      · exact ⟨.still rfl _, rfl⟩
      · exact ⟨.quiet rfl (List.nil_subset _) rfl rfl, rfl⟩
  | dropCount removed =>
      obtain ⟨rfl, rfl, rfl⟩ := eq_of_some steps
      exact ⟨.still rfl _, rfl⟩
  | systemKill handle =>
      rw [advance] at steps
      split_ifs at steps with null
      · obtain ⟨rfl, rfl, rfl⟩ := eq_of_some steps
        exact ⟨.still rfl _, rfl⟩
      · cases found : s.live.lookup handle with
        | none =>
            rw [found] at steps
            obtain ⟨rfl, rfl, rfl⟩ := eq_of_some steps
            exact ⟨.missed null found, rfl⟩
        | some root =>
            rw [found] at steps
            obtain ⟨rfl, rfl, rfl⟩ := eq_of_some steps
            exact ⟨.kill null found, rfl⟩
  | killStop root victims removed =>
      cases victims with
      | nil =>
          obtain ⟨rfl, rfl, rfl⟩ := eq_of_some steps
          exact ⟨.killed, rfl⟩
      | cons actor victims =>
          obtain ⟨rfl, rfl, rfl⟩ := eq_of_some steps
          exact ⟨.stop, rfl⟩

/-! ### Identities -/

/-- The parent of a registered actor has been registered before it. -/
def ParentsKnown (born : List (Nat × Actor)) : Prop :=
  ∀ entry ∈ born, ∀ id, entry.2.parent_id = some id → ∃ parent ∈ born, parent.2.id = id

/-- Actors have identities of their own: those that are registered, and those about to be. -/
structure Identified (s : ActorRuntime) : Prop where
  limit : s.drawn < 2 ^ 64
  known : ∀ entry ∈ s.live, entry ∈ s.born
  below : ∀ entry ∈ s.born, entry.2.id ≤ s.drawn
  parents : ParentsKnown s.born
  drawn : ∀ thread actor, s.calls thread = some (.spawnInsert actor) →
    actor.id ≤ s.drawn ∧ ∀ entry ∈ s.born, entry.2.id ≠ actor.id
  apart : ∀ thread actor thread' actor', s.calls thread = some (.spawnInsert actor) →
    s.calls thread' = some (.spawnInsert actor') → thread ≠ thread' → actor.id ≠ actor'.id

/-- The call of a thread after another step. -/
theorem update_eq_some {calls : Thread → Option Call} {thread thread' : Thread} {next : Option Call}
    (eq : Function.update calls thread next thread' = some call) :
    thread' = thread ∧ next = some call ∨ thread' ≠ thread ∧ calls thread' = some call := by
  by_cases same : thread' = thread
  · subst same
    rw [Function.update_self] at eq
    exact .inl ⟨rfl, eq⟩
  · rw [Function.update_of_ne same] at eq
    exact .inr ⟨same, eq⟩

/-- A thread whose call does not come to a registration leaves the identities as they are. -/
theorem Identified.plain {s s' : ActorRuntime} (ids : Identified s) {thread : Thread}
    {next : Option Call} (calls : s'.calls = Function.update s.calls thread next)
    (plain : ∀ actor, next ≠ some (.spawnInsert actor)) (live : s'.live ⊆ s.live)
    (born : s'.born = s.born) (drawn : s'.drawn = s.drawn) : Identified s' where
  limit := drawn ▸ ids.limit
  known entry member := born ▸ ids.known entry (live member)
  below := by
    rw [born, drawn]
    exact ids.below
  parents := born ▸ ids.parents
  drawn thread' actor eq := by
    rw [calls] at eq
    rcases update_eq_some eq with ⟨-, here⟩ | ⟨-, there⟩
    · exact absurd here (plain actor)
    · rw [born, drawn]
      exact ids.drawn thread' actor there
  apart thread₁ actor₁ thread₂ actor₂ eq₁ eq₂ := by
    rw [calls] at eq₁ eq₂
    rcases update_eq_some eq₁ with ⟨-, here⟩ | ⟨-, there₁⟩
    · exact absurd here (plain actor₁)
    · rcases update_eq_some eq₂ with ⟨-, here⟩ | ⟨-, there₂⟩
      · exact absurd here (plain actor₂)
      · exact ids.apart thread₁ actor₁ thread₂ actor₂ there₁ there₂

theorem Identified.draw (ids : Identified s) (limit : s.drawn + 1 < 2 ^ 64) (thread : Thread) {next : Option Call}
    (id : ∀ actor, next = some (.spawnInsert actor) → actor.id = wrapping (s.drawn + 1)) :
    Identified { s with drawn := s.drawn + 1, calls := Function.update s.calls thread next } where
  limit := limit
  known := ids.known
  below entry member := (ids.below entry member).trans (Nat.le_succ _)
  parents := ids.parents
  drawn thread' actor eq := by
    rcases update_eq_some eq with ⟨-, here⟩ | ⟨-, there⟩
    · have last : actor.id = s.drawn + 1 := (id actor here).trans (Nat.mod_eq_of_lt limit)
      refine ⟨Nat.le_of_eq last, fun entry member => ?_⟩
      have old := ids.below entry member
      omega
    · have old := ids.drawn thread' actor there
      exact ⟨old.1.trans (Nat.le_succ _), old.2⟩
  apart thread₁ actor₁ thread₂ actor₂ eq₁ eq₂ other := by
    have new : ∀ actor, next = some (.spawnInsert actor) → actor.id = s.drawn + 1 :=
      fun actor here => (id actor here).trans (Nat.mod_eq_of_lt limit)
    rcases update_eq_some eq₁ with ⟨rfl, here₁⟩ | ⟨-, there₁⟩
    · rcases update_eq_some eq₂ with ⟨rfl, here₂⟩ | ⟨-, there₂⟩
      · exact absurd rfl other
      · have old := (ids.drawn thread₂ actor₂ there₂).1
        have last := new actor₁ here₁
        omega
    · rcases update_eq_some eq₂ with ⟨rfl, here₂⟩ | ⟨-, there₂⟩
      · have old := (ids.drawn thread₁ actor₁ there₁).1
        have last := new actor₂ here₂
        omega
      · exact ids.apart thread₁ actor₁ thread₂ actor₂ there₁ there₂ other

theorem Identified.insert (ids : Identified s) {thread : Thread} {actor : Actor}
    (call : s.calls thread = some (.spawnInsert actor)) (raw : Nat) {next : Option Call}
    (plain : ∀ actor, next ≠ some (.spawnInsert actor))
    (parent : ∀ id, actor.parent_id = some id → ∃ entry ∈ s.live, entry.2.id = id) :
    Identified { s with live := s.live ++ [(raw, actor)]
                        born := (raw, actor) :: s.born
                        calls := Function.update s.calls thread next } where
  limit := ids.limit
  known entry member := by
    rcases List.mem_append.mp member with old | new
    · exact List.mem_cons_of_mem _ (ids.known entry old)
    · rw [List.mem_singleton.mp new]
      exact List.mem_cons_self
  below entry member := by
    rcases List.mem_cons.mp member with rfl | old
    · exact (ids.drawn thread actor call).1
    · exact ids.below entry old
  parents entry member id eq := by
    rcases List.mem_cons.mp member with rfl | old
    · obtain ⟨entry', live, same⟩ := parent id eq
      exact ⟨entry', List.mem_cons_of_mem _ (ids.known entry' live), same⟩
    · obtain ⟨entry', known, same⟩ := ids.parents entry old id eq
      exact ⟨entry', List.mem_cons_of_mem _ known, same⟩
  drawn thread' actor' eq := by
    rcases update_eq_some eq with ⟨-, here⟩ | ⟨other, there⟩
    · exact absurd here (plain actor')
    · have old := ids.drawn thread' actor' there
      refine ⟨old.1, fun entry member => ?_⟩
      rcases List.mem_cons.mp member with rfl | known
      · exact ids.apart thread actor thread' actor' call there other.symm
      · exact old.2 entry known
  apart thread₁ actor₁ thread₂ actor₂ eq₁ eq₂ := by
    rcases update_eq_some eq₁ with ⟨-, here⟩ | ⟨-, there₁⟩
    · exact absurd here (plain actor₁)
    · rcases update_eq_some eq₂ with ⟨-, here⟩ | ⟨-, there₂⟩
      · exact absurd here (plain actor₂)
      · exact ids.apart thread₁ actor₁ thread₂ actor₂ there₁ there₂

/-! ### Ownership -/

/-- A new actor is owned by those that own its parent, and ownership of the others stays as it was. -/
theorem owned_insert {born : List (Nat × Actor)} {raw : Nat} {actor : Actor}
    (fresh : ∀ entry ∈ born, entry.2.id ≠ actor.id) (parents : ParentsKnown born)
    (parent : ∀ id, actor.parent_id = some id → ∃ entry ∈ born, entry.2.id = id)
    {root id : Nat} (other : root ≠ actor.id) (owned : Owned ((raw, actor) :: born) root id) :
    (id ≠ actor.id → Owned born root id) ∧
      (id = actor.id → ∃ above, actor.parent_id = some above ∧ Owned born root above) := by
  have strange {entry : Nat × Actor} (member : entry ∈ born) {id : Nat}
      (same : entry.2.id = id) : id ≠ actor.id := same ▸ fresh entry member
  induction owned with
  | refl => exact ⟨fun _ => .refl, fun same => absurd same other⟩
  | @tail above id _ step ih =>
      obtain ⟨child, member, rfl, above', attached⟩ := mem_childIds.mp step
      rcases List.mem_cons.mp member with rfl | known
      · refine ⟨fun different => absurd rfl different, fun _ => ⟨above, above', ih.1 ?_⟩⟩
        obtain ⟨entry, member, same⟩ := parent above above'
        exact strange member same
      · obtain ⟨entry, registered, rfl⟩ := List.mem_map.mp known
        refine ⟨fun _ => ?_, fun same => absurd same (fresh entry registered)⟩
        obtain ⟨entry', member', same'⟩ := parents entry registered above above'
        exact (ih.1 (strange member' same')).tail
          (mem_childIds.mpr ⟨entry.2, known, rfl, above', attached⟩)

/-- A root that is cut stays cut: an actor is only registered below a live one. -/
theorem Cut.insert {root : Nat} (cut : Cut s root) (known : ∀ entry ∈ s.live, entry ∈ s.born)
    (parents : ParentsKnown s.born) {actor : Actor}
    (fresh : ∀ entry ∈ s.born, entry.2.id ≠ actor.id) (other : root ≠ actor.id) (raw : Nat)
    (parent : ∀ id, actor.parent_id = some id → ∃ entry ∈ s.live, entry.2.id = id)
    {entry : Nat × Actor} (member : entry ∈ s.live ++ [(raw, actor)]) :
    ¬Owned ((raw, actor) :: s.born) root entry.2.id := by
  intro owned
  have parent' : ∀ id, actor.parent_id = some id → ∃ entry ∈ s.born, entry.2.id = id := by
    intro id eq
    obtain ⟨entry, live, same⟩ := parent id eq
    exact ⟨entry, known entry live, same⟩
  have cases_ := owned_insert fresh parents parent' other owned
  rcases List.mem_append.mp member with old | new
  · exact cut entry old (cases_.1 (fresh entry (known entry old)))
  · obtain rfl := List.mem_singleton.mp new
    obtain ⟨above, eq, owned'⟩ := cases_.2 rfl
    obtain ⟨entry, live, rfl⟩ := parent above eq
    exact cut entry live owned'

theorem Cut.shrink {root : Nat} (cut : Cut s root) (live : s'.live ⊆ s.live)
    (born : s'.born = s.born) : Cut s' root := by
  intro entry member
  rw [born]
  exact cut entry (live member)

/-! ### Runs -/

/-- A kill of the root has removed its victims, in a thread that is still in the call or has returned. -/
def Cutting (trace : List (ActorOp × ActorAnswer)) (s : ActorRuntime) (root : Nat) : Prop :=
  (∃ op, (op, ActorAnswer.killed (some root)) ∈ trace) ∨
    ∃ thread victims removed, s.calls thread = some (.killStop root victims removed)

/-- The invariant of runs. -/
structure Guarded (trace : List (ActorOp × ActorAnswer)) (s : ActorRuntime) : Prop where
  ids : Identified s
  cut : ∀ root, Cutting trace s root → Cut s root ∧ ∃ entry ∈ s.born, entry.2.id = root

theorem guarded_init : Guarded [] ActorRuntime.new where
  ids := {
    limit := by decide
    known := nofun
    below := nofun
    parents := nofun
    drawn := nofun
    apart := nofun }
  cut root cutting := by
    rcases cutting with ⟨_, member⟩ | ⟨_, _, _, call⟩
    · cases member
    · cases call

variable {trace : List (ActorOp × ActorAnswer)}

/-- A kill that is under way after a step was so before it, or is the one of this step. -/
theorem Cutting.before {op : ActorOp} {thread : Thread} {next : Option Call}
    (calls : s'.calls = Function.update s.calls thread next) {root : Nat}
    (cutting : Cutting ((op, answer) :: trace) s' root) :
    Cutting trace s root ∨ Kills answer next root := by
  rcases cutting with ⟨op', member⟩ | ⟨thread', victims, removed, call⟩
  · rcases List.mem_cons.mp member with same | old
    · exact .inr (.inl (Prod.mk.inj same).2.symm)
    · exact .inl (.inl ⟨op', old⟩)
  · rw [calls] at call
    rcases update_eq_some call with ⟨-, here⟩ | ⟨-, there⟩
    · exact .inr (.inr ⟨victims, removed, here⟩)
    · exact .inl (.inr ⟨thread', victims, removed, there⟩)

theorem guarded_advance {thread : Thread} {next : Option Call}
    (guarded : Guarded trace s) (here : s.calls thread = some call) (may : KeepsChains (.advance thread chance) s)
    (steps : advance chance call s = some (answer, next, s')) :
    Guarded ((.advance thread chance, answer) :: trace)
      { s' with calls := Function.update s.calls thread next } := by
  rw [KeepsChains, here] at may
  have ids := guarded.ids
  cases (advance_effect steps).1 with
  | quiet plain live born drawn =>
      refine ⟨ids.plain rfl (not_insert_of_plain plain) live born drawn, fun root cutting => ?_⟩
      rcases cutting.before rfl with before | kills
      · obtain ⟨cut, entry, member, same⟩ := guarded.cut root before
        exact ⟨cut.shrink live born, entry, born ▸ member, same⟩
      · exact absurd kills (not_kills_of_plain plain root)
  | draw id kill =>
      refine ⟨ids.draw may thread id, fun root cutting => ?_⟩
      rcases cutting.before rfl with before | kills
      · exact guarded.cut root before
      · exact absurd kills (kill root)
  | @insert actor parent =>
      refine ⟨ids.insert here chance.raw nofun parent, fun root cutting => ?_⟩
      rcases cutting.before rfl with before | kills
      · obtain ⟨cut, entry, member, rfl⟩ := guarded.cut root before
        have fresh := (ids.drawn thread actor here).2
        refine ⟨fun entry' member' => ?_, entry, List.mem_cons_of_mem _ member, rfl⟩
        exact cut.insert ids.known ids.parents fresh (fresh entry member) chance.raw parent member'
      · exact absurd kills (not_kills_of_plain rfl root)
  | @missed handle given gone =>
      refine ⟨ids.plain rfl nofun (List.Subset.refl _) rfl rfl, fun root cutting => ?_⟩
      rcases cutting.before rfl with before | kills
      · exact guarded.cut root before
      · -- the handle has been dropped: what it stood for has nothing live below it
        rcases kills with ends | ⟨_, _, goes⟩
        · have chains := may given
          rw [ChainsLive, gone] at chains
          obtain ⟨actor, found, rfl⟩ := Option.map_eq_some_iff.mp (ActorAnswer.killed.inj ends)
          have known : (handle, actor) ∈ s.born := by
            obtain ⟨l₁, l₂, split, -⟩ := List.lookup_eq_some_iff.mp found
            rw [split]
            exact List.mem_append_right _ List.mem_cons_self
          exact ⟨chains actor found, _, known, rfl⟩
        · cases goes
  | @kill handle root victims removed given found =>
      have live : (s.live.filter fun entry =>
          entry.2.id ∉ killIds (actorsOf s.live) root.id) ⊆ s.live := List.filter_sublist.subset
      refine ⟨ids.plain rfl nofun live rfl rfl, fun root' cutting => ?_⟩
      rcases cutting.before rfl with before | kills
      · obtain ⟨cut, known⟩ := guarded.cut root' before
        exact ⟨cut.shrink live rfl, known⟩
      · rcases kills with ends | ⟨_, _, goes⟩
        · cases ends
        · obtain ⟨rfl, -, -⟩ := Call.killStop.inj (Option.some.inj goes)
          have member : (handle, root) ∈ s.live := by
            obtain ⟨l₁, l₂, split, -⟩ := List.lookup_eq_some_iff.mp found
            rw [split]
            exact List.mem_append_right _ List.mem_cons_self
          exact ⟨(kill_exact found).mpr (may given), _, ids.known _ member, rfl⟩
  | @stop root removed actor victims =>
      refine ⟨ids.plain rfl nofun (List.Subset.refl _) rfl rfl, fun root' cutting => ?_⟩
      rcases cutting.before rfl with before | kills
      · exact guarded.cut root' before
      · rcases kills with ends | ⟨_, _, goes⟩
        · cases ends
        · obtain ⟨rfl, -, -⟩ := Call.killStop.inj (Option.some.inj goes)
          exact guarded.cut root (.inr ⟨thread, _, _, here⟩)
  | @killed root removed =>
      refine ⟨ids.plain rfl nofun (List.Subset.refl _) rfl rfl, fun root' cutting => ?_⟩
      rcases cutting.before rfl with before | kills
      · exact guarded.cut root' before
      · rcases kills with ends | ⟨_, _, goes⟩
        · obtain rfl := Option.some.inj (ActorAnswer.killed.inj ends)
          exact guarded.cut root (.inr ⟨thread, _, _, here⟩)
        · cases goes

theorem guarded_step {op : ActorOp} (guarded : Guarded trace s) (may : KeepsChains op s)
    (steps : actorStep op s = some (answer, s')) : Guarded ((op, answer) :: trace) s' := by
  cases op with
  | enter thread call =>
      rw [actorStep] at steps
      split_ifs at steps with entry
      obtain ⟨rfl, rfl⟩ := Prod.mk.inj (Option.some.inj steps)
      rw [Bool.and_eq_true] at entry
      have plain : ∀ actor, some call ≠ some (.spawnInsert actor) := by
        rintro actor ⟨⟩
        cases entry.1
      refine ⟨guarded.ids.plain rfl plain (List.Subset.refl _) rfl rfl, fun root cutting => ?_⟩
      rcases cutting.before rfl with before | kills
      · exact guarded.cut root before
      · rcases kills with ends | ⟨_, _, goes⟩
        · cases ends
        · cases goes
          cases entry.1
  | advance thread chance =>
      simp only [actorStep, Option.bind_eq_bind, Option.bind_eq_some_iff, Option.pure_def,
        Option.some.injEq, Prod.mk.injEq] at steps
      obtain ⟨call, here, ⟨answer, next, after⟩, taken, rfl, rfl⟩ := steps
      exact guarded_advance guarded here may taken
  | setMaxChildren max =>
      obtain ⟨rfl, rfl⟩ := Prod.mk.inj (Option.some.inj steps)
      refine ⟨⟨guarded.ids.limit, guarded.ids.known, guarded.ids.below, guarded.ids.parents,
        guarded.ids.drawn, guarded.ids.apart⟩, fun root cutting => ?_⟩
      rcases cutting with ⟨op, member⟩ | kills
      · rcases List.mem_cons.mp member with same | old
        · cases same
        · exact guarded.cut root (.inl ⟨op, old⟩)
      · exact guarded.cut root (.inr kills)

/-- In every run whose kills find unbroken chains, the actors below a killed one are gone when the kill
has returned, and stay so. -/
theorem kills_hold {trace : List (ActorOp × ActorAnswer)} {s : ActorRuntime}
    (run : ActorMachine.Runs KeepsChains trace s) : KillsHold trace s := by
  have guarded : Guarded trace s :=
    run.invariant guarded_init fun guarded may steps => guarded_step guarded may steps
  exact fun op root returned => (guarded.cut root (.inl ⟨op, returned⟩)).1

/-- A call that spawns an actor of one byte. -/
def spawnFrom (current : Nat) : Call := .spawn ⟨false, false, 1, false, current⟩

/-- A chain of three actors, the last of which has spawned a detached one: a kill of the first takes the chain
and leaves the detached actor. -/
theorem kills_hold_chain : ∃ trace s, ActorMachine.Runs KeepsChains trace s ∧
    (ActorOp.advance 0 ⟨0, true⟩, ActorAnswer.killed (some 1)) ∈ trace ∧
      s.live = [(32, ⟨4, none, true⟩)] ∧ s.born.length = 4 ∧ KillsHold trace s := by
  have start : ActorMachine.Runs KeepsChains [] ActorMachine.init := .init
  have first := ((((start.next
    (.enter 0 (spawnFrom 0)) trivial rfl).next
    (.advance 0 ⟨0, true⟩) trivial rfl).next
    (.advance 0 ⟨0, true⟩) (show 0 + 1 < 2 ^ 64 by decide) rfl).next
    (.advance 0 ⟨8, true⟩) trivial rfl).next
    (.advance 0 ⟨0, true⟩) trivial rfl
  have second := ((((first.next
    (.enter 1 (spawnFrom 1)) trivial rfl).next
    (.advance 1 ⟨0, true⟩) trivial rfl).next
    (.advance 1 ⟨0, true⟩) (show 1 + 1 < 2 ^ 64 by decide) rfl).next
    (.advance 1 ⟨16, true⟩) trivial rfl).next
    (.advance 1 ⟨0, true⟩) trivial rfl
  have third := ((((second.next
    (.enter 2 (spawnFrom 2)) trivial rfl).next
    (.advance 2 ⟨0, true⟩) trivial rfl).next
    (.advance 2 ⟨0, true⟩) (show 2 + 1 < 2 ^ 64 by decide) rfl).next
    (.advance 2 ⟨24, true⟩) trivial rfl).next
    (.advance 2 ⟨0, true⟩) trivial rfl
  have detached := ((((third.next
    (.enter 3 (.spawn ⟨false, false, 1, true, 3⟩)) trivial rfl).next
    (.advance 3 ⟨0, true⟩) trivial rfl).next
    (.advance 3 ⟨0, true⟩) (show 3 + 1 < 2 ^ 64 by decide) rfl).next
    (.advance 3 ⟨32, true⟩) trivial rfl).next
    (.advance 3 ⟨0, true⟩) trivial rfl
  have killed := (((((detached.next
    (.enter 0 (.systemKill 8)) trivial rfl).next
    (.advance 0 ⟨0, true⟩) ?_ rfl).next
    (.advance 0 ⟨0, true⟩) trivial rfl).next
    (.advance 0 ⟨0, true⟩) trivial rfl).next
    (.advance 0 ⟨0, true⟩) trivial rfl).next
    (.advance 0 ⟨0, true⟩) trivial rfl
  · exact ⟨_, _, killed, List.mem_cons_self, rfl, rfl, kills_hold killed⟩
  · exact fun _ => chains_live_of_all (by decide) rfl

/-- The operations of a thread that takes some steps of a call. -/
def perform (thread : Thread) (call : Call) (chances : List Nat) : List ActorOp :=
  .enter thread call :: chances.map fun raw => .advance thread ⟨raw, true⟩

/-- An actor spawns a second one, which spawns a third one; the second one is dropped, and the first one
is killed. -/
def orphanOps : List ActorOp :=
  perform 0 (spawnFrom 0) [0, 0, 8, 0] ++ perform 1 (spawnFrom 1) [0, 0, 16, 0] ++
    perform 2 (spawnFrom 2) [0, 0, 24, 0] ++ perform 0 (.drop 16) [0, 0] ++
    perform 0 (.systemKill 8) [0, 0, 0]

/-- The third actor survives the kill. -/
theorem orphan_survives_kill : ¬∀ trace s,
    ActorMachine.Runs (fun _ _ => True) trace s → KillsHold trace s := by
  intro always
  obtain ⟨⟨trace, s⟩, played⟩ : ∃ result, ActorMachine.play orphanOps [] .new = some result :=
    ⟨_, rfl⟩
  have survives : (.advance 0 ⟨0, true⟩, .killed (some 1)) ∈ trace ∧ (24, ⟨3, some 2, false⟩) ∈ s.live ∧
      s.born = [(24, ⟨3, some 2, false⟩), (16, ⟨2, some 1, false⟩), (8, ⟨1, none, false⟩)] := by
    obtain ⟨rfl, rfl⟩ := Prod.mk.inj (Option.some.inj played)
    decide
  obtain ⟨returned, live, born⟩ := survives
  refine always trace s (Machine.Runs.init.play played) _ _ returned _ live ?_
  rw [born]
  exact (Relation.ReflTransGen.single (mem_childIds.mpr
    ⟨⟨2, some 1, false⟩, by decide, rfl, rfl, rfl⟩)).tail
      (mem_childIds.mpr ⟨⟨3, some 2, false⟩, by decide, rfl, rfl, rfl⟩)

end Mimi.Runtime
