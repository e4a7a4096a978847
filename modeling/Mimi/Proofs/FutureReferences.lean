/-
Module: Mimi.Proofs.FutureReferences
Purpose: The references of a future are those of its owner, of the jobs in the pool and of the calls and polls on
  their way, whatever the threads do; nothing but the last of them releases the allocation, and no call touches one
  that is released.
Trusted boundary: none
-/
import Mimi.Lib.Tally
import Mimi.Runtime.Future

namespace Mimi.Runtime.Future

open Mimi.Lib

/-! ### What calls hold -/

/-- The references to a future that a call has still to give up. -/
def Call.held (future : Address) : Call → Nat
  | .register _ | .unlock => 0
  | .retain entry f => if f = future ∧ entry = .free then 1 else 0
  | .body site f => if f = future then if site = .store then 2 else 1 else 0
  | .release stage f after =>
      if f = future then (if stage = .sub then 1 else 0) + (if after = .owner then 1 else 0) else 0

/-- The calls that have allocated a future and not yet registered it. -/
def Call.fresh (future : Address) : Call → Nat
  | .register f => if f = future then 1 else 0
  | _ => 0

/-- The calls that have given up the last reference and not yet taken the future out of the registry. -/
def Call.closing (future : Address) : Call → Nat
  | .release .unregister f _ => if f = future then 1 else 0
  | _ => 0

/-- The calls that have taken a future out of the registry and not yet released its allocation. -/
def Call.gone (future : Address) : Call → Nat
  | .release (.dealloc _) f _ => if f = future then 1 else 0
  | _ => 0

def Activity.held (future : Address) : Activity → Nat
  | calling job call => (if job = some future then 1 else 0) + call.held future
  | polling job => if job = future then 1 else 0

def Activity.fresh (future : Address) : Activity → Nat
  | calling _ call => call.fresh future
  | polling _ => 0

def Activity.closing (future : Address) : Activity → Nat
  | calling _ call => call.closing future
  | polling _ => 0

def Activity.gone (future : Address) : Activity → Nat
  | calling _ call => call.gone future
  | polling _ => 0

/-! ### The books of a future -/

/-- What is held of a future: the references, and the calls at the stages that count. -/
structure Shares where
  held : Nat
  fresh : Nat
  closing : Nat
  gone : Nat

/-- With what an activity or a call weighs. -/
def Shares.add (others : Shares) (held fresh closing gone : Nat) : Shares :=
  ⟨others.held + held, others.fresh + fresh, others.closing + closing, others.gone + gone⟩

def Shares.with (others : Shares) (future : Address) (call : Option Call) : Shares :=
  others.add (weighed (Call.held future) call) (weighed (Call.fresh future) call)
    (weighed (Call.closing future) call) (weighed (Call.gone future) call)

/-- Nobody holds anything of a future that is not allocated. -/
structure Absent (s : State) (future : Address) (shares : Shares) : Prop where
  live : s.live future = false
  owned : s.owned future = false
  jobs : s.jobs.count future = 0
  held : shares.held = 0
  fresh : shares.fresh = 0
  closing : shares.closing = 0
  gone : shares.gone = 0
  counted : s.allocated future = s.released future

/-- The books of a future that is allocated. -/
structure Present (s : State) (future : Address) (header : MimiFutureHeader) (shares : Shares) : Prop where
  refs : header.refs = shares.held + shares.fresh + s.jobs.count future + (s.owned future).toNat
  small : header.refs < 2 ^ 31
  closed : shares.closing + shares.gone = if header.refs = 0 then 1 else 0
  listed : (s.live future).toNat + shares.fresh + shares.gone = 1
  new : 0 < shares.fresh → shares.held + s.jobs.count future + (s.owned future).toNat = 0
  sized : (future_layout header.data_capacity).isSome
  counted : s.allocated future = s.released future + 1

def Books (s : State) (future : Address) (shares : Shares) : Prop :=
  match s.heap future with
  | none => Absent s future shares
  | some header => Present s future header shares

variable {s s' : State} {others shares : Shares} {future f : Address} {after : After} {header : MimiFutureHeader}

theorem Books.absent (books : Books s future shares) (found : s.heap future = none) : Absent s future shares := by
  rwa [Books, found] at books

theorem Books.present (books : Books s future shares) (found : s.heap future = some header) :
    Present s future header shares := by
  rwa [Books, found] at books

theorem Absent.books (absent : Absent s future shares) (found : s.heap future = none) : Books s future shares := by
  rwa [Books, found]

theorem Present.books (present : Present s future header shares) (found : s.heap future = some header) :
    Books s future shares := by
  rwa [Books, found]

theorem Books.written (found : s.heap future = some header) (present : Present s future header shares) :
    Books s future shares := present.books found

/-- The books of the other futures are not touched. -/
theorem Books.elsewhere (books : Books s future shares) (heap : s'.heap future = s.heap future)
    (live : s'.live future = s.live future) (owned : s'.owned future = s.owned future)
    (jobs : s'.jobs.count future = s.jobs.count future) (allocated : s'.allocated future = s.allocated future)
    (released : s'.released future = s.released future) : Books s' future shares := by
  cases found : s.heap future with
  | none =>
      obtain ⟨h₁, h₂, h₃, h₄, h₅, h₆, h₇, h₈⟩ := books.absent found
      refine Absent.books ⟨?_, ?_, ?_, h₄, h₅, h₆, h₇, ?_⟩ (heap.trans found)
      · rw [live, h₁]
      · rw [owned, h₂]
      · rw [jobs, h₃]
      · rw [allocated, released, h₈]
  | some header =>
      obtain ⟨h₁, h₂, h₃, h₄, h₅, h₆, h₇⟩ := books.present found
      refine Present.books ⟨?_, h₂, h₃, ?_, ?_, h₆, ?_⟩ (heap.trans found)
      · rw [jobs, owned, h₁]
      · rw [live, h₄]
      · rw [jobs, owned]
        exact h₅
      · rw [allocated, released, h₇]

@[simp] theorem Shares.held_add (a b c d : Nat) : (others.add a b c d).held = others.held + a := rfl
@[simp] theorem Shares.fresh_add (a b c d : Nat) : (others.add a b c d).fresh = others.fresh + b := rfl
@[simp] theorem Shares.closing_add (a b c d : Nat) : (others.add a b c d).closing = others.closing + c := rfl
@[simp] theorem Shares.gone_add (a b c d : Nat) : (others.add a b c d).gone = others.gone + d := rfl

/-- The future that a call is about. -/
def Call.subject : Call → Option Address
  | .register f | .retain _ f | .body _ f | .release _ f _ => some f
  | .unlock => none

variable {call : Call}

section Weights

attribute [local simp] Shares.with Shares.add Call.subject Call.held Call.fresh Call.closing Call.gone

/-- A call about another future holds nothing of this one. -/
theorem with_other (other : call.subject ≠ some future) :
    others.with future (some call) = others := by
  cases call with
  | register f => simp_all [Shares.with, Shares.add, Call.subject, Call.held, Call.fresh, Call.closing, Call.gone]
  | retain entry f => simp_all [Shares.with, Shares.add, Call.subject, Call.held, Call.fresh, Call.closing, Call.gone]
  | body site f => simp_all [Shares.with, Shares.add, Call.subject, Call.held, Call.fresh, Call.closing, Call.gone]
  | release stage f after =>
      cases stage <;>
        simp_all [Shares.with, Shares.add, Call.subject, Call.held, Call.fresh, Call.closing, Call.gone]
  | unlock => rfl

theorem with_none : others.with f none = others := rfl

theorem with_unlock : others.with f (some .unlock) = others := rfl

theorem with_register : others.with f (some (.register f)) = others.add 0 1 0 0 := by
  simp [Shares.with, Call.held, Call.fresh, Call.closing, Call.gone]

theorem with_retain (entry : Entry) :
    others.with f (some (.retain entry f)) = others.add (if entry = .free then 1 else 0) 0 0 0 := by
  simp [Shares.with, Call.held, Call.fresh, Call.closing, Call.gone]

theorem with_body (site : Site) :
    others.with f (some (.body site f)) = others.add (if site = .store then 2 else 1) 0 0 0 := by
  simp [Shares.with, Call.held, Call.fresh, Call.closing, Call.gone]

theorem with_sub : others.with f (some (.release .sub f after)) =
    others.add (1 + if after = .owner then 1 else 0) 0 0 0 := by
  simp [Shares.with, Call.held, Call.fresh, Call.closing, Call.gone]

theorem with_unregister : others.with f (some (.release .unregister f after)) =
    others.add (if after = .owner then 1 else 0) 0 1 0 := by
  simp [Shares.with, Call.held, Call.fresh, Call.closing, Call.gone]

theorem with_dealloc (data_capacity : Nat) : others.with f (some (.release (.dealloc data_capacity) f after)) =
    others.add (if after = .owner then 1 else 0) 0 0 1 := by
  simp [Shares.with, Call.held, Call.fresh, Call.closing, Call.gone]

end Weights

/-- What a call does to another future. -/
structure Untouched (s s' : State) (future : Address) : Prop where
  heap : s'.heap future = s.heap future
  live : s'.live future = s.live future
  owned : s'.owned future = s.owned future
  jobs : s'.jobs.count future = s.jobs.count future
  allocated : s'.allocated future = s.allocated future
  released : s'.released future = s.released future

theorem Books.apart {next : Option Call} (books : Books s future (others.with future (some call)))
    (other : call.subject ≠ some future) (other' : ∀ later, next = some later → later.subject ≠ some future)
    (same : Untouched s s' future) : Books s' future (others.with future next) := by
  rw [with_other other] at books
  have none_ : others.with future next = others := by
    cases next with
    | none => rfl
    | some later => exact with_other (other' later rfl)
  rw [none_]
  exact books.elsewhere same.heap same.live same.owned same.jobs same.allocated same.released

/-! ### The steps of a call -/

theorem register_books (books : Books s future (others.with future (some (.register f)))) :
    Books { s with live := Function.update s.live f true, owned := Function.update s.owned f true } future
      (others.with future none) := by
  by_cases same : future = f
  · subst same
    rw [with_register] at books
    rw [with_none]
    cases found : s.heap future with
    | none =>
        have fresh := (books.absent found).fresh
        simp only [Shares.fresh_add] at fresh
        omega
    | some header =>
        obtain ⟨refs, small, closed, listed, new, sized, counted⟩ := books.present found
        simp only [Shares.held_add, Shares.fresh_add, Shares.closing_add, Shares.gone_add] at refs closed listed new
        have alone := new (by omega)
        refine Present.books ⟨?_, small, by omega, ?_, fun _ => by omega, sized, counted⟩ found
        · simp only [Function.update_self, Bool.toNat_true]
          omega
        · simp only [Function.update_self, Bool.toNat_true]
          omega
  · exact books.apart (by simpa [Call.subject] using Ne.symm same) nofun
      ⟨rfl, Function.update_of_ne same .., Function.update_of_ne same .., rfl, rfl, rfl⟩

theorem retain_books {entry : Entry} (found : s.heap f = some header) (live : s.live f = true)
    (some_left : 0 < header.refs) (fits : header.refs < 2 ^ 31 - 1)
    (books : Books s future (others.with future (some (.retain entry f)))) :
    Books (s.write f { header with refs := wrapping (header.refs + 1) }) future
      (others.with future (some (.body entry.site f))) := by
  by_cases same : future = f
  · subst same
    rw [with_retain] at books
    rw [with_body, wrapping_small (by omega) (by omega)]
    obtain ⟨refs, small, closed, listed, new, sized, counted⟩ := books.present found
    rw [live, Bool.toNat_true] at listed
    rw [if_neg some_left.ne'] at closed
    simp only [Shares.held_add, Shares.fresh_add, Shares.closing_add, Shares.gone_add] at refs closed listed new
    -- behind the retain of a free stand its own reference and that of the owner
    have more : (if entry.site = .store then 2 else 1 : Nat) = (if entry = .free then 1 else 0) + 1 := by
      cases entry <;> rfl
    refine Books.written (Function.update_self ..)
      ⟨?_, ?_, ?_, ?_, fun fresh => ?_, sized, counted⟩
    · simp only [Shares.held_add, Shares.fresh_add, State.write]
      omega
    · dsimp only
      omega
    · simp only [Shares.closing_add, Shares.gone_add]
      rw [if_neg (by omega)]
      omega
    · simp only [Shares.fresh_add, Shares.gone_add, State.write, live, Bool.toNat_true]
      omega
    · simp only [Shares.fresh_add] at fresh
      omega
  · exact books.apart (by simpa [Call.subject] using Ne.symm same)
      (fun later is => by cases is; simpa [Call.subject] using Ne.symm same)
      ⟨Function.update_of_ne same .., rfl, rfl, rfl, rfl, rfl⟩

/-- A retain that fails holds nothing: the owner of a future that is freed finds it alive. -/
theorem refused_books {entry : Entry}
    (refused : s.live f = false ∨ ∃ header, s.heap f = some header ∧ header.refs ≤ 0)
    (books : Books s future (others.with future (some (.retain entry f)))) :
    Books s future (others.with future none) := by
  by_cases same : future = f
  · subst same
    rw [with_retain] at books
    by_cases free : entry = .free
    · rw [if_pos free] at books
      exfalso
      cases found : s.heap future with
      | none =>
          have held := (books.absent found).held
          simp only [Shares.held_add] at held
          omega
      | some header =>
          obtain ⟨refs, small, closed, listed, new, sized, counted⟩ := books.present found
          simp only [Shares.held_add, Shares.fresh_add, Shares.closing_add, Shares.gone_add] at refs closed listed new
          rw [if_neg (by omega)] at closed
          rcases refused with unlisted | ⟨header', found', low⟩
          · rw [unlisted, Bool.toNat_false] at listed
            have alone := new (by omega)
            omega
          · obtain rfl := Option.some.inj (found.symm.trans found')
            omega
    · rw [if_neg free] at books
      exact books
  · exact books.apart (by simpa [Call.subject] using Ne.symm same) nofun ⟨rfl, rfl, rfl, rfl, rfl, rfl⟩

/-- A step that touches nothing that the books speak of. -/
theorem quiet_books {next : Option Call}
    (weighs : others.with future next = others.with future (some call)) (same : Untouched s s' future)
    (books : Books s future (others.with future (some call))) : Books s' future (others.with future next) := by
  rw [weighs]
  exact books.elsewhere same.heap same.live same.owned same.jobs same.allocated same.released

/-- A change of the completion mark. -/
theorem mark_books (found : s.heap f = some header) (mark : Completed) (books : Books s future shares) :
    Books (s.write f { header with completed := mark }) future shares := by
  by_cases same : future = f
  · subst same
    obtain ⟨refs, small, closed, listed, new, sized, counted⟩ := books.present found
    exact Books.written (Function.update_self ..)
      ⟨refs, small, closed, listed, new, sized, counted⟩
  · exact books.elsewhere (Function.update_of_ne same ..) rfl rfl rfl rfl rfl

theorem send_books (books : Books s future (others.with future (some (.body .send f)))) :
    Books { s with jobs := s.jobs ++ [f] } future (others.with future none) := by
  by_cases same : future = f
  · subst same
    rw [with_body, if_neg nofun] at books
    rw [with_none]
    have jobs : (s.jobs ++ [future]).count future = s.jobs.count future + 1 := by simp [List.count_append]
    cases found : s.heap future with
    | none =>
        have held := (books.absent found).held
        simp only [Shares.held_add] at held
        omega
    | some header =>
        obtain ⟨refs, small, closed, listed, new, sized, counted⟩ := books.present found
        simp only [Shares.held_add, Shares.fresh_add, Shares.closing_add, Shares.gone_add] at refs closed listed new
        refine Present.books ⟨?_, small, closed, listed, fun fresh => ?_, sized, counted⟩ found
        · rw [jobs]
          dsimp only
          omega
        · have alone := new fresh
          omega
  · refine books.apart (by simpa [Call.subject] using Ne.symm same) nofun ⟨rfl, rfl, rfl, ?_, rfl, rfl⟩
    simp [List.count_append, Ne.symm same]

/-- Where a call goes on behind a release, it holds what is left to release. -/
theorem with_leave (state : State) : others.with f (leave f state after).2.1 =
    others.add (if after = .owner then 1 else 0) 0 0 0 := by
  cases after with
  | owner => exact with_sub
  | unlock => exact with_unlock
  | return_ value => exact with_none

theorem leave_state (state : State) : (leave f state after).2.2 = state := by
  cases after <;> rfl

theorem leave_subject (state : State) {later : Call} (is : (leave f state after).2.1 = some later)
    (other : f ≠ future) : later.subject ≠ some future := by
  cases after with
  | owner =>
      cases is
      simpa [Call.subject] using other
  | unlock =>
      cases is
      nofun
  | return_ value => cases is

/-- A reference that is not the last is given up. -/
theorem sub_books (found : s.heap f = some header) (more : header.refs ≠ 1)
    (books : Books s future (others.with future (some (.release .sub f after)))) (state : State) :
    Books (s.write f { header with refs := wrapping (header.refs - 1) }) future
      (others.with future (leave f state after).2.1) := by
  by_cases same : future = f
  · subst same
    rw [with_sub] at books
    rw [with_leave]
    obtain ⟨refs, small, closed, listed, new, sized, counted⟩ := books.present found
    simp only [Shares.held_add, Shares.fresh_add, Shares.closing_add, Shares.gone_add] at refs closed listed new
    rw [if_neg (by omega)] at closed
    rw [wrapping_small (by omega) (by omega)]
    refine Books.written (Function.update_self ..)
      ⟨?_, ?_, ?_, ?_, fun fresh => ?_, sized, counted⟩
    · simp only [Shares.held_add, Shares.fresh_add, State.write]
      omega
    · dsimp only
      omega
    · simp only [Shares.closing_add, Shares.gone_add]
      rw [if_neg (by omega)]
      omega
    · simp only [Shares.fresh_add, Shares.gone_add, State.write]
      omega
    · have alone := new fresh
      omega
  · exact books.apart (by simpa [Call.subject] using Ne.symm same)
      (fun later is => leave_subject state is (Ne.symm same))
      ⟨Function.update_of_ne same .., rfl, rfl, rfl, rfl, rfl⟩

/-- The last reference is given up. -/
theorem last_books (found : s.heap f = some header) (last : header.refs = 1)
    (books : Books s future (others.with future (some (.release .sub f after)))) :
    Books (s.write f { header with refs := wrapping (header.refs - 1) }) future
      (others.with future (some (.release .unregister f after))) := by
  by_cases same : future = f
  · subst same
    rw [with_sub] at books
    rw [with_unregister]
    obtain ⟨refs, small, closed, listed, new, sized, counted⟩ := books.present found
    simp only [Shares.held_add, Shares.fresh_add, Shares.closing_add, Shares.gone_add] at refs closed listed new
    rw [if_neg (by omega)] at closed
    rw [wrapping_small (by omega) (by omega)]
    refine Books.written (Function.update_self ..)
      ⟨?_, ?_, ?_, ?_, fun fresh => ?_, sized, counted⟩
    · simp only [Shares.held_add, Shares.fresh_add, State.write]
      omega
    · dsimp only
      omega
    · simp only [Shares.closing_add, Shares.gone_add]
      rw [if_pos (by omega)]
      omega
    · simp only [Shares.fresh_add, Shares.gone_add, State.write]
      omega
    · have alone := new fresh
      omega
  · exact books.apart (by simpa [Call.subject] using Ne.symm same)
      (fun later is => by cases is; simpa [Call.subject] using Ne.symm same)
      ⟨Function.update_of_ne same .., rfl, rfl, rfl, rfl, rfl⟩

theorem unregister_books (found : s.heap f = some header) (data_capacity : Nat)
    (books : Books s future (others.with future (some (.release .unregister f after)))) :
    Books { s with live := Function.update s.live f false } future
      (others.with future (some (.release (.dealloc data_capacity) f after))) := by
  by_cases same : future = f
  · subst same
    rw [with_unregister] at books
    rw [with_dealloc]
    obtain ⟨refs, small, closed, listed, new, sized, counted⟩ := books.present found
    simp only [Shares.held_add, Shares.fresh_add, Shares.closing_add, Shares.gone_add] at refs closed listed new
    have none_left : header.refs = 0 := by
      by_contra some_left
      rw [if_neg some_left] at closed
      omega
    rw [if_pos none_left] at closed
    refine Present.books ⟨refs, small, ?_, ?_, fun fresh => new (by simpa using fresh), sized, counted⟩ found
    · rw [if_pos none_left]
      simp only [Shares.closing_add, Shares.gone_add]
      omega
    · simp only [Shares.fresh_add, Shares.gone_add, Function.update_self, Bool.toNat_false]
      omega
  · exact books.apart (by simpa [Call.subject] using Ne.symm same)
      (fun later is => by cases is; simpa [Call.subject] using Ne.symm same)
      ⟨rfl, Function.update_of_ne same .., rfl, rfl, rfl, rfl⟩

theorem dealloc_books {data_capacity : Nat}
    (books : Books s future (others.with future (some (.release (.dealloc data_capacity) f after)))) (state : State) :
    Books { s with heap := Function.update s.heap f none
                   released := Function.update s.released f (s.released f + 1) } future
      (others.with future (leave f state after).2.1) := by
  by_cases same : future = f
  · subst same
    rw [with_dealloc] at books
    rw [with_leave]
    cases found : s.heap future with
    | none =>
        have gone := (books.absent found).gone
        simp only [Shares.gone_add] at gone
        omega
    | some header =>
        obtain ⟨refs, small, closed, listed, new, sized, counted⟩ := books.present found
        simp only [Shares.held_add, Shares.fresh_add, Shares.closing_add, Shares.gone_add] at refs closed listed new
        have none_left : header.refs = 0 := by
          by_contra some_left
          rw [if_neg some_left] at closed
          omega
        rw [if_pos none_left] at closed
        refine Absent.books ⟨Bool.toNat_eq_zero.mp ?_, Bool.toNat_eq_zero.mp ?_, ?_, ?_, ?_, ?_, ?_, ?_⟩
          (Function.update_self ..)
        all_goals simp only [Shares.held_add, Shares.fresh_add, Shares.closing_add, Shares.gone_add,
          Function.update_self]
        all_goals omega
  · exact books.apart (by simpa [Call.subject] using Ne.symm same)
      (fun later is => leave_subject state is (Ne.symm same))
      ⟨Function.update_of_ne same .., rfl, rfl, rfl, rfl, Function.update_of_ne same ..⟩

/-- Inside of a function, a call holds the reference that it has retained. -/
theorem with_retained {site : Site} (inner : site ≠ .store) :
    others.with future (some (.body site f)) = others.add (if f = future then 1 else 0) 0 0 0 := by
  simp [Shares.with, Call.held, Call.fresh, Call.closing, Call.gone, inner]

theorem with_returning (inner : after ≠ .owner) :
    others.with future (some (.release .sub f after)) = others.add (if f = future then 1 else 0) 0 0 0 := by
  simp [Shares.with, Call.held, Call.fresh, Call.closing, Call.gone, inner]

theorem moves_eq (site site' : Site) (a : site ≠ .store) (b : site' ≠ .store) :
    others.with future (some (.body site' f)) = others.with future (some (.body site f)) :=
  (with_retained b).trans (with_retained a).symm

theorem leaves_eq (site : Site) (after : After) (a : site ≠ .store) (b : after ≠ .owner) :
    others.with future (some (.release .sub f after)) = others.with future (some (.body site f)) :=
  (with_returning b).trans (with_retained a).symm

/-- In front of the store of a free and behind it, the call holds its own reference and that of the owner. -/
theorem with_freeing : others.with future (some (.release .sub f .owner)) =
    others.with future (some (.body .store f)) := by
  by_cases same : f = future <;>
    simp [Shares.with, Call.held, Call.fresh, Call.closing, Call.gone, same]

/-- Everything that a step of a call can do. -/
inductive Move (thread : Thread) (s : State) : Call → Option Call → State → Prop where
  | register (f : Address) : Move thread s (.register f) none
      { s with live := Function.update s.live f true, owned := Function.update s.owned f true }
  | refuse (entry : Entry) (f : Address)
      (refused : s.live f = false ∨ ∃ header, s.heap f = some header ∧ header.refs ≤ 0) :
      Move thread s (.retain entry f) none s
  | retain (entry : Entry) (f : Address) (header : MimiFutureHeader) (found : s.heap f = some header)
      (live : s.live f = true) (left : 0 < header.refs) :
      Move thread s (.retain entry f) (some (.body entry.site f))
        (s.write f { header with refs := wrapping (header.refs + 1) })
  | store (f : Address) (header : MimiFutureHeader) (found : s.heap f = some header) :
      Move thread s (.body .store f) (some (.release .sub f .owner)) (s.write f { header with completed := .freed })
  | lock (f : Address) (free : s.await_lock = none) :
      Move thread s (.body .lock f) (some (.body .exchange f)) { s with await_lock := some thread }
  | complete (f : Address) (header : MimiFutureHeader) (found : s.heap f = some header) :
      Move thread s (.body .exchange f) (some (.body .notify f)) (s.write f { header with completed := .ready })
  | lose (f : Address) : Move thread s (.body .exchange f) (some (.release .sub f .unlock)) s
  | notify (f : Address) : Move thread s (.body .notify f) (some (.release .sub f .unlock))
      { s with threads := fun other => (s.threads other).map Activity.wake }
  | load (f : Address) (value : Option Int) :
      Move thread s (.body .load f) (some (.release .sub f (.return_ value))) s
  | send (f : Address) : Move thread s (.body .send f) none { s with jobs := s.jobs ++ [f] }
  | unsent (f : Address) (value : Option Int) :
      Move thread s (.body .send f) (some (.release .sub f (.return_ value))) s
  | queue (f : Address) : Move thread s (.body .check f) (some (.body .acquire f)) s
  | skip (f : Address) : Move thread s (.body .check f) (some (.release .sub f (.return_ none))) s
  | acquire (f : Address) (free : s.await_lock = none) :
      Move thread s (.body .acquire f) (some (.body .recheck f)) { s with await_lock := some thread }
  | stay (f : Address) (header : MimiFutureHeader) (found : s.heap f = some header)
      (pending : header.completed = .pending) : Move thread s (.body .recheck f) (some (.body .wait f)) s
  | quit (f : Address) : Move thread s (.body .recheck f) (some (.body .drop f)) s
  | wait (f : Address) : Move thread s (.body .wait f) (some (.body .blocked f)) { s with await_lock := none }
  | drop (f : Address) : Move thread s (.body .drop f) (some (.release .sub f (.return_ none)))
      { s with await_lock := none }
  | sub (f : Address) (after : After) (header : MimiFutureHeader) (found : s.heap f = some header)
      (more : header.refs ≠ 1) (state : State) : Move thread s (.release .sub f after) (leave f state after).2.1
        (s.write f { header with refs := wrapping (header.refs - 1) })
  | last (f : Address) (after : After) (header : MimiFutureHeader) (found : s.heap f = some header)
      (last : header.refs = 1) : Move thread s (.release .sub f after) (some (.release .unregister f after))
        (s.write f { header with refs := wrapping (header.refs - 1) })
  | unregister (f : Address) (after : After) (header : MimiFutureHeader) (found : s.heap f = some header) :
      Move thread s (.release .unregister f after) (some (.release (.dealloc header.data_capacity) f after))
        { s with live := Function.update s.live f false }
  | dealloc (data_capacity : Nat) (f : Address) (after : After) (state : State) :
      Move thread s (.release (.dealloc data_capacity) f after) (leave f state after).2.1
        { s with heap := Function.update s.heap f none
                 released := Function.update s.released f (s.released f + 1) }
  | abort (data_capacity : Nat) (f : Address) (after : After) (corrupt : future_layout data_capacity = none) :
      Move thread s (.release (.dealloc data_capacity) f after) none { s with aborted := true }
  | unlock : Move thread s .unlock none { s with await_lock := none }

variable {accepted : Bool} {answer : Answer}

theorem body_move {thread : Thread} {site : Site} {next : Option Call}
    (steps : advance thread accepted (.body site f) s = some (answer, next, s')) :
    Move thread s (.body site f) next s' := by
  cases site with
  | store =>
      obtain ⟨header, found, rest⟩ := Option.bind_eq_some_iff.mp steps
      cases rest
      exact .store f header found
  | lock =>
      rw [advance] at steps
      split_ifs at steps with free
      cases steps
      exact .lock f free
  | exchange =>
      obtain ⟨header, found, rest⟩ := Option.bind_eq_some_iff.mp steps
      split_ifs at rest with pending
      · cases rest
        exact .complete f header found
      · cases rest
        exact .lose f
  | notify =>
      cases steps
      exact .notify f
  | load =>
      obtain ⟨header, -, rest⟩ := Option.bind_eq_some_iff.mp steps
      cases rest
      exact .load f _
  | send =>
      rw [advance] at steps
      split_ifs at steps
      · cases steps
        exact .send f
      · cases steps
        exact .unsent f _
  | check =>
      obtain ⟨header, -, rest⟩ := Option.bind_eq_some_iff.mp steps
      split_ifs at rest
      · cases rest
        exact .queue f
      · cases rest
        exact .skip f
  | acquire =>
      rw [advance] at steps
      split_ifs at steps with free
      cases steps
      exact .acquire f free
  | recheck =>
      obtain ⟨header, found, rest⟩ := Option.bind_eq_some_iff.mp steps
      split_ifs at rest with pending
      · cases rest
        exact .stay f header found pending
      · cases rest
        exact .quit f
  | wait =>
      cases steps
      exact .wait f
  | blocked => cases steps
  | drop =>
      cases steps
      exact .drop f

theorem advance_move {thread : Thread} {next : Option Call}
    (steps : advance thread accepted call s = some (answer, next, s')) : Move thread s call next s' := by
  cases call with
  | register f =>
      cases steps
      exact .register f
  | unlock =>
      cases steps
      exact .unlock
  | retain entry f =>
      rw [advance] at steps
      split_ifs at steps with live
      · obtain ⟨header, found, rest⟩ := Option.bind_eq_some_iff.mp steps
        split_ifs at rest with low
        · cases rest
          exact .refuse entry f (.inr ⟨header, found, low⟩)
        · cases rest
          exact .retain entry f header found live (not_le.mp low)
      · cases steps
        exact .refuse entry f (.inl (Bool.eq_false_iff.mpr live))
  | body site f => exact body_move steps
  | release stage f after =>
      cases stage with
      | sub =>
          obtain ⟨header, found, rest⟩ := Option.bind_eq_some_iff.mp steps
          split_ifs at rest with last
          · cases rest
            exact .last f after header found last
          · obtain rfl := congrArg (Prod.snd ∘ Prod.snd) (Option.some.inj rest)
            obtain rfl := congrArg (Prod.fst ∘ Prod.snd) (Option.some.inj rest)
            simp only [Function.comp_apply, leave_state]
            exact .sub f after header found last _
      | unregister =>
          obtain ⟨header, found, rest⟩ := Option.bind_eq_some_iff.mp steps
          cases rest
          exact .unregister f after header found
      | dealloc data_capacity =>
          rw [advance] at steps
          split at steps
          · cases steps
            exact .abort data_capacity f after ‹_›
          · obtain rfl := congrArg (Prod.snd ∘ Prod.snd) (Option.some.inj steps)
            obtain rfl := congrArg (Prod.fst ∘ Prod.snd) (Option.some.inj steps)
            simp only [Function.comp_apply, leave_state]
            exact .dealloc data_capacity f after _

/-- The retains of a run stay within the range of the counter. -/
def Call.Fits (s : State) : Call → Prop
  | .retain _ f => ∀ header, s.heap f = some header → header.refs < 2 ^ 31 - 1
  | _ => True

/-- A capacity that was read from a header is one. -/
def Call.Sized : Call → Prop
  | .release (.dealloc data_capacity) _ _ => (future_layout data_capacity).isSome
  | _ => True

/-- The books balance behind every step of a call. -/
theorem Move.books {thread : Thread} {call : Call} {next : Option Call} (move : Move thread s call next s')
    (fits : call.Fits s) (sized : call.Sized) (books : Books s future (others.with future (some call))) :
    Books s' future (others.with future next) := by
  cases move with
  | register f => exact register_books books
  | refuse entry f refused => exact refused_books refused books
  | retain entry f header found live left => exact retain_books found live left (fits header found) books
  | store f header found => exact mark_books found .freed (with_freeing ▸ books)
  | lock f =>
      exact quiet_books (s := s) (moves_eq .lock .exchange nofun nofun) ⟨rfl, rfl, rfl, rfl, rfl, rfl⟩ books
  | complete f header found => exact mark_books found .ready (moves_eq .exchange .notify nofun nofun ▸ books)
  | lose f => exact leaves_eq .exchange .unlock nofun nofun ▸ books
  | notify f => exact quiet_books (s := s) (leaves_eq .notify .unlock nofun nofun) ⟨rfl, rfl, rfl, rfl, rfl, rfl⟩ books
  | load f value => exact leaves_eq .load (.return_ value) nofun nofun ▸ books
  | send f => exact send_books books
  | unsent f value => exact leaves_eq .send (.return_ value) nofun nofun ▸ books
  | queue f => exact moves_eq .check .acquire nofun nofun ▸ books
  | skip f => exact leaves_eq .check (.return_ none) nofun nofun ▸ books
  | acquire f =>
      exact quiet_books (s := s) (moves_eq .acquire .recheck nofun nofun) ⟨rfl, rfl, rfl, rfl, rfl, rfl⟩ books
  | stay f => exact moves_eq .recheck .wait nofun nofun ▸ books
  | quit f => exact moves_eq .recheck .drop nofun nofun ▸ books
  | wait f => exact quiet_books (s := s) (moves_eq .wait .blocked nofun nofun) ⟨rfl, rfl, rfl, rfl, rfl, rfl⟩ books
  | drop f =>
      exact quiet_books (s := s) (leaves_eq .drop (.return_ none) nofun nofun) ⟨rfl, rfl, rfl, rfl, rfl, rfl⟩ books
  | sub f after header found more state => exact sub_books found more books state
  | last f after header found last => exact last_books found last books
  | unregister f after header found => exact unregister_books found _ books
  | dealloc data_capacity f after state => exact dealloc_books books state
  | abort data_capacity f after corrupt =>
      rw [Call.Sized, corrupt] at sized
      cases sized
  | unlock =>
      have weighs : others.with future none = others.with future (some .unlock) := rfl
      exact quiet_books (s := s) weighs ⟨rfl, rfl, rfl, rfl, rfl, rfl⟩ books

/-- A step of a call leaves the other threads alone, or wakes them. -/
theorem Move.threads {thread : Thread} {next : Option Call} (move : Move thread s call next s') :
    s'.threads = s.threads ∨
      (∃ f, call = .body .notify f) ∧ s'.threads = fun other => (s.threads other).map Activity.wake := by
  cases move with
  | notify f => exact .inr ⟨⟨f, rfl⟩, rfl⟩
  | _ => exact .inl rfl

theorem Move.aborted {thread : Thread} {next : Option Call} (move : Move thread s call next s')
    (sized : call.Sized) : s'.aborted = s.aborted := by
  cases move with
  | abort data_capacity f after corrupt =>
      rw [Call.Sized, corrupt] at sized
      cases sized
  | _ => rfl

theorem leave_sized {state : State} : ∀ later, (leave f state after).2.1 = some later → later.Sized := by
  cases after <;> rintro later ⟨⟩ <;> trivial

theorem Move.sized {thread : Thread} {next : Option Call} (move : Move thread s call next s')
    (headers : ∀ f header, s.heap f = some header → (future_layout header.data_capacity).isSome) :
    ∀ later, next = some later → later.Sized := by
  cases move with
  | sub f after header found more state => exact leave_sized
  | dealloc data_capacity f after state => exact leave_sized
  | unregister f after header found =>
      rintro later ⟨⟩
      exact headers f header found
  | _ => rintro later ⟨⟩ <;> trivial

/-! ### The books of a state -/

/-- With what an activity holds. -/
def Shares.holding (others : Shares) (future : Address) (activity : Option Activity) : Shares :=
  others.add (weighed (Activity.held future) activity) (weighed (Activity.fresh future) activity)
    (weighed (Activity.closing future) activity) (weighed (Activity.gone future) activity)

/-- What the threads hold of a future altogether. -/
noncomputable def shares_of (threads : Thread → Option Activity) (future : Address) : Shares :=
  ⟨total (Activity.held future) threads, total (Activity.fresh future) threads,
    total (Activity.closing future) threads, total (Activity.gone future) threads⟩

/-- What a thread weighs is part of what all weigh, and is exchanged when it goes on. -/
theorem total_split (weight : Activity → Nat) {threads : Thread → Option Activity} (busy : Busy threads)
    (thread : Thread) : ∃ rest, total weight threads = rest + weighed weight (threads thread) ∧
      ∀ next, total weight (Function.update threads thread next) = rest + weighed weight next := by
  refine ⟨total weight (Function.update threads thread none), ?_, fun next => ?_⟩
  · have gone := total_update weight busy thread none
    rw [weighed_none] at gone
    omega
  · have gone := total_update weight busy thread none
    have moved := total_update weight busy thread next
    rw [weighed_none] at gone
    omega

theorem shares_split {threads : Thread → Option Activity} (busy : Busy threads) (thread : Thread)
    (future : Address) : ∃ others : Shares, shares_of threads future = others.holding future (threads thread) ∧
      ∀ next, shares_of (Function.update threads thread next) future = others.holding future next := by
  obtain ⟨held, held_is, held_next⟩ := total_split (Activity.held future) busy thread
  obtain ⟨fresh, fresh_is, fresh_next⟩ := total_split (Activity.fresh future) busy thread
  obtain ⟨closing, closing_is, closing_next⟩ := total_split (Activity.closing future) busy thread
  obtain ⟨gone, gone_is, gone_next⟩ := total_split (Activity.gone future) busy thread
  refine ⟨⟨held, fresh, closing, gone⟩, ?_, fun next => ?_⟩
  · rw [shares_of, held_is, fresh_is, closing_is, gone_is]
    rfl
  · rw [shares_of, held_next, fresh_next, closing_next, gone_next]
    rfl

/-- The job of a thread counts among what others hold of a future while a call goes on. -/
theorem holding_calling (job : Option Address) (call : Call) :
    others.holding future (some (.calling job call)) =
      (others.add (if job = some future then 1 else 0) 0 0 0).with future (some call) := by
  simp [Shares.holding, Shares.with, Shares.add, Activity.held, Activity.fresh, Activity.closing, Activity.gone,
    Nat.add_assoc]

theorem holding_next (job : Option Address) (next : Option Call) :
    others.holding future ((next.map (Activity.calling job)).or (rest job)) =
      (others.add (if job = some future then 1 else 0) 0 0 0).with future next := by
  cases next with
  | some call => exact holding_calling job call
  | none =>
      cases job <;>
        simp [rest, Shares.holding, Shares.with, Shares.add, Activity.held, Activity.fresh, Activity.closing,
          Activity.gone]

theorem wake_cases (activity : Activity) : activity.wake = activity ∨
    ∃ job f, activity = .calling job (.body .blocked f) ∧ activity.wake = .calling job (.body .acquire f) := by
  unfold Activity.wake
  split
  · exact .inr ⟨_, _, rfl, rfl⟩
  · exact .inl rfl

/-- A thread that is woken holds what it held. -/
theorem weighed_wake (future : Address) (activity : Option Activity) :
    weighed (Activity.held future) (activity.map Activity.wake) = weighed (Activity.held future) activity ∧
    weighed (Activity.fresh future) (activity.map Activity.wake) = weighed (Activity.fresh future) activity ∧
    weighed (Activity.closing future) (activity.map Activity.wake) = weighed (Activity.closing future) activity ∧
    weighed (Activity.gone future) (activity.map Activity.wake) = weighed (Activity.gone future) activity := by
  rcases activity with - | activity
  · exact ⟨rfl, rfl, rfl, rfl⟩
  rw [Option.map_some]
  obtain same | ⟨job, f, is, woken⟩ := wake_cases activity
  · rw [same]
    exact ⟨rfl, rfl, rfl, rfl⟩
  · rw [woken, is]
    exact ⟨rfl, rfl, rfl, rfl⟩

theorem shares_wake (threads : Thread → Option Activity) (future : Address) :
    shares_of (fun other => (threads other).map Activity.wake) future = shares_of threads future := by
  have same (thread : Thread) := weighed_wake future (threads thread)
  simp only [shares_of, total, (same _).1, (same _).2.1, (same _).2.2.1, (same _).2.2.2]

theorem holding_wake (activity : Option Activity) :
    others.holding future (activity.map Activity.wake) = others.holding future activity := by
  obtain ⟨h₁, h₂, h₃, h₄⟩ := weighed_wake future activity
  rw [Shares.holding, h₁, h₂, h₃, h₄, Shares.holding]

theorem busy_wake {threads : Thread → Option Activity} (busy : Busy threads) :
    Busy fun other => (threads other).map Activity.wake := by
  refine busy.subset fun thread active idle => active ?_
  show (threads thread).map Activity.wake = none
  rw [idle]
  rfl

/-- The books of all futures balance. -/
structure Balanced (s : State) : Prop where
  busy : Busy s.threads
  books : ∀ future, Books s future (shares_of s.threads future)
  sized : ∀ thread job call, s.threads thread = some (.calling job call) → call.Sized
  running : s.aborted = false

theorem Balanced.headers (balanced : Balanced s) (f : Address) (header : MimiFutureHeader)
    (found : s.heap f = some header) : (future_layout header.data_capacity).isSome :=
  ((balanced.books f).present found).sized

theorem balanced_new : Balanced State.new where
  busy := busy_idle
  books future := by
    have idle : ∀ thread, State.new.threads thread = none := fun _ => rfl
    refine Absent.books ⟨rfl, rfl, rfl, ?_, ?_, ?_, ?_, rfl⟩ rfl <;> exact total_idle _ idle
  sized _ _ _ here := by cases here
  running := rfl

/-- A thread goes on, and the books of every future balance with what it holds then. -/
theorem Balanced.goes_on {threads : Thread → Option Activity} {thread : Thread} {activity : Option Activity}
    (busy : Busy threads) (threads' : s'.threads = Function.update threads thread activity)
    (running : s'.aborted = false)
    (sized : ∀ other job call, threads other = some (.calling job call) → call.Sized)
    (sized' : ∀ job call, activity = some (.calling job call) → call.Sized)
    (books : ∀ future (others : Shares), shares_of threads future = others.holding future (threads thread) →
      Books s' future (others.holding future activity)) : Balanced s' where
  busy := threads' ▸ busy.update thread activity
  books future := by
    obtain ⟨others, is, next⟩ := shares_split busy thread future
    rw [threads', next]
    exact books future others is
  sized other job call here := by
    rw [threads'] at here
    by_cases same : other = thread
    · rw [same, Function.update_self] at here
      exact sized' job call here
    · rw [Function.update_of_ne same] at here
      exact sized other job call here
  running := running

variable {job : Option Address}

theorem Balanced.advance {thread : Thread}
    {next : Option Call} (balanced : Balanced s) (here : s.threads thread = some (.calling job call))
    (fits : call.Fits s) (steps : Future.advance thread accepted call s = some (answer, next, s')) :
    Balanced { s' with
      threads := Function.update s'.threads thread ((next.map (Activity.calling job)).or (rest job)) } := by
  have sized := balanced.sized thread job call here
  have move := advance_move steps
  have later := move.sized balanced.headers
  have threads : Busy s'.threads ∧ (∀ other job call, s'.threads other = some (.calling job call) → call.Sized) ∧
      ∀ future, shares_of s'.threads future = shares_of s.threads future ∧
        ∀ others : Shares, others.holding future (s'.threads thread) = others.holding future (s.threads thread) := by
    rcases move.threads with same | ⟨-, woken⟩
    · rw [same]
      exact ⟨balanced.busy, balanced.sized, fun _ => ⟨rfl, fun _ => rfl⟩⟩
    · rw [woken]
      refine ⟨busy_wake balanced.busy, ?_, fun future => ⟨shares_wake s.threads future, fun _ => holding_wake _⟩⟩
      intro other job call is
      cases found : s.threads other with
      | none => simp [found] at is
      | some activity =>
          simp only [found, Option.map_some, Option.some.injEq] at is
          obtain same | ⟨job', f, -, woken⟩ := wake_cases activity
          · exact balanced.sized other job call (found.trans (congrArg some (same.symm.trans is)))
          · rw [woken] at is
            cases is
            trivial
  obtain ⟨busy, sized', weighs⟩ := threads
  refine Balanced.goes_on busy rfl ((move.aborted sized).trans balanced.running) sized' ?_ ?_
  · intro job' call' is
    cases next with
    | none => cases job <;> cases is
    | some call'' =>
        cases is
        exact later call' rfl
  · intro future others is
    rw [holding_next]
    rw [(weighs future).1, (weighs future).2, here, holding_calling] at is
    exact (move.books fits sized (is ▸ balanced.books future)).elsewhere rfl rfl rfl rfl rfl rfl

/-- The calls that a step advances stay within the range of the counter. -/
def CountsFit (op : FutureOp) (s : State) : Prop :=
  match op with
  | .advance thread _ => ∀ job call, s.threads thread = some (.calling job call) → call.Fits s
  | _ => True

theorem resting_holding {thread : Thread} (at_rest : resting s thread = some job) :
    others.holding future (s.threads thread) = others.add (if job = some future then 1 else 0) 0 0 0 := by
  unfold resting at at_rest
  split at at_rest
  · rename_i idle
    cases at_rest
    rw [idle]
    rfl
  · rename_i polling
    cases at_rest
    rw [polling]
    simp [Shares.holding, Shares.add, Activity.held, Activity.fresh, Activity.closing, Activity.gone]
  · cases at_rest

/-- A new future: nobody held anything of its address. -/
theorem alloc_books {data_capacity : Nat} (free : s.heap f = none) (sized : (future_layout data_capacity).isSome)
    (books : Books s future others) :
    Books { s.write f ⟨.pending, 1, data_capacity⟩ with
      allocated := Function.update s.allocated f (s.allocated f + 1) } future
      (others.with future (some (.register f))) := by
  by_cases same : future = f
  · subst same
    obtain ⟨live, owned, jobs, held, fresh, closing, gone, counted⟩ := books.absent free
    rw [with_register]
    refine Books.written (Function.update_self ..)
      ⟨?_, by norm_num, ?_, ?_, fun _ => ?_, sized, ?_⟩
    · simp only [Shares.held_add, Shares.fresh_add, State.write, owned, Bool.toNat_false]
      omega
    · simp only [Shares.closing_add, Shares.gone_add]
      rw [if_neg (by decide)]
      omega
    · simp only [Shares.fresh_add, Shares.gone_add, State.write, live, Bool.toNat_false]
      omega
    · simp only [Shares.held_add, State.write, owned, Bool.toNat_false]
      omega
    · simp only [State.write, Function.update_self]
      omega
  · rw [with_other (by simpa [Call.subject] using Ne.symm same)]
    exact books.elsewhere (Function.update_of_ne same ..) rfl rfl rfl (Function.update_of_ne same ..) rfl

/-- The owner of a future starts to free it. -/
theorem disown_books (owned : s.owned f = true) (books : Books s future others) :
    Books { s with owned := Function.update s.owned f false } future
      (others.with future (some (.retain .free f))) := by
  by_cases same : future = f
  · subst same
    rw [with_retain, if_pos rfl]
    cases found : s.heap future with
    | none =>
        rw [(books.absent found).owned] at owned
        cases owned
    | some header =>
        obtain ⟨refs, small, closed, listed, new, sized, counted⟩ := books.present found
        rw [owned, Bool.toNat_true] at refs new
        refine Present.books ⟨?_, small, closed, listed, fun fresh => ?_, sized, counted⟩ found
        · simp only [Shares.held_add, Shares.fresh_add, Function.update_self, Bool.toNat_false]
          omega
        · have alone := new fresh
          omega
  · rw [with_other (by simpa [Call.subject] using Ne.symm same)]
    exact books.elsewhere rfl rfl (Function.update_of_ne same ..) rfl rfl rfl

/-- A worker takes over the reference of its job. -/
theorem take_books {index : Nat} {job : Address} (found : s.jobs[index]? = some job)
    (books : Books s future others) :
    Books { s with jobs := s.jobs.eraseIdx index } future (others.holding future (some (.polling job))) := by
  have count : s.jobs.count future = (s.jobs.eraseIdx index).count future + if job = future then 1 else 0 := by
    have perm : s.jobs.Perm (job :: s.jobs.eraseIdx index) := by
      obtain ⟨inside, is⟩ := List.getElem?_eq_some_iff.mp found
      rw [← is]
      exact (List.getElem_cons_eraseIdx_perm inside).symm
    rw [perm.count_eq, List.count_cons]
    simp
  by_cases same : job = future
  · rw [if_pos same] at count
    have holding : others.holding future (some (.polling job)) = others.add 1 0 0 0 := by
      simp [Shares.holding, Activity.held, Activity.fresh, Activity.closing, Activity.gone, same]
    rw [holding]
    cases present : s.heap future with
    | none =>
        have none_ := (books.absent present).jobs
        omega
    | some header =>
        obtain ⟨refs, small, closed, listed, new, sized, counted⟩ := books.present present
        refine Present.books ⟨?_, small, closed, listed, fun fresh => ?_, sized, counted⟩ present
        · simp only [Shares.held_add, Shares.fresh_add]
          omega
        · have alone := new fresh
          simp only [Shares.held_add]
          omega
  · rw [if_neg same] at count
    have holding : others.holding future (some (.polling job)) = others := by
      simp [Shares.holding, Shares.add, Activity.held, Activity.fresh, Activity.closing, Activity.gone, same]
    rw [holding]
    exact books.elsewhere rfl rfl rfl count.symm rfl rfl

/-- A call of a thread that was at rest. -/
theorem Balanced.begins {state : State} {thread : Thread}
    (balanced : Balanced s) (at_rest : resting s thread = some job)
    (threads : state.threads = Function.update s.threads thread (some (.calling job call)))
    (running : state.aborted = s.aborted) (sized : call.Sized)
    (books : ∀ future others, Books s future others → Books state future (others.with future (some call))) :
    Balanced state := by
  refine Balanced.goes_on balanced.busy threads (running.trans balanced.running) balanced.sized ?_ ?_
  · rintro job' call' is
    cases is
    exact sized
  · intro future others is
    rw [holding_calling]
    rw [resting_holding at_rest] at is
    exact books future _ (is ▸ balanced.books future)

theorem balanced_step {op : FutureOp} (balanced : Balanced s) (fits : CountsFit op s)
    (steps : futureStep op s = some (answer, s')) : Balanced s' := by
  unfold futureStep at steps
  rw [if_neg (by rw [balanced.running]; exact Bool.false_ne_true)] at steps
  cases op with
  | alloc thread result_size f =>
      obtain ⟨job, at_rest, rest⟩ := Option.bind_eq_some_iff.mp steps
      dsimp only at rest
      split_ifs at rest with null free
      · obtain ⟨-, rfl⟩ := Prod.mk.inj (Option.some.inj rest)
        exact balanced
      · obtain ⟨-, rfl⟩ := Prod.mk.inj (Option.some.inj rest)
        have sized : (future_layout (max result_size FUTURE_MIN_DATA_CAPACITY)).isSome :=
          Option.isSome_iff_ne_none.mpr fun none_ => null (.inl none_)
        exact balanced.begins at_rest rfl rfl trivial fun future others books =>
          (alloc_books free sized books).elsewhere rfl rfl rfl rfl rfl rfl
  | enter thread entry f =>
      obtain ⟨job, at_rest, rest⟩ := Option.bind_eq_some_iff.mp steps
      split_ifs at rest with null free owned
      · obtain ⟨-, rfl⟩ := Prod.mk.inj (Option.some.inj rest)
        exact balanced
      · obtain ⟨-, rfl⟩ := Prod.mk.inj (Option.some.inj rest)
        exact balanced.begins at_rest rfl rfl trivial fun future others books =>
          (disown_books owned books).elsewhere rfl rfl rfl rfl rfl rfl
      · obtain ⟨-, rfl⟩ := Prod.mk.inj (Option.some.inj rest)
        refine balanced.begins at_rest rfl rfl trivial fun future others books => ?_
        have nothing : others.with future (some (.retain entry f)) = others := by
          by_cases same : future = f
          · rw [same, with_retain, if_neg free]
            rfl
          · exact with_other (by simpa [Call.subject] using Ne.symm same)
        rw [nothing]
        exact books.elsewhere rfl rfl rfl rfl rfl rfl
  | advance thread accepted =>
      dsimp only at steps
      split at steps
      · rename_i job call here
        obtain ⟨⟨answer', next, state⟩, taken, rest⟩ := Option.bind_eq_some_iff.mp steps
        obtain ⟨-, rfl⟩ := Prod.mk.inj (Option.some.inj rest)
        exact balanced.advance here (fits job call here) taken
      · cases steps
  | wake thread =>
      dsimp only at steps
      split at steps
      · rename_i job f here
        obtain ⟨-, rfl⟩ := Prod.mk.inj (Option.some.inj steps)
        refine Balanced.goes_on balanced.busy rfl balanced.running balanced.sized ?_ ?_
        · rintro job' call' is
          cases is
          trivial
        · intro future others is
          have acquiring : Site.acquire ≠ .store := nofun
          have blocked : Site.blocked ≠ .store := nofun
          rw [holding_calling, with_retained acquiring]
          rw [here, holding_calling, with_retained blocked] at is
          exact (is ▸ balanced.books future).elsewhere rfl rfl rfl rfl rfl rfl
      · cases steps
  | take thread index =>
      obtain ⟨job, found, rest⟩ := Option.bind_eq_some_iff.mp steps
      split_ifs at rest with idle
      obtain ⟨-, rfl⟩ := Prod.mk.inj (Option.some.inj rest)
      refine Balanced.goes_on balanced.busy rfl balanced.running balanced.sized nofun ?_
      intro future others is
      rw [idle] at is
      have books : Books s future (others.holding future none) := is ▸ balanced.books future
      exact (take_books found books).elsewhere rfl rfl rfl rfl rfl rfl
  | finish thread =>
      dsimp only at steps
      split at steps
      · rename_i job here
        obtain ⟨-, rfl⟩ := Prod.mk.inj (Option.some.inj steps)
        refine Balanced.goes_on balanced.busy rfl balanced.running balanced.sized ?_ ?_
        · rintro job' call' is
          cases is
          trivial
        · intro future others is
          rw [here] at is
          have same : others.holding future (some (.polling job)) =
              others.holding future (some (.calling none (.release .sub job (.return_ none)))) := by
            have returning : After.return_ none ≠ .owner := nofun
            rw [holding_calling, with_returning returning]
            simp [Shares.holding, Shares.add, Activity.held, Activity.fresh, Activity.closing, Activity.gone]
          rw [← same]
          exact (is ▸ balanced.books future).elsewhere rfl rfl rfl rfl rfl rfl
      · cases steps

theorem balanced_run {trace : List (FutureOp × Answer)} (run : FutureMachine.Runs CountsFit trace s) : Balanced s :=
  run.invariant (I := fun _ s => Balanced s) balanced_new fun balanced fits steps => balanced_step balanced fits steps

/-! ### What holds of every run -/

/-- The memory that the next step of a call reads, writes or gives back. -/
def Call.touches (s : State) : Call → Option Address
  | .retain _ f => if s.live f then some f else none
  | .body site f => if site ∈ [.store, .exchange, .load, .check, .recheck] then some f else none
  | .release _ f _ => some f
  | .register _ | .unlock => none

/-- No thread holds a reference to a future, and neither does a job or its owner. -/
structure Unheld (s : State) (future : Address) : Prop where
  threads : ∀ thread activity, s.threads thread = some activity →
    activity.held future = 0 ∧ activity.fresh future = 0
  jobs : future ∉ s.jobs
  owned : s.owned future = false

/-- A thread has given up the last reference to a future and is releasing its allocation. -/
def Releasing (s : State) (thread : Thread) (future : Address) : Prop :=
  ∃ job stage after, s.threads thread = some (.calling job (.release stage future after)) ∧ stage ≠ .sub

/-- References are safe: what is touched is allocated, only what nobody holds is released, by one thread and once, and
as soon as nobody holds it, and a call on a future that is released touches nothing. -/
structure RefsSafe (s : State) : Prop where
  touches : ∀ thread job call future, s.threads thread = some (.calling job call) →
    call.touches s = some future → (s.heap future).isSome
  unheld : ∀ thread future, Releasing s thread future → Unheld s future
  alone : ∀ thread other future, Releasing s thread future → Releasing s other future → thread = other
  soon : ∀ future, (s.heap future).isSome → Unheld s future → ∃ thread, Releasing s thread future
  once : ∀ future, s.allocated future = s.released future + if (s.heap future).isSome then 1 else 0
  rejected : ∀ thread job entry future accepted, s.threads thread = some (.calling job (.retain entry future)) →
    s.heap future = none → futureStep (.advance thread accepted) s =
      some (.returned entry.rejected, { s with threads := Function.update s.threads thread (rest job) })
  running : s.aborted = false

theorem weighed_le_total (weight : Activity → Nat) {threads : Thread → Option Activity} (busy : Busy threads)
    (thread : Thread) : weighed weight (threads thread) ≤ total weight threads := by
  obtain ⟨rest, is, -⟩ := total_split weight busy thread
  omega

/-- Two threads weigh no more than all. -/
theorem weighed_two_le_total (weight : Activity → Nat) {threads : Thread → Option Activity} (busy : Busy threads)
    {thread other : Thread} (apart : other ≠ thread) :
    weighed weight (threads thread) + weighed weight (threads other) ≤ total weight threads := by
  obtain ⟨rest, is, next⟩ := total_split weight busy thread
  have among := weighed_le_total weight (busy.update thread none) other
  rw [next none, weighed_none, Function.update_of_ne apart] at among
  omega

/-- Where no thread weighs anything, neither do all. -/
theorem total_eq_zero {weight : Activity → Nat} {threads : Thread → Option Activity}
    (nothing : ∀ thread activity, threads thread = some activity → weight activity = 0) : total weight threads = 0 := by
  have weightless : ∀ thread, weighed weight (threads thread) = 0 := by
    intro thread
    cases found : threads thread with
    | none => rfl
    | some activity => exact nothing thread activity found
  rw [total, finsum_congr weightless, finsum_zero]

/-- What a thread that is releasing an allocation weighs. -/
theorem Releasing.weighs {thread : Thread} (releasing : Releasing s thread future) :
    weighed (Activity.closing future) (s.threads thread) + weighed (Activity.gone future) (s.threads thread) = 1 := by
  obtain ⟨job, stage, after, here, past⟩ := releasing
  rw [here]
  cases stage with
  | sub => exact absurd rfl past
  | unregister => simp [Activity.closing, Activity.gone, Call.closing, Call.gone]
  | dealloc data_capacity => simp [Activity.closing, Activity.gone, Call.closing, Call.gone]

theorem releasing_of_weighs {thread : Thread}
    (weighs : weighed (Activity.closing future) (s.threads thread) +
      weighed (Activity.gone future) (s.threads thread) ≠ 0) : Releasing s thread future := by
  cases here : s.threads thread with
  | none => simp [here] at weighs
  | some activity =>
      rw [here] at weighs
      cases activity with
      | polling job => simp [Activity.closing, Activity.gone] at weighs
      | calling job call =>
          cases call with
          | release stage f after =>
              by_cases same : f = future
              · subst same
                refine ⟨job, stage, after, here, ?_⟩
                rintro rfl
                simp [Activity.closing, Activity.gone, Call.closing, Call.gone] at weighs
              · cases stage <;> simp [Activity.closing, Activity.gone, Call.closing, Call.gone, same] at weighs
          | _ => simp [Activity.closing, Activity.gone, Call.closing, Call.gone] at weighs

/-- The books of a future that a thread is releasing: nothing is left of its references. -/
theorem Balanced.released (balanced : Balanced s) {thread : Thread} (releasing : Releasing s thread future) :
    ∃ header, s.heap future = some header ∧ header.refs = 0 := by
  have weighs := releasing.weighs
  have closing := weighed_le_total (Activity.closing future) balanced.busy thread
  have gone := weighed_le_total (Activity.gone future) balanced.busy thread
  cases found : s.heap future with
  | none =>
      have absent := (balanced.books future).absent found
      have none_closing := absent.closing
      have none_gone := absent.gone
      rw [shares_of] at none_closing none_gone
      dsimp only at none_closing none_gone
      omega
  | some header =>
      refine ⟨header, rfl, ?_⟩
      have closed := ((balanced.books future).present found).closed
      by_contra left
      rw [if_neg left, shares_of] at closed
      dsimp only at closed
      omega

theorem Balanced.touched (balanced : Balanced s) {thread : Thread}
    (here : s.threads thread = some (.calling job call)) (touches : call.touches s = some future) :
    (s.heap future).isSome := by
  by_contra gone
  have absent := (balanced.books future).absent (Option.not_isSome_iff_eq_none.mp gone)
  have held := weighed_le_total (Activity.held future) balanced.busy thread
  have none_held : total (Activity.held future) s.threads = 0 := absent.held
  rw [here, weighed_some, none_held] at held
  cases call with
  | register f => cases touches
  | unlock => cases touches
  | retain entry f =>
      rw [Call.touches] at touches
      split_ifs at touches with live
      cases touches
      rw [absent.live] at live
      cases live
  | body site f =>
      rw [Call.touches] at touches
      split_ifs at touches
      cases touches
      rw [Activity.held, Call.held, if_pos rfl] at held
      split_ifs at held <;> omega
  | release stage f after =>
      cases touches
      by_cases sub : stage = .sub
      · rw [Activity.held, Call.held, if_pos rfl, if_pos sub] at held
        omega
      · have releasing : Releasing s thread future := ⟨job, stage, after, here, sub⟩
        obtain ⟨header, found, -⟩ := balanced.released releasing
        rw [found] at gone
        exact gone rfl

theorem Balanced.refs_safe (balanced : Balanced s) : RefsSafe s where
  touches _ _ _ _ here touches := balanced.touched here touches
  unheld thread future releasing := by
    obtain ⟨header, found, none_left⟩ := balanced.released releasing
    have refs := ((balanced.books future).present found).refs
    rw [none_left, shares_of] at refs
    dsimp only at refs
    refine ⟨fun other activity here => ?_, List.count_eq_zero.mp (by omega), Bool.toNat_eq_zero.mp (by omega)⟩
    have held := weighed_le_total (Activity.held future) balanced.busy other
    have fresh := weighed_le_total (Activity.fresh future) balanced.busy other
    rw [here, weighed_some] at held fresh
    exact ⟨by omega, by omega⟩
  alone thread other future releasing releasing' := by
    by_contra apart
    obtain ⟨header, found, none_left⟩ := balanced.released releasing
    have closed := ((balanced.books future).present found).closed
    rw [if_pos none_left, shares_of] at closed
    dsimp only at closed
    have closing := weighed_two_le_total (Activity.closing future) balanced.busy (Ne.symm apart)
    have gone := weighed_two_le_total (Activity.gone future) balanced.busy (Ne.symm apart)
    have weighs := releasing.weighs
    have weighs' := releasing'.weighs
    omega
  soon future allocated unheld := by
    obtain ⟨header, found⟩ := Option.isSome_iff_exists.mp allocated
    obtain ⟨refs, -, closed, -, -, -, -⟩ := (balanced.books future).present found
    have held : total (Activity.held future) s.threads = 0 :=
      total_eq_zero fun thread activity here => (unheld.threads thread activity here).1
    have fresh : total (Activity.fresh future) s.threads = 0 :=
      total_eq_zero fun thread activity here => (unheld.threads thread activity here).2
    rw [shares_of, held, fresh, List.count_eq_zero.mpr unheld.jobs, unheld.owned] at refs
    rw [if_pos (by simpa using refs), shares_of] at closed
    by_contra nobody
    push Not at nobody
    have idle (thread : Thread) : weighed (Activity.closing future) (s.threads thread) +
        weighed (Activity.gone future) (s.threads thread) = 0 := by
      by_contra weighs
      exact nobody thread (releasing_of_weighs weighs)
    have none_closing : total (Activity.closing future) s.threads = 0 :=
      total_eq_zero fun thread activity here => by
        have zero := idle thread
        rw [here, weighed_some, weighed_some] at zero
        omega
    have none_gone : total (Activity.gone future) s.threads = 0 :=
      total_eq_zero fun thread activity here => by
        have zero := idle thread
        rw [here, weighed_some, weighed_some] at zero
        omega
    rw [none_closing, none_gone] at closed
    cases closed
  once future := by
    cases found : s.heap future with
    | none => simpa using ((balanced.books future).absent found).counted
    | some header => simpa using ((balanced.books future).present found).counted
  rejected thread job entry future accepted here gone := by
    have unlisted := ((balanced.books future).absent gone).live
    unfold futureStep
    rw [if_neg (by rw [balanced.running]; exact Bool.false_ne_true)]
    dsimp only
    rw [here]
    dsimp only
    rw [Future.advance, unlisted, if_neg Bool.false_ne_true]
    rfl
  running := balanced.running

end Mimi.Runtime.Future
