/-
Module: Mimi.Lib.Scoped
Purpose: Terms whose binders carry names.  A graft puts a term in the place of each free name as it
  is, also under binders; it agrees with the substitution on nameless terms exactly where no free name
  of what is put in is bound at the place.  A chained graft goes on in what it has put in, under the
  binders in force there, and leaves alone the names that it is about to replace already.
Trusted boundary: none
-/
import Mathlib

namespace Mimi.Lib

/-- A term: a reference to a name, a node with parts, or a binder of some names in its body. -/
inductive Scoped (ν L : Type) where
  | ref (x : ν)
  | node (label : L) (parts : List (Scoped ν L))
  | bind (label : L) (xs : List ν) (body : Scoped ν L)

namespace Scoped

variable {ν L : Type}

@[induction_eliminator]
theorem induct {P : Scoped ν L → Prop} (ref : ∀ x, P (.ref x))
    (node : ∀ label parts, (∀ part ∈ parts, P part) → P (.node label parts))
    (bind : ∀ label xs body, P body → P (.bind label xs body)) : ∀ t, P t :=
  @Scoped.rec ν L P (fun parts => ∀ part ∈ parts, P part) ref node bind
    (fun _ member => absurd member List.not_mem_nil)
    (fun _ _ here there part member =>
      (List.mem_cons.mp member).elim (fun same => same ▸ here) (there part))

section Traverse

variable {m : Type → Type} [Monad m] (enter : List ν → m Unit) (exit : m Unit)
  (visit : ν → m (Scoped ν L))

mutual

/-- Visit the references in order, and tell where the names of a binder begin and end. -/
def traverse : Scoped ν L → m (Scoped ν L)
  | .ref x => visit x
  | .node label parts => do
      let parts ← traverseAll parts
      return .node label parts
  | .bind label xs body => do
      enter xs
      let body ← traverse body
      exit
      return .bind label xs body

def traverseAll : List (Scoped ν L) → m (List (Scoped ν L))
  | [] => return []
  | part :: parts => do
      let part ← traverse part
      let parts ← traverseAll parts
      return part :: parts

end

end Traverse

variable [DecidableEq ν]

mutual

/-- The references that no binder and no name in scope binds, in order, each with the names in scope at
its place. -/
def occs (scope : List ν) : Scoped ν L → List (ν × List ν)
  | .ref x => if x ∈ scope then [] else [(x, scope)]
  | .node _ parts => occsAll scope parts
  | .bind _ xs body => occs (xs ++ scope) body

def occsAll (scope : List ν) : List (Scoped ν L) → List (ν × List ν)
  | [] => []
  | part :: parts => occs scope part ++ occsAll scope parts

end

/-- The free names of a term. -/
def free (scope : List ν) (t : Scoped ν L) : List ν := (occs scope t).map Prod.fst

mutual

/-- Put a term in the place of each free name, as the names in scope there say. -/
def graft (on : List ν → ν → Option (Scoped ν L)) (scope : List ν) :
    Scoped ν L → Option (Scoped ν L)
  | .ref x => if x ∈ scope then some (.ref x) else on scope x
  | .node label parts => (graftAll on scope parts).map (.node label)
  | .bind label xs body => (graft on (xs ++ scope) body).map (.bind label xs)

def graftAll (on : List ν → ν → Option (Scoped ν L)) (scope : List ν) :
    List (Scoped ν L) → Option (List (Scoped ν L))
  | [] => some []
  | part :: parts => do
      let part ← graft on scope part
      let parts ← graftAll on scope parts
      return part :: parts

end

attribute [local simp] occs occsAll graft graftAll

variable {o : ν × List ν}

theorem mem_occsAll {scope : List ν} {parts : List (Scoped ν L)} :
    o ∈ occsAll scope parts ↔ ∃ part ∈ parts, o ∈ occs scope part := by
  induction parts with
  | nil => simp [occsAll]
  | cons part parts ih => simp [occsAll, ih]

theorem graftAll_eq_some {on : List ν → ν → Option (Scoped ν L)} {scope : List ν}
    {parts parts' : List (Scoped ν L)} :
    graftAll on scope parts = some parts' ↔
      List.Forall₂ (fun part part' => graft on scope part = some part') parts parts' := by
  induction parts generalizing parts' with
  | nil =>
      rw [graftAll, Option.some.injEq, List.forall₂_nil_left_iff]
      exact eq_comm
  | cons part parts ih =>
      rw [graftAll, List.forall₂_cons_left_iff]
      simp only [Option.bind_eq_bind, Option.bind_eq_some_iff, Option.pure_def, Option.some.injEq]
      constructor
      · rintro ⟨part', here, rest, there, rfl⟩
        exact ⟨part', rest, here, ih.mp there, rfl⟩
      · rintro ⟨part', rest, here, there, rfl⟩
        exact ⟨part', here, rest, ih.mpr there, rfl⟩

theorem mem_free {scope : List ν} {t : Scoped ν L} {x : ν} :
    x ∈ free scope t ↔ ∃ place, (x, place) ∈ occs scope t := by
  rw [free, List.mem_map]
  constructor
  · rintro ⟨o, member, rfl⟩
    exact ⟨o.2, member⟩
  · rintro ⟨place, member⟩
    exact ⟨(x, place), member, rfl⟩

/-- A free name is not in the scope of its place, and the scope there goes on from the one around. -/
theorem occs_scope {scope : List ν} {t : Scoped ν L} (member : o ∈ occs scope t) :
    o.1 ∉ o.2 ∧ scope <:+ o.2 := by
  induction t generalizing scope with
  | ref x =>
      rw [occs] at member
      split_ifs at member with bound
      · cases member
      · obtain rfl := List.mem_singleton.mp member
        exact ⟨bound, List.suffix_rfl⟩
  | node label parts ih =>
      rw [occs, mem_occsAll] at member
      obtain ⟨part, inside, member⟩ := member
      exact ih part inside member
  | bind label xs body ih =>
      obtain ⟨apart, longer⟩ := ih member
      exact ⟨apart, (List.suffix_append _ _).trans longer⟩

/-- A free name that the names around do not bind is free under them. -/
theorem occs_weaken {scope inner : List ν} {t : Scoped ν L} (member : o ∈ occs inner t) (apart : o.1 ∉ scope) :
    (o.1, o.2 ++ scope) ∈ occs (inner ++ scope) t := by
  induction t generalizing inner with
  | ref x =>
      rw [occs] at member ⊢
      split_ifs at member with bound
      · cases member
      · obtain rfl := List.mem_singleton.mp member
        rw [if_neg fun inside => (List.mem_append.mp inside).elim bound apart]
        exact List.mem_singleton_self _
  | node label parts ih =>
      rw [occs, mem_occsAll] at member ⊢
      obtain ⟨part, inside, member⟩ := member
      exact ⟨part, inside, ih part inside member⟩
  | bind label xs body ih =>
      rw [occs, ← List.append_assoc]
      exact ih member

/-- What is free under more names is free under fewer. -/
theorem free_anti {scope wider : List ν} (more : scope ⊆ wider) {t : Scoped ν L} {x : ν}
    (member : x ∈ free wider t) : x ∈ free scope t := by
  rw [mem_free] at member ⊢
  obtain ⟨place, member⟩ := member
  induction t generalizing scope wider with
  | ref y =>
      rw [occs] at member ⊢
      split_ifs at member with bound
      · cases member
      · obtain ⟨rfl, -⟩ := Prod.mk.inj (List.mem_singleton.mp member)
        exact ⟨scope, by rw [if_neg (fun bound' => bound (more bound'))]; exact List.mem_singleton_self _⟩
  | node label parts ih =>
      rw [occs, mem_occsAll] at member
      obtain ⟨part, inside, member⟩ := member
      obtain ⟨place', found⟩ := ih part inside more member
      exact ⟨place', by rw [occs, mem_occsAll]; exact ⟨part, inside, found⟩⟩
  | bind label xs body ih =>
      refine ih (List.append_subset.mpr ⟨List.subset_append_left _ _, ?_⟩) member
      exact fun _ inside => List.subset_append_right _ _ (more inside)

/-! ### Grafts -/

section Graft

variable {on on' : List ν → ν → Option (Scoped ν L)} {scope : List ν} {t r : Scoped ν L}

theorem graft_isSome (some_ : ∀ o ∈ occs scope t, (on o.2 o.1).isSome) :
    (graft on scope t).isSome := by
  induction t generalizing scope with
  | ref x =>
      rw [graft]
      split_ifs with bound
      · rfl
      · exact some_ (x, scope) (by rw [occs, if_neg bound]; exact List.mem_singleton_self _)
  | node label parts ih =>
      rw [graft, Option.isSome_map]
      have all : ∀ part ∈ parts, (graft on scope part).isSome := fun part inside =>
        ih part inside fun o member =>
          some_ o (by rw [occs, mem_occsAll]; exact ⟨part, inside, member⟩)
      clear ih some_
      induction parts with
      | nil => rfl
      | cons part parts rest =>
          obtain ⟨part', here⟩ := Option.isSome_iff_exists.mp (all part List.mem_cons_self)
          obtain ⟨parts', there⟩ := Option.isSome_iff_exists.mp
            (rest fun part inside => all part (List.mem_cons_of_mem _ inside))
          rw [graftAll, here, there]
          rfl
  | bind label xs body ih =>
      rw [graft, Option.isSome_map]
      exact ih some_

/-- A graft that puts in more gives no other result. -/
theorem graft_mono (more : ∀ place x u, on place x = some u → on' place x = some u)
    (grafted : graft on scope t = some r) : graft on' scope t = some r := by
  induction t generalizing scope r with
  | ref x =>
      rw [graft] at grafted ⊢
      split_ifs at grafted ⊢ with bound
      · exact grafted
      · exact more _ _ _ grafted
  | node label parts ih =>
      obtain ⟨parts', all, rfl⟩ := Option.map_eq_some_iff.mp grafted
      have pairs := (List.forall₂_and_left _ _).mpr
        ⟨fun part inside => @ih part inside scope, graftAll_eq_some.mp all⟩
      rw [graft, graftAll_eq_some.mpr (pairs.imp fun _ _ both => both.1 both.2)]
      rfl
  | bind label xs body ih =>
      obtain ⟨body', inner, rfl⟩ := Option.map_eq_some_iff.mp grafted
      rw [graft, ih inner]
      rfl

/-- A graft that puts in each name itself changes nothing. -/
theorem graft_self (self : ∀ o ∈ occs scope t, on o.2 o.1 = some (.ref o.1)) :
    graft on scope t = some t := by
  induction t generalizing scope with
  | ref x =>
      rw [graft]
      split_ifs with bound
      · rfl
      · exact self (x, scope) (by rw [occs, if_neg bound]; exact List.mem_singleton_self _)
  | node label parts ih =>
      rw [graft, graftAll_eq_some.mpr, Option.map_some]
      exact List.forall₂_same.mpr fun part inside => ih part inside fun o member =>
        self o (by rw [occs, mem_occsAll]; exact ⟨part, inside, member⟩)
  | bind label xs body ih =>
      rw [graft, ih self]
      rfl

theorem graft_on_isSome (grafted : graft on scope t = some r) :
    ∀ o ∈ occs scope t, ∃ u, on o.2 o.1 = some u := by
  induction t generalizing scope r with
  | ref x =>
      intro o member
      rw [graft] at grafted
      rw [occs] at member
      split_ifs at grafted member with bound
      · cases member
      · obtain rfl := List.mem_singleton.mp member
        exact ⟨r, grafted⟩
  | node label parts ih =>
      intro o member
      obtain ⟨parts', all, -⟩ := Option.map_eq_some_iff.mp grafted
      rw [occs, mem_occsAll] at member
      obtain ⟨part, inside, member⟩ := member
      obtain ⟨i, at_, rfl⟩ := List.mem_iff_getElem.mp inside
      have pairs := graftAll_eq_some.mp all
      exact ih _ inside (pairs.get at_ (pairs.length_eq ▸ at_)) o member
  | bind label xs body ih =>
      obtain ⟨body', inner, -⟩ := Option.map_eq_some_iff.mp grafted
      exact ih inner

/-- The free names of a graft are those of what has been put in. -/
theorem mem_free_graft (grafted : graft on scope t = some r) {x : ν} (member : x ∈ free scope r) :
    ∃ o ∈ occs scope t, ∃ u, on o.2 o.1 = some u ∧ x ∈ free o.2 u := by
  induction t generalizing scope r with
  | ref y =>
      rw [graft] at grafted
      split_ifs at grafted with bound
      · obtain rfl := Option.some.inj grafted
        rw [free, occs, if_pos bound] at member
        cases member
      · refine ⟨(y, scope), ?_, r, grafted, member⟩
        rw [occs, if_neg bound]
        exact List.mem_singleton_self _
  | node label parts ih =>
      obtain ⟨parts', all, rfl⟩ := Option.map_eq_some_iff.mp grafted
      obtain ⟨place, member⟩ := mem_free.mp member
      rw [occs, mem_occsAll] at member
      obtain ⟨part', inside', member⟩ := member
      obtain ⟨i, at_, is⟩ := List.mem_iff_getElem.mp inside'
      have pairs := graftAll_eq_some.mp all
      have at' : i < parts.length := by rw [pairs.length_eq]; exact at_
      have here := pairs.get at' at_
      have inside : parts[i] ∈ parts := List.getElem_mem at'
      rw [List.get_eq_getElem, List.get_eq_getElem, is] at here
      obtain ⟨o, found, u, put, free_⟩ := ih parts[i] inside here (mem_free.mpr ⟨place, member⟩)
      exact ⟨o, by rw [occs, mem_occsAll]; exact ⟨parts[i], inside, found⟩, u, put, free_⟩
  | bind label xs body ih =>
      obtain ⟨body', inner, rfl⟩ := Option.map_eq_some_iff.mp grafted
      exact ih inner member

end Graft

end Scoped

/-- A term without the names of its binders: a bound reference says how many names in scope are nearer. -/
inductive Nameless (ν L : Type) where
  | free (x : ν)
  | bound (i : Nat)
  | node (label : L) (parts : List (Nameless ν L))
  | bind (label : L) (n : Nat) (body : Nameless ν L)

/-- Put a closed term in the place of each free name. -/
def Nameless.subst {ν L : Type} (R : ν → Nameless ν L) : Nameless ν L → Nameless ν L
  | .free x => R x
  | .bound i => .bound i
  | .node label parts => .node label (parts.map (subst R))
  | .bind label n body => .bind label n (subst R body)

/-- The free names of a nameless term, in order. -/
def Nameless.names {ν L : Type} : Nameless ν L → List ν
  | .free x => [x]
  | .bound _ => []
  | .node _ parts => parts.flatMap names
  | .bind _ _ body => names body

namespace Scoped

variable {ν L : Type} [DecidableEq ν]

/-- A term in scope of some names, without the names of its binders. -/
def nameless (scope : List ν) : Scoped ν L → Nameless ν L
  | .ref x => if x ∈ scope then .bound (scope.idxOf x) else .free x
  | .node label parts => .node label (parts.map (nameless scope))
  | .bind label xs body => .bind label xs.length (nameless (xs ++ scope) body)

theorem nameless_ref {scope : List ν} {x : ν} (apart : x ∉ scope) :
    nameless scope (.ref x : Scoped ν L) = .free x := by
  rw [nameless, if_neg apart]

theorem names_nameless (scope : List ν) (t : Scoped ν L) : (nameless scope t).names = free scope t := by
  induction t generalizing scope with
  | ref x =>
      rw [nameless, free, occs]
      split_ifs <;> simp [Nameless.names]
  | node label parts ih =>
      rw [nameless, Nameless.names, free, occs]
      induction parts with
      | nil => rfl
      | cons part parts rest =>
          have here := ih part List.mem_cons_self scope
          have there := rest fun part inside => ih part (List.mem_cons_of_mem _ inside)
          rw [List.map_cons, List.flatMap_cons, here, there, occsAll, List.map_append, free]
  | bind label xs body ih =>
      rw [nameless, Nameless.names, ih, free, free, occs]

theorem names_rename (f : ν → ν) (scope : List ν) (t : Scoped ν L) :
    ((nameless scope t).subst fun x => .free (f x)).names = (free scope t).map f := by
  induction t generalizing scope with
  | ref x =>
      rw [nameless, free, occs]
      split_ifs <;> simp [Nameless.names, Nameless.subst]
  | node label parts ih =>
      rw [nameless, Nameless.subst, Nameless.names, free, occs]
      induction parts with
      | nil => rfl
      | cons part parts rest =>
          have here := ih part List.mem_cons_self scope
          have there := rest fun part inside => ih part (List.mem_cons_of_mem _ inside)
          rw [List.map_cons, List.map_cons, List.flatMap_cons, here, there, occsAll, List.map_append,
            List.map_append, free]
  | bind label xs body ih =>
      rw [nameless, Nameless.subst, Nameless.names, ih, free, free, occs]

/-- A substitution puts no bound reference in the place of a name. -/
def Closed (R : ν → Nameless ν L) : Prop := ∀ x i, R x ≠ .bound i

/-- A term that stands in `scope` has been grafted, its own binders in `inner` included.  The result is
that of the substitution on the nameless term exactly when no free name of the term is bound by what it
stands in, and what has been put in is what the substitution puts in. -/
theorem graft_nameless_iff {on : List ν → ν → Option (Scoped ν L)} {R : ν → Nameless ν L}
    (closed : Closed R) {scope : List ν} (inner : List ν) {t r : Scoped ν L}
    (grafted : graft on (inner ++ scope) t = some r) :
    nameless (inner ++ scope) r = (nameless inner t).subst R ↔
      ∀ o ∈ occs inner t, o.1 ∉ scope ∧
        ∀ u, on (o.2 ++ scope) o.1 = some u → nameless (o.2 ++ scope) u = R o.1 := by
  induction t generalizing inner r with
  | ref x =>
      rw [graft] at grafted
      rw [nameless, occs]
      by_cases own : x ∈ inner
      · rw [if_pos (List.mem_append_left _ own)] at grafted
        obtain rfl := Option.some.inj grafted
        rw [if_pos own, if_pos own, nameless, if_pos (List.mem_append_left _ own),
          List.idxOf_append_of_mem own, Nameless.subst]
        exact iff_of_true rfl nofun
      · rw [if_neg own, if_neg own]
        simp only [List.mem_singleton, forall_eq, Nameless.subst]
        by_cases bound : x ∈ scope
        · rw [if_pos (List.mem_append_right _ bound)] at grafted
          obtain rfl := Option.some.inj grafted
          rw [nameless, if_pos (List.mem_append_right _ bound)]
          exact iff_of_false (fun same => closed x _ same.symm) fun both => both.1 bound
        · have apart : x ∉ inner ++ scope := fun member => (List.mem_append.mp member).elim own bound
          rw [if_neg apart] at grafted
          rw [grafted]
          simp only [Option.some.injEq, forall_eq']
          exact (and_iff_right bound).symm
  | node label parts ih =>
      obtain ⟨parts', all, rfl⟩ := Option.map_eq_some_iff.mp grafted
      rw [nameless, nameless, Nameless.subst, Nameless.node.injEq, List.map_map]
      have pairs := graftAll_eq_some.mp all
      rw [and_iff_right rfl, occs]
      clear grafted all
      induction pairs with
      | nil => exact iff_of_true rfl nofun
      | @cons part part' parts parts' here _ rest =>
          have first := ih part List.mem_cons_self inner here
          have others := rest fun part inside => ih part (List.mem_cons_of_mem _ inside)
          rw [List.map_cons, List.map_cons, List.cons.injEq, occsAll, List.forall_mem_append]
          exact and_congr first others
  | bind label xs body ih =>
      obtain ⟨body', inner', rfl⟩ := Option.map_eq_some_iff.mp grafted
      rw [nameless, nameless, Nameless.subst, occs, Nameless.bind.injEq, and_iff_right rfl,
        and_iff_right rfl, ← List.append_assoc]
      rw [← List.append_assoc] at inner'
      exact ih _ inner'

/-! ### Chained grafts -/

/-- What is put in the place of a name: a name that is being replaced already stays. -/
def link (σ : ν → Option (Scoped ν L)) (busy : Finset ν)
    (onward : List ν → Scoped ν L → Option (Scoped ν L)) (place : List ν) (x : ν) :
    Option (Scoped ν L) :=
  if x ∈ busy then some (.ref x) else (σ x).elim (some (.ref x)) (onward place)

/-- Replace free names, and go on in what has been put in, until the fuel is spent. -/
def chain (σ : ν → Option (Scoped ν L)) :
    Nat → Finset ν → List ν → Scoped ν L → Option (Scoped ν L)
  | 0, busy => graft fun place x => link σ busy (fun _ _ => none) place x
  | fuel + 1, busy => graft fun place x => link σ busy (chain σ fuel (insert x busy)) place x

section Chain

variable {σ : ν → Option (Scoped ν L)} {fuel : Nat} {busy : Finset ν} {scope : List ν}
  {t r : Scoped ν L} {onward : List ν → Scoped ν L → Option (Scoped ν L)} {place : List ν} {x : ν}

theorem link_busy (active : x ∈ busy) : link σ busy onward place x = some (.ref x) := if_pos active

theorem link_unmapped (unmapped : σ x = none) : link σ busy onward place x = some (.ref x) := by
  rw [link, unmapped]
  exact ite_self _

theorem link_mapped (idle : x ∉ busy) (mapped : σ x = some t) :
    link σ busy onward place x = onward place t := by
  rw [link, if_neg idle, mapped]
  rfl

/-- A chained graft is a graft that goes on with less fuel. -/
theorem chain_graft (σ : ν → Option (Scoped ν L)) (fuel : Nat) (busy : Finset ν) :
    ∃ onward : ν → List ν → Scoped ν L → Option (Scoped ν L),
      (chain σ fuel busy = graft fun place x => link σ busy (onward x) place x) ∧
      ∀ x place u v, onward x place u = some v →
        ∃ fuel' < fuel, chain σ fuel' (insert x busy) place u = some v := by
  cases fuel with
  | zero => exact ⟨fun _ _ _ => none, rfl, fun _ _ _ _ none_ => nomatch none_⟩
  | succ fuel =>
      exact ⟨fun x => chain σ fuel (insert x busy), rfl,
        fun _ _ _ _ some_ => ⟨fuel, Nat.lt_succ_self fuel, some_⟩⟩

/-- A chained graft comes to an end, cyclic or not: only finitely often is there a name to go on with. -/
theorem chain_isSome {keys : Finset ν} (all : ∀ x, (σ x).isSome → x ∈ keys)
    (enough : (keys \ busy).card ≤ fuel) : (chain σ fuel busy scope t).isSome := by
  induction fuel generalizing busy scope t with
  | zero =>
      refine graft_isSome fun o _ => ?_
      by_cases active : o.1 ∈ busy
      · rw [link_busy active]
        rfl
      · cases mapped : σ o.1 with
        | none =>
            rw [link_unmapped mapped]
            rfl
        | some u =>
            have inside : o.1 ∈ keys \ busy :=
              Finset.mem_sdiff.mpr ⟨all o.1 (by rw [mapped]; rfl), active⟩
            rw [Finset.card_eq_zero.mp (Nat.le_zero.mp enough)] at inside
            exact absurd inside (Finset.notMem_empty _)
  | succ fuel ih =>
      refine graft_isSome fun o _ => ?_
      by_cases active : o.1 ∈ busy
      · rw [link_busy active]
        rfl
      · cases mapped : σ o.1 with
        | none =>
            rw [link_unmapped mapped]
            rfl
        | some u =>
            rw [link_mapped active mapped]
            refine ih ?_
            have inside : o.1 ∈ keys \ busy :=
              Finset.mem_sdiff.mpr ⟨all o.1 (by rw [mapped]; rfl), active⟩
            rw [Finset.sdiff_insert, Finset.card_erase_of_mem inside]
            omega

/-- More fuel gives no other result. -/
theorem chain_mono (chained : chain σ fuel busy scope t = some r) :
    chain σ (fuel + 1) busy scope t = some r := by
  induction fuel generalizing busy scope t r with
  | zero =>
      refine graft_mono (fun place x u put => ?_) chained
      by_cases active : x ∈ busy
      · rw [link_busy active] at put ⊢
        exact put
      · cases mapped : σ x with
        | none =>
            rw [link_unmapped mapped] at put ⊢
            exact put
        | some t =>
            rw [link_mapped active mapped] at put
            cases put
  | succ fuel ih =>
      refine graft_mono (fun place x u put => ?_) chained
      by_cases active : x ∈ busy
      · rw [link_busy active] at put ⊢
        exact put
      · cases mapped : σ x with
        | none =>
            rw [link_unmapped mapped] at put ⊢
            exact put
        | some t =>
            rw [link_mapped active mapped] at put ⊢
            exact ih put

/-- Where no free name is mapped, nothing changes. -/
theorem chain_idem (unmapped : ∀ x ∈ free scope t, σ x = none) :
    chain σ fuel busy scope t = some t := by
  cases fuel <;>
    exact graft_self fun o member => link_unmapped (unmapped o.1 (List.mem_map_of_mem member))

/-! ### Acyclic chains -/

/-- A name is free in what another one is mapped to. -/
def Uses (σ : ν → Option (Scoped ν L)) (x y : ν) : Prop := ∃ t, σ x = some t ∧ y ∈ free [] t

def Acyclic (σ : ν → Option (Scoped ν L)) : Prop := ∀ x, ¬Relation.TransGen (Uses σ) x x

/-- The names that are being replaced lead to the free names of the term. -/
def LeadsTo (σ : ν → Option (Scoped ν L)) (busy : Finset ν) (scope : List ν) (t : Scoped ν L) : Prop :=
  ∀ b ∈ busy, ∀ y ∈ free scope t, Relation.TransGen (Uses σ) b y

theorem leadsTo_empty : LeadsTo σ ∅ scope t := fun b member => absurd member (Finset.notMem_empty b)

/-- In an acyclic chain no name is met while it is being replaced. -/
theorem LeadsTo.idle (acyclic : Acyclic σ) (leads : LeadsTo σ busy scope t) {o : ν × List ν}
    (member : o ∈ occs scope t) : o.1 ∉ busy := fun active =>
  acyclic o.1 (leads o.1 active o.1 (List.mem_map_of_mem member))

theorem LeadsTo.next (leads : LeadsTo σ busy scope t) {o : ν × List ν} (member : o ∈ occs scope t)
    {u : Scoped ν L} (mapped : σ o.1 = some u) : LeadsTo σ (insert o.1 busy) o.2 u := by
  intro b active y met
  have uses : Uses σ o.1 y := ⟨u, mapped, free_anti (List.nil_subset _) met⟩
  rcases Finset.mem_insert.mp active with rfl | before
  · exact .single uses
  · exact (leads b before o.1 (List.mem_map_of_mem member)).tail uses

/-- After an acyclic chain no free name is mapped. -/
theorem chain_refs (acyclic : Acyclic σ) (leads : LeadsTo σ busy scope t)
    (chained : chain σ fuel busy scope t = some r) : ∀ x ∈ free scope r, σ x = none := by
  induction fuel using Nat.strong_induction_on generalizing busy scope t r with
  | _ fuel ih =>
      intro x member
      obtain ⟨onward, is, less⟩ := chain_graft σ fuel busy
      rw [is] at chained
      obtain ⟨o, found, u, put, met⟩ := mem_free_graft chained member
      cases mapped : σ o.1 with
      | none =>
          rw [link_unmapped mapped] at put
          obtain rfl := Option.some.inj put
          obtain ⟨place, met⟩ := mem_free.mp met
          rw [occs, if_neg (occs_scope found).1, List.mem_singleton] at met
          rw [(Prod.mk.inj met).1, mapped]
      | some t =>
          rw [link_mapped (leads.idle acyclic found) mapped] at put
          obtain ⟨fuel', lt, put⟩ := less _ _ _ _ put
          exact ih fuel' lt (leads.next found mapped) put x met

/-- No free name of a term is bound by what the term stands in, and neither is one of the terms that are
put in its place in turn. -/
inductive Hygienic (σ : ν → Option (Scoped ν L)) : List ν → Scoped ν L → Prop where
  | mk {scope : List ν} {t : Scoped ν L} (fresh : ∀ o ∈ occs [] t, o.1 ∉ scope)
      (onward : ∀ o ∈ occs [] t, ∀ u, σ o.1 = some u → Hygienic σ (o.2 ++ scope) u) :
      Hygienic σ scope t

theorem hygienic_iff : Hygienic σ scope t ↔ ∀ o ∈ occs [] t, o.1 ∉ scope ∧
    ∀ u, σ o.1 = some u → Hygienic σ (o.2 ++ scope) u :=
  ⟨fun ⟨fresh, onward⟩ o member => ⟨fresh o member, onward o member⟩,
    fun all => ⟨fun o member => (all o member).1, fun o member => (all o member).2⟩⟩

/-- A substitution that carries the chains out: each mapped name has what it is mapped to, with the
substitution in it, and every other name itself. -/
def Resolves (σ : ν → Option (Scoped ν L)) (R : ν → Nameless ν L) : Prop :=
  ∀ x, R x = (σ x).elim (.free x) fun t => (nameless [] t).subst R

variable {R : ν → Nameless ν L}

/-- An acyclic chain agrees with the substitution exactly when nothing is captured. -/
theorem chain_nameless_iff (closed : Closed R) (resolves : Resolves σ R)
    (acyclic : Acyclic σ) (leads : LeadsTo σ busy scope t) (chained : chain σ fuel busy scope t = some r) :
    nameless scope r = (nameless [] t).subst R ↔ Hygienic σ scope t := by
  induction fuel using Nat.strong_induction_on generalizing busy scope t r with
  | _ fuel ih =>
      obtain ⟨onward, is, less⟩ := chain_graft σ fuel busy
      rw [is] at chained
      refine (graft_nameless_iff closed [] chained).trans (Iff.trans ?_ hygienic_iff.symm)
      refine forall₂_congr fun o member => and_congr_right fun apart => ?_
      have place : (o.1, o.2 ++ scope) ∈ occs scope t := occs_weaken member apart
      obtain ⟨u, put⟩ := graft_on_isSome chained _ place
      cases mapped : σ o.1 with
      | none =>
          rw [link_unmapped mapped, resolves o.1, mapped]
          simp only [Option.some.injEq, forall_eq']
          exact iff_of_true (nameless_ref (occs_scope place).1) nofun
      | some t =>
          rw [link_mapped (leads.idle acyclic place) mapped] at put ⊢
          rw [put, resolves o.1, mapped]
          simp only [Option.some.injEq, forall_eq']
          obtain ⟨fuel', lt, put⟩ := less _ _ _ _ put
          exact ih fuel' lt (leads.next place mapped) put

/-- With finitely many names mapped, an acyclic chain can be followed to its end. -/
theorem Acyclic.wellFounded {keys : Finset ν} (all : ∀ x, (σ x).isSome → x ∈ keys)
    (acyclic : Acyclic σ) : WellFounded fun y x => Uses σ x y := by
  let below : keys → keys → Prop := fun y x => Relation.TransGen (Uses σ) x y
  have : IsTrans keys below := ⟨fun _ _ _ first second => second.trans first⟩
  have : Std.Irrefl below := ⟨fun x => acyclic x⟩
  have ends : WellFounded below := Finite.wellFounded_of_trans_of_irrefl below
  have mapped : ∀ x : keys, Acc (fun y x => Uses σ x y) x.1 := by
    intro x
    induction x using ends.induction with
    | h x ih =>
        refine ⟨_, fun y uses => ?_⟩
        by_cases inside : y ∈ keys
        · exact ih ⟨y, inside⟩ (.single uses)
        · refine ⟨_, fun z uses' => ?_⟩
          obtain ⟨t, is, -⟩ := uses'
          exact absurd (all y (by rw [is]; rfl)) inside
  refine ⟨fun x => ⟨_, fun y uses => ?_⟩⟩
  by_cases inside : y ∈ keys
  · exact mapped ⟨y, inside⟩
  · refine ⟨_, fun z uses' => ?_⟩
    obtain ⟨t, is, -⟩ := uses'
    exact absurd (all y (by rw [is]; rfl)) inside

/-- Where two substitutions agree on the free names, they agree. -/
theorem subst_congr {R' : ν → Nameless ν L} {t : Scoped ν L} {inner : List ν}
    (same : ∀ x ∈ free inner t, R x = R' x) :
    (nameless inner t).subst R = (nameless inner t).subst R' := by
  induction t generalizing inner with
  | ref x =>
      rw [nameless]
      split_ifs with own
      · rw [Nameless.subst, Nameless.subst]
      · rw [Nameless.subst, Nameless.subst]
        refine same x ?_
        rw [free, occs, if_neg own]
        exact List.mem_singleton_self _
  | node label parts ih =>
      rw [nameless, Nameless.subst, Nameless.subst, List.map_map, List.map_map]
      refine congrArg _ (List.map_congr_left fun part inside => ih part inside fun x member => ?_)
      obtain ⟨place, member⟩ := mem_free.mp member
      exact same x (mem_free.mpr ⟨place, by rw [occs, mem_occsAll]; exact ⟨part, inside, member⟩⟩)
  | bind label xs body ih =>
      rw [nameless, Nameless.subst, Nameless.subst, ih same]

open Classical in
/-- The substitution that carries acyclic chains out. -/
noncomputable def resolve (ends : WellFounded fun y x => Uses σ x y) : ν → Nameless ν L :=
  ends.fix fun x below => (σ x).elim (.free x) fun t =>
    (nameless [] t).subst fun y => if uses : Uses σ x y then below y uses else .free y

theorem resolves_resolve (ends : WellFounded fun y x => Uses σ x y) : Resolves σ (resolve ends) := by
  intro x
  rw [resolve, ends.fix_eq]
  cases mapped : σ x with
  | none => rfl
  | some t => exact subst_congr fun y member => dif_pos ⟨t, mapped, member⟩

theorem Resolves.closed (ends : WellFounded fun y x => Uses σ x y) (resolves : Resolves σ R) : Closed R := by
  intro x
  induction x using ends.induction with
  | h x ih =>
      intro i
      rw [resolves x]
      cases mapped : σ x with
      | none => exact nofun
      | some t =>
          cases t with
          | ref y =>
              have uses : Uses σ x y := ⟨.ref y, mapped, List.mem_singleton_self _⟩
              rw [Option.elim_some, nameless_ref List.not_mem_nil, Nameless.subst]
              exact ih y uses i
          | node label parts =>
              rw [Option.elim_some, nameless, Nameless.subst]
              exact nofun
          | bind label xs body =>
              rw [Option.elim_some, nameless, Nameless.subst]
              exact nofun

end Chain

end Scoped

end Mimi.Lib
