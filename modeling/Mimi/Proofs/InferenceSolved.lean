/-
Module: Mimi.Proofs.InferenceSolved
Purpose: The abstract meaning of an inference table.  Types are read as first-order terms and a table
  as a solved form: a substitution that each variable shares with its root and that satisfies every
  binding.  Finding a root and resolving a type keep the solved form, and resolution applies it.
Trusted boundary: none
-/
import Mimi.Lib.FirstOrder
import Mimi.Proofs.InferenceAtomicity

namespace Mimi.Core

open Mimi.Lib Ty

/-! ### Types as terms -/

/-- The symbols of type terms.  `Option` and `Result` have the symbol of their nominal spelling; a
quantified type is a constant, since its body is not open to inference. -/
inductive Head where
  | name (n : String)
  | ref | refMut | tuple | func | externFunc | cBuffer
  | cap (n : String)
  | capAtom (n : String)
  | shared | weak
  | newtype (n : String)
  | array (len : Nat)
  | slice
  | implTrait (traits : List String)
  | dynTrait (traits : List String)
  | rawPtr | rawPtrMut | nothing | infer
  | forAll (params : List String) (body : Ty)
  | tyErr

/-- Terms for types. -/
abbrev TypeTerm := Term Head Nat

mutual

/-- A type up to source annotations, lifetimes and the two spellings of `Option` and `Result`. -/
def Ty.term : Ty → TypeTerm
  | located ty => ty.term
  | typeVar v => .var v
  | name n args => .app (.name n) (terms args)
  | option a => .app (.name "Option") [a.term]
  | result a b => .app (.name "Result") [a.term, b.term]
  | ref _ a => .app .ref [a.term]
  | refMut _ a => .app .refMut [a.term]
  | tuple as => .app .tuple (terms as)
  | func as r => .app .func (terms as ++ [r.term])
  | externFunc as r => .app .externFunc (terms as ++ [r.term])
  | cBuffer a => .app .cBuffer [a.term]
  | cap n => .app (.cap n) []
  | capAtom n => .app (.capAtom n) []
  | shared a => .app .shared [a.term]
  | weak a => .app .weak [a.term]
  | newtype n a => .app (.newtype n) [a.term]
  | array a len => .app (.array len) [a.term]
  | slice a => .app .slice [a.term]
  | implTrait traits => .app (.implTrait traits) []
  | dynTrait traits => .app (.dynTrait traits) []
  | rawPtr a => .app .rawPtr [a.term]
  | rawPtrMut a => .app .rawPtrMut [a.term]
  | nothing => .app .nothing []
  | infer => .app .infer []
  | forAll params body => .app (.forAll params body) []
  | tyErr => .app .tyErr []

def Ty.terms : List Ty → List TypeTerm
  | [] => []
  | ty :: tys => ty.term :: terms tys

end

attribute [local simp] Ty.term Ty.terms Ty.unlocated Table.walk

theorem Ty.terms_eq_map (tys : List Ty) : Ty.terms tys = tys.map Ty.term := by
  induction tys with
  | nil => rfl
  | cons ty tys ih => simp [Ty.terms, ih]

theorem Ty.term_unlocated (ty : Ty) : ty.unlocated.term = ty.term := by
  induction ty using Ty.unlocated.induct with
  | case1 ty ih => simpa [Ty.unlocated, Ty.term] using ih
  | case2 ty h => rw [Ty.unlocated]; exact fun inner eq => h inner eq

theorem Ty.term_withMeta (ty : Ty) : ty.withMeta.term = ty.term := by
  cases ty <;> rfl

/-- The symbol of a node. -/
def Ty.symbol : Ty → Head
  | name n _ => .name n
  | option _ => .name "Option"
  | result _ _ => .name "Result"
  | ref _ _ => .ref
  | refMut _ _ => .refMut
  | tuple _ => .tuple
  | func _ _ => .func
  | externFunc _ _ => .externFunc
  | cBuffer _ => .cBuffer
  | cap n => .cap n
  | capAtom n => .capAtom n
  | shared _ => .shared
  | weak _ => .weak
  | newtype n _ => .newtype n
  | array _ len => .array len
  | slice _ => .slice
  | implTrait traits => .implTrait traits
  | dynTrait traits => .dynTrait traits
  | rawPtr _ => .rawPtr
  | rawPtrMut _ => .rawPtrMut
  | nothing => .nothing
  | infer => .infer
  | forAll params body => .forAll params body
  | tyErr | located _ | typeVar _ => .tyErr

/-- A node is its symbol applied to the terms of its parts. -/
theorem Ty.term_node {ty : Ty} (node : ty.isNode = true) :
    ty.term = .app ty.symbol (ty.parts.map Ty.term) := by
  cases ty <;> simp_all [Ty.isNode, Ty.term, Ty.parts, Ty.symbol, Ty.terms_eq_map]

theorem Ty.term_ne_var_of_node {ty : Ty} (node : ty.isNode = true) (w : Nat) :
    ty.term ≠ .var w := by
  simp [Ty.term_node node]

/-- Resolving the parts of a node resolves its term. -/
theorem Rebuilt.term_eq {τ : Nat → TypeTerm} {ty r : Ty} (node : ty.isNode = true)
    (h : Rebuilt (fun part part' => part'.term = part.term.subst τ) ty r) :
    r.term = ty.term.subst τ := by
  have list {as as' : List Ty}
      (h : List.Forall₂ (fun part part' => part'.term = part.term.subst τ) as as') :
      Ty.terms as' = (Ty.terms as).map (Term.subst τ) := by
    induction h with
    | nil => rfl
    | cons head _ ih => simp [Ty.terms, head, ih]
  cases h with
  | leaf h =>
      simp [Ty.term_node node, h]
  | tuple h | name h => simp [Ty.term, list h]
  | func hs h | externFunc hs h => simp [Ty.term, list hs, h]
  | result ha hb => simp [Ty.term, ha, hb]
  | _ h => simp [Ty.term, h]

/-! ### Solved tables -/

variable {r : Nat}

namespace Table

variable {parent : Nat → Option Nat} {v : Nat}

/-- A walk that ends is not changed by more fuel. -/
theorem walk_succ {fuel : Nat} (h : walk parent fuel v = some r) :
    walk parent (fuel + 1) v = some r := by
  induction fuel generalizing v with
  | zero => simp [walk] at h
  | succ fuel ih =>
      rw [walk] at h ⊢
      split_ifs at h ⊢ with root
      · exact h
      · exact ih h

theorem walk_le {low high : Nat} (le : low ≤ high)
    (h : walk parent low v = some r) : walk parent high v = some r := by
  induction le with
  | refl => exact h
  | step _ ih => exact walk_succ ih

theorem walk_unique {fuel fuel' r' : Nat}
    (h : walk parent fuel v = some r) (h' : walk parent fuel' v = some r') : r = r' := by
  have left := walk_le (Nat.le_max_left fuel fuel') h
  have right := walk_le (Nat.le_max_right fuel fuel') h'
  exact Option.some.inj (left.symm.trans right)

/-- A walk ends at a variable that is its own parent. -/
theorem parent_of_walk {fuel : Nat} (h : walk parent fuel v = some r) : (parent r).getD r = r := by
  induction fuel generalizing v with
  | zero => simp [walk] at h
  | succ fuel ih =>
      rw [walk] at h
      split_ifs at h with root
      · exact Option.some.inj h ▸ root
      · exact ih h

/-- Linking `v` to another root `p` leads the walks that ended at the root of `v` to `p`.  The
variable linked is a root itself, or `p` is its root already. -/
theorem walk_insertAt {p rv : Nat} (other : v ≠ p) (isRoot : (parent p).getD p = p) (target : rv = v ∨ rv = p)
    (from_ : ∃ fuel, walk parent fuel v = some rv) {fuel w : Nat} (h : walk parent fuel w = some r) :
    ∃ fuel', walk (insertAt parent v (some p)) fuel' w = some (if r = rv then p else r) := by
  have atRoot : walk (insertAt parent v (some p)) 1 p = some p := by
    simp [walk, insertAt, other.symm, isRoot]
  induction fuel generalizing w with
  | zero => simp [walk] at h
  | succ fuel ih =>
      by_cases same : w = v
      · subst same
        obtain ⟨fuel', hv⟩ := from_
        obtain rfl := walk_unique h hv
        refine ⟨2, ?_⟩
        rw [walk, if_pos rfl]
        simpa [insertAt, other.symm] using atRoot
      · have next : insertAt parent v (some p) w = parent w := by simp [insertAt, same]
        rw [walk] at h
        split_ifs at h with root
        · obtain rfl := Option.some.inj h
          refine ⟨1, ?_⟩
          have stays : (if w = rv then p else w) = w := by
            split_ifs with eq
            · rcases target with rfl | rfl
              · exact absurd eq same
              · exact eq.symm
            · rfl
          simp [walk, next, root, stays]
        · obtain ⟨fuel', hw⟩ := ih h
          exact ⟨fuel' + 1, by rw [walk, next, if_neg root]; exact hw⟩

@[simp] theorem record_toStore (s : Table) (entry : Undo) : (s.record entry).toStore = s.toStore := by
  unfold record
  split <;> rfl

@[simp] theorem setParent_parent (s : Table) (id parent : Nat) :
    (s.setParent id parent).parent = insertAt s.parent id (some parent) := by
  unfold setParent
  split
  · funext i
    by_cases h : i = id
    · subst h; simpa [insertAt]
    · simp [insertAt, h]
  · rfl

@[simp] theorem setParent_binding (s : Table) (id parent : Nat) :
    (s.setParent id parent).binding = s.binding := by
  unfold setParent
  split
  · rfl
  · simp

@[simp] theorem setBinding_parent (s : Table) (id : Nat) (ty : Ty) :
    (s.setBinding id ty).parent = s.parent := by
  unfold setBinding
  split
  · rfl
  · simp

/-- A binding is written, unless the same type is there already. -/
theorem setBinding_binding (s : Table) (id : Nat) (ty : Ty) :
    (s.setBinding id ty).binding = insertAt s.binding id (some ty) ∨
      (s.setBinding id ty).binding = s.binding ∧ s.binding id ≠ none := by
  unfold setBinding
  split
  · refine .inr ⟨rfl, fun unbound => ?_⟩
    simp [unbound] at *
  · exact .inl rfl

@[simp] theorem setParent_names (s : Table) (id parent : Nat) :
    (s.setParent id parent).linearTypeNames = s.linearTypeNames := by
  unfold setParent record
  split_ifs <;> rfl

@[simp] theorem setBinding_names (s : Table) (id : Nat) (ty : Ty) :
    (s.setBinding id ty).linearTypeNames = s.linearTypeNames := by
  unfold setBinding record
  split_ifs <;> rfl

/-- The table stands for the solved form `τ`: every variable has a root, whose image it shares; the
image of a bound root satisfies its binding, which is not a variable; an unbound root is free. -/
structure Solved (s : Table) (root : Nat → Nat) (τ : Nat → TypeTerm) : Prop where
  reaches : ∀ v, ∃ fuel, walk s.parent fuel v = some (root v)
  rootsOnly : ∀ v ty, s.binding v = some ty → root v = v
  follows : ∀ v, τ v = τ (root v)
  bound : ∀ v ty, s.binding v = some ty → τ v = ty.term.subst τ ∧ ∀ w, ty.term ≠ .var w
  unbound : ∀ v, root v = v → s.binding v = none → τ v = .var v

namespace Solved

variable {s : Table} {root : Nat → Nat} {τ : Nat → TypeTerm}

theorem root_isRoot (h : s.Solved root τ) (v : Nat) :
    (s.parent (root v)).getD (root v) = root v := by
  obtain ⟨fuel, walks⟩ := h.reaches v
  exact parent_of_walk walks

theorem root_root (h : s.Solved root τ) (v : Nat) : root (root v) = root v := by
  obtain ⟨fuel, walks⟩ := h.reaches (root v)
  have stays : walk s.parent 1 (root v) = some (root v) := by simp [walk, h.root_isRoot v]
  exact walk_unique walks stays

/-- A parent has the same root. -/
theorem root_parent (h : s.Solved root τ) (v : Nat) : root ((s.parent v).getD v) = root v := by
  obtain ⟨fuel, walks⟩ := h.reaches v
  cases fuel with
  | zero => simp [walk] at walks
  | succ fuel =>
      rw [walk] at walks
      split_ifs at walks with isRoot
      · rw [isRoot]
      · obtain ⟨fuel', walks'⟩ := h.reaches ((s.parent v).getD v)
        exact walk_unique walks' walks

/-- The image of every variable is solved: by induction on its size, since a binding is not a
variable and so the images in it are smaller. -/
theorem factors (h : s.Solved root τ) : Factors τ τ := by
  intro v
  generalize size : (τ v).size = n
  induction n using Nat.strong_induction_on generalizing v with
  | _ n ih =>
      rw [h.follows v] at size ⊢
      cases bound : s.binding (root v) with
      | none => simp [h.unbound _ (h.root_root v) bound]
      | some ty =>
          obtain ⟨image, compound⟩ := h.bound _ ty bound
          rw [image, Term.subst_subst]
          refine Term.subst_congr fun w hw => ?_
          have smaller : (τ w).size < n := by
            rw [← size, image]
            exact Term.size_lt_of_mem_vars hw compound
          exact ih _ smaller w rfl

/-- A variable whose image is a variable has an unbound root, and its image is that root. -/
theorem root_of_image_var (h : s.Solved root τ) {w : Nat} (image : τ v = .var w) :
    root v = w ∧ s.binding w = none := by
  rw [h.follows v] at image
  cases bound : s.binding (root v) with
  | none =>
      have free := h.unbound _ (h.root_root v) bound
      obtain rfl : root v = w := by simpa [free] using image
      exact ⟨rfl, bound⟩
  | some ty =>
      obtain ⟨value, compound⟩ := h.bound _ ty bound
      cases shape : ty.term with
      | var u => exact absurd shape (compound u)
      | app f args => simp [value, shape] at image

/-- The variables left by resolution are unbound roots. -/
theorem free_of_mem_vars (h : s.Solved root τ) {t : TypeTerm} (hv : v ∈ (t.subst τ).vars) : τ v = .var v := by
  obtain ⟨w, -, hw⟩ := Term.mem_vars_subst.mp hv
  exact h.factors.fixes hw

/-- The solved form is read off the links and the bindings alone. -/
theorem congr {s' : Table} (h : s.Solved root τ) (parent : s'.parent = s.parent)
    (binding : s'.binding = s.binding) : s'.Solved root τ :=
  ⟨by rw [parent]; exact h.reaches, by rw [binding]; exact h.rootsOnly, h.follows,
    by rw [binding]; exact h.bound, by rw [binding]; exact h.unbound⟩

/-- Path compression: the solved form does not change. -/
theorem compressed (h : s.Solved root τ) (below : v ≠ root v) :
    (s.setParent v (root v)).Solved root τ where
  reaches w := by
    obtain ⟨fuel, walks⟩ := h.reaches w
    obtain ⟨fuel', walks'⟩ :=
      walk_insertAt below (h.root_isRoot v) (.inr rfl) (h.reaches v) walks
    refine ⟨fuel', ?_⟩
    rw [setParent_parent, walks']
    split_ifs with eq
    · rw [eq]
    · rfl
  rootsOnly := by simpa using h.rootsOnly
  follows := h.follows
  bound := by simpa using h.bound
  unbound := by simpa using h.unbound

/-- Writing a binding that agrees with the solved form does not change it. -/
theorem setBinding (h : s.Solved root τ) {ty : Ty} (isRoot : root r = r)
    (image : τ r = ty.term.subst τ) (compound : ∀ w, ty.term ≠ .var w) :
    (s.setBinding r ty).Solved root τ := by
  rcases setBinding_binding s r ty with written | ⟨same, -⟩
  · refine ⟨by simpa using h.reaches, ?_, h.follows, ?_, ?_⟩
    · intro v ty' bound
      by_cases eq : v = r
      · exact eq ▸ isRoot
      · exact h.rootsOnly v ty' (by simpa [written, insertAt, eq] using bound)
    · intro v ty' bound
      by_cases eq : v = r
      · obtain rfl : ty = ty' := by simpa [written, insertAt, eq] using bound
        exact eq ▸ ⟨image, compound⟩
      · exact h.bound v ty' (by simpa [written, insertAt, eq] using bound)
    · intro v root free
      by_cases eq : v = r
      · simp [written, insertAt, eq] at free
      · exact h.unbound v root (by simpa [written, insertAt, eq] using free)
  · exact ⟨by simpa using h.reaches, by simpa [same] using h.rootsOnly, h.follows,
      by simpa [same] using h.bound, by simpa [same] using h.unbound⟩

end Solved

theorem compress_solved {root : Nat → Nat} {τ : Nat → TypeTerm} {r : Nat} :
    ∀ {fuel current : Nat} {s s' : Table}, s.Solved root τ → root current = r →
      compress r fuel current s = some s' → s'.Solved root τ
  | 0, _, _, _, _, _, h => by simp [compress] at h
  | fuel + 1, current, s, s', solved, rooted, h => by
      simp only [compress] at h
      split_ifs at h with done
      · exact Option.some.inj h ▸ solved
      · subst rooted
        exact compress_solved (solved.compressed done) (solved.root_parent current) h

/-- `find` answers the root and keeps the solved form. -/
theorem find_solved {ε : Type} {E : ε → Prop} (root : Nat → Nat) (τ : Nat → TypeTerm)
    (fuel id : Nat) :
    Run.Keeps (Solved · root τ) (find fuel id : Run Table ε Nat) (fun r => r = root id) E := by
  intro s solved r s' h
  simp only [find, Option.bind_eq_bind, Option.bind_eq_some_iff, Option.some.injEq,
    Prod.mk.injEq] at h
  obtain ⟨found, walks, s₁, compressed, rfl, rfl⟩ := h
  obtain ⟨fuel', walks'⟩ := solved.reaches id
  obtain rfl := walk_unique walks walks'
  exact ⟨compress_solved solved rfl compressed, by simp, by simp⟩

end Table

open Table

/-- What resolution reads of a binding. -/
theorem gets_binding_solved {ε : Type} {E : ε → Prop} (root : Nat → Nat) (τ : Nat → TypeTerm) (isRoot : root r = r) :
    Run.Keeps (Solved · root τ) (Run.gets (fun s : Table => s.binding r) : Run Table ε (Option Ty))
      (fun binding => match binding with
        | none => τ r = .var r
        | some ty => τ r = ty.term.subst τ ∧ ∀ w, ty.term ≠ .var w) E := by
  refine Run.keeps_gets fun s solved => ?_
  cases bound : s.binding r with
  | none => exact solved.unbound r isRoot bound
  | some ty => exact solved.bound r ty bound

/-- The images of the variables being resolved are larger than those of the variables to come. -/
def Descends (τ : Nat → TypeTerm) (resolving : List Nat) (ty : Ty) : Prop :=
  ∀ x ∈ resolving, ∀ v ∈ ty.term.vars, (τ v).size < (τ x).size

theorem Descends.part {τ : Nat → TypeTerm} {resolving : List Nat} {ty part : Ty}
    (h : Descends τ resolving ty) (node : ty.isNode = true) (member : part ∈ ty.parts) :
    Descends τ resolving part := by
  intro x hx v hv
  refine h x hx v ?_
  rw [Ty.term_node node, Term.mem_vars_app]
  exact ⟨part.term, List.mem_map_of_mem member, hv⟩

/-- Entering the binding of a variable descends further, so the variable is not being resolved. -/
theorem Descends.binding {τ : Nat → TypeTerm} {resolving : List Nat} {id : Nat} {bound : Ty}
    (h : Descends τ resolving (typeVar id)) (follows : τ id = τ r)
    (image : τ r = bound.term.subst τ) (compound : ∀ w, bound.term ≠ .var w) :
    r ∉ resolving ∧ Descends τ (r :: resolving) bound := by
  have below (v : Nat) (hv : v ∈ bound.term.vars) : (τ v).size < (τ r).size := by
    rw [image]
    exact Term.size_lt_of_mem_vars hv compound
  have above (x : Nat) (hx : x ∈ resolving) : (τ r).size < (τ x).size := by
    rw [← follows]
    exact h x hx id (by simp [Ty.term])
  refine ⟨fun cycle => absurd (above r cycle) (Nat.lt_irrefl _), fun x hx v hv => ?_⟩
  rcases List.mem_cons.mp hx with rfl | hx
  · exact below v hv
  · exact (below v hv).trans (above x hx)

/-- Resolution applies the solved form and keeps it, and its only error is the depth limit. -/
theorem resolveWithDepth_solved {root : Nat → Nat} {τ : Nat → TypeTerm} {fuel : Nat}
    (rooted : ∀ v, root (root v) = root v) (follows : ∀ v, τ v = τ (root v))
    (factors : Factors τ τ) (remaining : Nat) :
    ∀ (resolving : List Nat) (ty : Ty), Descends τ resolving ty →
      Run.Keeps (Solved · root τ) (resolveWithDepth fuel remaining resolving ty)
        (fun r => r.term = ty.term.subst τ) fun e => ∃ msg, e = .depthOverflow msg := by
  induction remaining with
  | zero => intro resolving ty _; exact Run.keeps_throw ⟨_, rfl⟩
  | succ next ih =>
      intro resolving ty descends
      rcases ty.node_cases with ⟨inner, rfl⟩ | ⟨id, rfl⟩ | node
      · refine Run.keeps_bind (ih resolving inner descends) fun r hr => Run.keeps_pure ?_
        rw [Ty.term_withMeta, hr]; rfl
      · refine Run.keeps_bind (find_solved root τ fuel id) fun r hr => ?_
        subst hr
        refine Run.keeps_bind (gets_binding_solved root τ (rooted id)) fun binding hb => ?_
        cases binding with
        | none =>
            refine Run.keeps_pure ?_
            simpa [Ty.term, follows id] using hb.symm
        | some bound =>
            obtain ⟨image, compound⟩ := hb
            obtain ⟨fresh, descends'⟩ := descends.binding (follows id) image compound
            dsimp only
            rw [if_neg fresh]
            refine Run.keeps_bind (ih _ bound descends') fun resolved hr => ?_
            have value : resolved.term = τ (root id) := by rw [hr, image]
            refine Run.keeps_bind (Run.keeps_modify fun s solved => ?_) fun _ _ =>
              Run.keeps_pure ?_
            · refine solved.setBinding (rooted id) ?_ ?_
              · rw [value]; exact factors (root id)
              · intro w eq
                rw [hr] at eq
                cases shape : bound.term with
                | var u => exact compound u shape
                | app f args => simp [shape] at eq
            · simp [Ty.term, value, follows id]
      · rw [resolveWithDepth_node node]
        exact (keeps_mapPartsM fun part member => ih resolving part (descends.part node member)).weaken
          fun r hr => hr.term_eq node

/-- Resolving a type in a solved table. -/
theorem resolveInfer_solved {s : Table} {root : Nat → Nat} {τ : Nat → TypeTerm}
    (solved : s.Solved root τ) (fuel : Nat) (ty : Ty) :
    Run.Keeps (Solved · root τ) (resolveInfer fuel ty)
      (fun r => r.term = ty.term.subst τ) fun e => ∃ msg, e = .depthOverflow msg :=
  resolveWithDepth_solved solved.root_root solved.follows solved.factors _ [] ty (by simp [Descends])

namespace Table.Solved

variable {s : Table} {root : Nat → Nat} {τ : Nat → TypeTerm}

/-- Uniting two unbound roots binds one to the other in the solved form. -/
theorem union (h : s.Solved root τ) {a b : Nat} (freeA : τ a = .var a) (freeB : τ b = .var b)
    (different : a ≠ b) :
    (s.setParent a b).Solved (fun v => if root v = a then b else root v)
      (bindVar τ a (.var b)) := by
  obtain ⟨rootA, unboundA⟩ := h.root_of_image_var freeA
  obtain ⟨rootB, unboundB⟩ := h.root_of_image_var freeB
  have image (v : Nat) : bindVar τ a (.var b) v = (τ v).subst (Function.update .var a (.var b)) :=
    rfl
  refine ⟨?_, ?_, ?_, ?_, ?_⟩
  · intro w
    obtain ⟨fuel, walks⟩ := h.reaches w
    obtain ⟨fuel', walks'⟩ := walk_insertAt different (by simpa [rootB] using h.root_isRoot b)
      (.inl rootA) (h.reaches a) walks
    rw [rootA] at walks'
    exact ⟨fuel', by rw [setParent_parent]; exact walks'⟩
  · intro v ty bound
    rw [setParent_binding] at bound
    have isRoot := h.rootsOnly v ty bound
    have other : v ≠ a := fun eq => by simp [eq, unboundA] at bound
    simp [isRoot, other]
  · intro v
    rw [image, image, h.follows v]
    split_ifs with atA
    · rw [atA, freeA, freeB]
      simp [different.symm]
    · rfl
  · intro v ty bound
    rw [setParent_binding] at bound
    obtain ⟨value, compound⟩ := h.bound v ty bound
    refine ⟨?_, compound⟩
    rw [image, value, Term.subst_subst]; rfl
  · intro v isRoot unbound
    rw [setParent_binding] at unbound
    split_ifs at isRoot with atA
    · exact absurd (atA.symm.trans (isRoot ▸ rootB)) different
    · have other : v ≠ a := fun eq => atA (by rw [isRoot, eq])
      simp [image, h.unbound v isRoot unbound, other]

/-- Binding an unbound root to a resolved type that is not a variable and in which it does not
occur. -/
theorem bind (h : s.Solved root τ) {ty : Ty} (free : τ r = .var r)
    (resolved : ty.term.subst τ = ty.term) (compound : ∀ w, ty.term ≠ .var w) (fresh : r ∉ ty.term.vars) :
    (s.setBinding r ty).Solved root (bindVar τ r ty.term) := by
  obtain ⟨isRoot, unbound⟩ := h.root_of_image_var free
  have written : (s.setBinding r ty).binding = insertAt s.binding r (some ty) := by
    rcases setBinding_binding s r ty with written | ⟨-, bound⟩
    · exact written
    · exact absurd unbound bound
  have image (v : Nat) :
      bindVar τ r ty.term v = (τ v).subst (Function.update .var r ty.term) := rfl
  have through (t : TypeTerm) :
      (t.subst τ).subst (Function.update .var r ty.term) = t.subst (bindVar τ r ty.term) := by
    rw [Term.subst_subst]; rfl
  refine ⟨by simpa using h.reaches, ?_, ?_, ?_, ?_⟩
  · intro v ty' bound
    by_cases eq : v = r
    · exact eq ▸ isRoot
    · exact h.rootsOnly v ty' (by simpa [written, insertAt, eq] using bound)
  · intro v
    rw [image, image, ← h.follows v]
  · intro v ty' bound
    by_cases eq : v = r
    · obtain rfl : ty = ty' := by simpa [written, insertAt, eq] using bound
      refine ⟨?_, compound⟩
      have value : bindVar τ r ty.term r = ty.term := by simp [image, free]
      rw [eq, value, ← through, resolved, Term.subst_eq_self]
      intro w hw
      have other : w ≠ r := fun same => fresh (same ▸ hw)
      simp [other]
    · obtain ⟨value, compound'⟩ :=
        h.bound v ty' (by simpa [written, insertAt, eq] using bound)
      exact ⟨by rw [image, value, through], compound'⟩
  · intro v isRoot' unbound'
    by_cases eq : v = r
    · simp [written, insertAt, eq] at unbound'
    · have freeV := h.unbound v isRoot' (by simpa [written, insertAt, eq] using unbound')
      simp [image, freeV, eq]

end Table.Solved

/-- The fresh table stands for the identity. -/
theorem solved_new : Table.new.Solved id .var where
  reaches v := ⟨1, by simp [walk, Table.new]⟩
  rootsOnly v ty bound := by simp [Table.new] at bound
  follows _ := rfl
  bound v ty bound := by simp [Table.new] at bound
  unbound _ _ _ := rfl

end Mimi.Core
