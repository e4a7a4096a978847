/-
Module: Mimi.Proofs.NarrowChecks
Purpose: What the checks of task boundaries let pass.  They see a reference only under options and shared pointers, and
  a name only at the positions that their walk gets to; where every free name stands at such a position and no type
  hides a reference, nothing narrow crosses, and elsewhere something does for some choice of what is lent.
Trusted boundary: none
-/
import Mimi.Checker.Narrow

namespace Mimi.Checker

open Mimi.Ast
open Mimi.Core (Span Diagnostic)

/-! ### Narrow values -/

mutual

/-- A value of the type holds a reference, directly or in a wrapper. A function value holds none. -/
def containsRef : Ty → Bool
  | .located _ ty => containsRef ty
  | .ref _ _ | .refMut _ _ | .slice _ => true
  | .name _ args => anyContainsRef args
  | .tuple elems => anyContainsRef elems
  | .option inner | .cBuffer inner | .shared inner | .weak inner | .newtype _ inner | .array inner _
  | .rawPtr inner | .rawPtrMut inner | .forAll _ inner => containsRef inner
  | .result ok err => containsRef ok || containsRef err
  | .func _ _ | .externFunc _ _ | .cap _ | .capAtom _ | .implTrait _ | .dynTrait _ | .nothing | .infer
  | .typeVar _ | .tyErr => false

def anyContainsRef : List Ty → Bool
  | [] => false
  | ty :: tys => containsRef ty || anyContainsRef tys

end

/-- The references that the checks see in a type. -/
inductive SeenRef : Ty → Prop where
  | located {info : AstNodeMeta} {ty : Ty} (inner : SeenRef ty) : SeenRef (.located info ty)
  | ref {lifetime : Option String} {ty : Ty} : SeenRef (.ref lifetime ty)
  | refMut {lifetime : Option String} {ty : Ty} : SeenRef (.refMut lifetime ty)
  | slice {ty : Ty} : SeenRef (.slice ty)
  | option {ty : Ty} (inner : SeenRef ty) : SeenRef (.option ty)
  | shared {ty : Ty} (inner : SeenRef ty) : SeenRef (.shared ty)
  | weak {ty : Ty} (inner : SeenRef ty) : SeenRef (.weak ty)

/-- No reference in the type is hidden from the checks: it stands under options and shared pointers only. -/
def refsSeen : Ty → Bool
  | .located _ ty | .option ty | .shared ty | .weak ty => refsSeen ty
  | .ref _ _ | .refMut _ _ | .slice _ => true
  | ty => !containsRef ty

/-- A type hides no reference just if the checks see the ones that it has. -/
theorem refsSeen_iff {ty : Ty} : refsSeen ty = true ↔ (containsRef ty = true → SeenRef ty) := by
  fun_induction refsSeen ty with
  | case1 info ty ih => exact ih.trans ⟨fun h holds => .located (h holds), fun h holds => by cases h holds; assumption⟩
  | case2 ty ih => exact ih.trans ⟨fun h holds => .option (h holds), fun h holds => by cases h holds; assumption⟩
  | case3 ty ih => exact ih.trans ⟨fun h holds => .shared (h holds), fun h holds => by cases h holds; assumption⟩
  | case4 ty ih => exact ih.trans ⟨fun h holds => .weak (h holds), fun h holds => by cases h holds; assumption⟩
  | case5 => exact iff_of_true rfl fun _ => .ref
  | case6 => exact iff_of_true rfl fun _ => .refMut
  | case7 => exact iff_of_true rfl fun _ => .slice
  | case8 ty =>
      rw [Bool.not_eq_true', ← Bool.not_eq_true]
      refine ⟨fun none_ holds => absurd holds none_, fun h holds => ?_⟩
      cases h holds <;> simp_all

/-- The checks take a type for a reference where they see one in it. -/
theorem kind_of_type_iff {ty : Ty} : kind_of_type ty ≠ .owned ↔ SeenRef ty := by
  constructor
  · intro kind
    fun_induction kind_of_type ty with
    | case1 info ty ih => exact .located (ih kind)
    | case2 => exact .ref
    | case3 => exact .refMut
    | case4 => exact .slice
    | case5 ty ih => exact .option (ih kind)
    | case6 ty ih => exact .shared (ih kind)
    | case7 ty ih => exact .weak (ih kind)
    | case8 => exact absurd rfl kind
  · intro seen
    induction seen with
    | ref | refMut | slice => exact fun h => (by cases h)
    | located _ ih | option _ ih | shared _ ih | weak _ ih => exact ih

/-- A parameter that the checks see as narrow. -/
def SeenParam (p : Param) : Prop := p.borrow.isSome = true ∨ SeenRef p.ty

/-- A parameter that is lent, or whose type holds a reference. -/
def NarrowParam (p : Param) : Prop := p.borrow.isSome = true ∨ containsRef p.ty = true

theorem paramKind_iff {p : Param} : paramKind p ≠ .owned ↔ SeenParam p := by
  unfold paramKind SeenParam
  cases p.borrow with
  | none => exact kind_of_type_iff.trans ⟨.inr, fun seen => seen.resolve_left Bool.false_ne_true⟩
  | some borrow =>
      cases borrow with
      | view => exact ⟨fun _ => .inl rfl, fun _ h => (by cases h)⟩
      | mutate => exact ⟨fun _ => .inl rfl, fun _ h => (by cases h)⟩

section Names

variable (checker : NarrowChecker) (scopes : List Scope)

/-- A name of a view or mutate parameter, or of a value whose type has a property. -/
def NameWith (holds : Ty → Prop) (x : String) : Prop :=
  x ∈ checker.view_params ∨ x ∈ checker.mutate_params ∨ ∃ ty, scopeType x scopes = some ty ∧ holds ty

/-- A view or mutate parameter, or a value that holds a reference. -/
def NarrowName : String → Prop := NameWith checker scopes fun ty => containsRef ty = true

/-- A name that the checks see as narrow. -/
def SeenName : String → Prop := NameWith checker scopes SeenRef

variable {checker scopes}

theorem kind_of_ident_iff {x : String} : checker.kind_of_ident x scopes ≠ .owned ↔ SeenName checker scopes x := by
  unfold NarrowChecker.kind_of_ident SeenName NameWith
  by_cases view : x ∈ checker.view_params
  · rw [if_pos view]
    exact ⟨fun _ => .inl view, fun _ h => (by cases h)⟩
  rw [if_neg view]
  by_cases mutate : x ∈ checker.mutate_params
  · rw [if_pos mutate]
    exact ⟨fun _ => .inr (.inl mutate), fun _ h => (by cases h)⟩
  rw [if_neg mutate]
  cases scopeType x scopes with
  | none =>
      refine ⟨fun h => absurd rfl h, fun seen => ?_⟩
      rcases seen with there | there | ⟨ty, impossible, -⟩
      · exact absurd there view
      · exact absurd there mutate
      · cases impossible
  | some ty =>
      refine kind_of_type_iff.trans ⟨fun seen => .inr (.inr ⟨ty, rfl, seen⟩), fun seen => ?_⟩
      rcases seen with there | there | ⟨other, same, seen⟩
      · exact absurd there view
      · exact absurd there mutate
      · obtain rfl := Option.some.inj same
        exact seen

end Names

/-! ### Positions -/

/-- The value of an expression is a reference, or that of a name with a property, as the checks see it. -/
inductive Carries (seen : String → Prop) : Expr → Prop where
  | located {info : AstNodeMeta} {e : Expr} (inner : Carries seen e) : Carries seen (.located info e)
  | ident {x : String} (own : seen x) : Carries seen (.ident x)
  | ref {e : Expr} : Carries seen (.unary .ref e)
  | refMut {e : Expr} : Carries seen (.unary .refMut e)
  | unary {op : UnOp} {e : Expr} (inner : Carries seen e) : Carries seen (.unary op e)
  | await {e : Expr} (inner : Carries seen e) : Carries seen (.await e)
  | try_ {e : Expr} (inner : Carries seen e) : Carries seen (.try_ e)
  | cast {e : Expr} {ty : Ty} (inner : Carries seen e) : Carries seen (.cast e ty)

/-- The kind of an expression is that of the value it consists of. -/
theorem kind_of_expr_iff {checker : NarrowChecker} {scopes : List Scope} {e : Expr} :
    checker.kind_of_expr scopes e ≠ .owned ↔ Carries (SeenName checker scopes) e := by
  constructor
  · intro kind
    fun_induction NarrowChecker.kind_of_expr checker scopes e with
    | case1 info e ih => exact .located (ih kind)
    | case2 x => exact .ident (kind_of_ident_iff.mp kind)
    | case3 => exact .ref
    | case4 => exact .refMut
    | case5 op e _ _ ih => exact .unary (ih kind)
    | case6 e ih => exact .await (ih kind)
    | case7 e ih => exact .try_ (ih kind)
    | case8 e ty ih => exact .cast (ih kind)
    | case9 => exact absurd rfl kind
  · intro carries
    induction carries with
    | located _ ih | await _ ih | try_ _ ih | cast _ ih => exact ih
    | ident own => exact kind_of_ident_iff.mpr own
    | ref | refMut => exact fun h => (by cases h)
    | @unary op e _ ih =>
        cases op with
        | ref | refMut => exact fun h => (by cases h)
        | neg | not | deref => exact ih

theorem Carries.mono {seen seen' : String → Prop} (more : ∀ x, seen x → seen' x) {e : Expr} (carries : Carries seen e) :
    Carries seen' e := by
  induction carries with
  | located _ ih => exact .located ih
  | ident own => exact .ident (more _ own)
  | ref => exact .ref
  | refMut => exact .refMut
  | unary _ ih => exact .unary ih
  | await _ ih => exact .await ih
  | try_ _ ih => exact .try_ ih
  | cast _ ih => exact .cast ih

/-- What a value carries is a reference that it takes, or comes with the name that it consists of. -/
theorem carries_iff {seen : String → Prop} {e : Expr} :
    Carries seen e ↔ Carries (fun _ => False) e ∨ ∃ x, Carries (· = x) e ∧ seen x := by
  constructor
  · intro carries
    induction carries with
    | located _ ih => exact ih.imp .located fun ⟨x, at_, own⟩ => ⟨x, .located at_, own⟩
    | ident own => exact .inr ⟨_, .ident rfl, own⟩
    | ref => exact .inl .ref
    | refMut => exact .inl .refMut
    | unary _ ih => exact ih.imp .unary fun ⟨x, at_, own⟩ => ⟨x, .unary at_, own⟩
    | await _ ih => exact ih.imp .await fun ⟨x, at_, own⟩ => ⟨x, .await at_, own⟩
    | try_ _ ih => exact ih.imp .try_ fun ⟨x, at_, own⟩ => ⟨x, .try_ at_, own⟩
    | cast _ ih => exact ih.imp .cast fun ⟨x, at_, own⟩ => ⟨x, .cast at_, own⟩
  · rintro (outright | ⟨x, at_, own⟩)
    · exact outright.mono nofun
    · exact at_.mono fun y same => same ▸ own

/-- The expression of an expression statement. -/
def stmtExpr (stmt : Stmt) : Option Expr :=
  match stmt.unlocated with
  | .expr e => some e
  | _ => none

/-- The parts of an expression that the walk goes on with. -/
def walkedParts : Expr → List Expr
  | .located _ e => [e]
  | .unary _ inner | .field inner _ | .await inner | .spawn inner | .try_ inner | .cast inner _ | .old inner
  | .typeOf inner | .tupleIndex inner _ | .optionalChain inner _ => [inner]
  | .binary _ l r | .index l r => [l, r]
  | .call callee args => callee :: args
  | .tuple elems | .list elems => elems
  | .block block | .arena block => block.filterMap stmtExpr
  | .if_ cond then_ else_ => cond :: (then_.filterMap stmtExpr ++ (else_.getD []).filterMap stmtExpr)
  | _ => []

/-- The walk gets to a name. -/
inductive Walked (x : String) : Expr → Prop where
  | ident : Walked x (.ident x)
  | part {e part : Expr} (member : part ∈ walkedParts e) (inner : Walked x part) : Walked x e

theorem Carries.walked {x : String} {e : Expr} (carries : Carries (· = x) e) :
    Carries (fun _ => False) e ∨ Walked x e := by
  induction carries with
  | located _ ih => exact ih.imp .located (.part List.mem_cons_self)
  | ident same => exact .inr (same ▸ .ident)
  | ref => exact .inl .ref
  | refMut => exact .inl .refMut
  | unary _ ih => exact ih.imp .unary (.part List.mem_cons_self)
  | await _ ih => exact ih.imp .await (.part List.mem_cons_self)
  | try_ _ ih => exact ih.imp .try_ (.part List.mem_cons_self)
  | cast _ ih => exact ih.imp .cast (.part List.mem_cons_self)

section Walk

variable {checker : NarrowChecker} {scopes : List Scope} {boundary : String}

theorem walk_exprs_eq (es : List Expr) : checker.walk_exprs_across boundary scopes es =
    es.flatMap (checker.walk_idents_across boundary scopes) := by
  induction es with
  | nil => rfl
  | cons e es ih => rw [NarrowChecker.walk_exprs_across, ih, List.flatMap_cons]

theorem walk_stmt_eq (stmt : Stmt) : checker.walk_stmt_across boundary scopes stmt =
    (stmtExpr stmt).toList.flatMap (checker.walk_idents_across boundary scopes) := by
  fun_induction Stmt.unlocated stmt with
  | case1 info stmt ih => exact ih
  | case2 stmt plain =>
      cases stmt with
      | located info stmt => exact absurd rfl (plain info stmt)
      | expr e => exact (List.append_nil _).symm
      | _ => rfl

theorem walk_block_eq (block : List Stmt) : checker.walk_block_across boundary scopes block =
    (block.filterMap stmtExpr).flatMap (checker.walk_idents_across boundary scopes) := by
  induction block with
  | nil => rfl
  | cons stmt block ih =>
      rw [NarrowChecker.walk_block_across, ih, walk_stmt_eq, List.filterMap_cons]
      cases stmtExpr stmt with
      | none => rfl
      | some e =>
          rw [List.flatMap_cons, Option.toList_some, List.flatMap_cons, List.flatMap_nil, List.append_nil]

/-- The walk reports the name at a leaf, and goes on with the parts. -/
theorem walk_eq (e : Expr) : (∃ x, e = .ident x) ∨ checker.walk_idents_across boundary scopes e =
    (walkedParts e).flatMap (checker.walk_idents_across boundary scopes) := by
  cases e with
  | ident x => exact .inl ⟨x, rfl⟩
  | located info e => exact .inr (List.append_nil _).symm
  | unary _ _ | field _ _ | await _ | spawn _ | try_ _ | cast _ _ | old _ | typeOf _ | tupleIndex _ _
  | optionalChain _ _ => exact .inr (List.append_nil _).symm
  | binary op l r =>
      refine .inr ?_
      rw [walkedParts, List.flatMap_cons, List.flatMap_cons, List.flatMap_nil, List.append_nil]
      rfl
  | index l r =>
      refine .inr ?_
      rw [walkedParts, List.flatMap_cons, List.flatMap_cons, List.flatMap_nil, List.append_nil]
      rfl
  | call callee args =>
      refine .inr ?_
      rw [walkedParts, List.flatMap_cons, ← walk_exprs_eq]
      rfl
  | tuple elems => exact .inr (walk_exprs_eq elems)
  | list elems => exact .inr (walk_exprs_eq elems)
  | block body => exact .inr (walk_block_eq body)
  | arena body => exact .inr (walk_block_eq body)
  | if_ cond then_ else_ =>
      refine .inr ?_
      rw [walkedParts, List.flatMap_cons, List.flatMap_append, ← walk_block_eq, ← walk_block_eq,
        NarrowChecker.walk_idents_across, List.append_assoc]
      cases else_ with
      | none => rfl
      | some body => rfl
  | _ => exact .inr rfl

theorem sizeOf_unlocated (stmt : Stmt) : sizeOf stmt.unlocated ≤ sizeOf stmt := by
  fun_induction Stmt.unlocated stmt with
  | case1 info stmt ih =>
      rw [Stmt.located.sizeOf_spec]
      omega
  | case2 stmt => exact Nat.le_refl _

theorem sizeOf_stmtExpr {body : List Stmt} {e : Expr} (member : e ∈ body.filterMap stmtExpr) :
    sizeOf e < sizeOf body := by
  obtain ⟨stmt, listed, own⟩ := List.mem_filterMap.mp member
  have inside := List.sizeOf_lt_of_mem listed
  have plain := sizeOf_unlocated stmt
  rw [stmtExpr] at own
  split at own
  · rename_i e' shape
    obtain rfl := Option.some.inj own
    rw [shape, Stmt.expr.sizeOf_spec] at plain
    omega
  · cases own

theorem sizeOf_part {e part : Expr} (member : part ∈ walkedParts e) : sizeOf part < sizeOf e := by
  cases e with
  | located _ _ | unary _ _ | field _ _ | await _ | spawn _ | try_ _ | cast _ _ | old _ | typeOf _
  | tupleIndex _ _ | optionalChain _ _ =>
      obtain rfl := List.mem_singleton.mp member
      simp only [Expr.located.sizeOf_spec, Expr.unary.sizeOf_spec, Expr.field.sizeOf_spec,
        Expr.await.sizeOf_spec, Expr.spawn.sizeOf_spec, Expr.try_.sizeOf_spec, Expr.cast.sizeOf_spec,
        Expr.old.sizeOf_spec, Expr.typeOf.sizeOf_spec, Expr.tupleIndex.sizeOf_spec,
        Expr.optionalChain.sizeOf_spec]
      omega
  | binary _ l r | index l r =>
      simp only [Expr.binary.sizeOf_spec, Expr.index.sizeOf_spec]
      rcases List.mem_cons.mp member with rfl | second
      · omega
      · obtain rfl := List.mem_singleton.mp second
        omega
  | call callee args =>
      rw [Expr.call.sizeOf_spec]
      rcases List.mem_cons.mp member with rfl | second
      · omega
      · have inside := List.sizeOf_lt_of_mem second
        omega
  | tuple elems | list elems =>
      have inside := List.sizeOf_lt_of_mem (show part ∈ elems from member)
      simp only [Expr.tuple.sizeOf_spec, Expr.list.sizeOf_spec]
      omega
  | block body | arena body =>
      have inside := sizeOf_stmtExpr (show part ∈ body.filterMap stmtExpr from member)
      simp only [Expr.block.sizeOf_spec, Expr.arena.sizeOf_spec]
      omega
  | if_ cond then_ else_ =>
      rw [Expr.if_.sizeOf_spec]
      rcases List.mem_cons.mp member with rfl | branches
      · omega
      rcases List.mem_append.mp branches with first | second
      · have inside := sizeOf_stmtExpr first
        omega
      · cases else_ with
        | none => cases second
        | some body =>
            have inside := sizeOf_stmtExpr (show part ∈ body.filterMap stmtExpr from second)
            rw [Option.some.sizeOf_spec]
            omega
  | _ => cases member

theorem reject_kind_eq_nil {kind : TaskBoundaryKind} {detail : String} :
    checker.reject_kind_across kind boundary detail = [] ↔ kind = .owned := by
  cases kind with
  | owned => exact ⟨fun _ => rfl, fun _ => rfl⟩
  | view | mutate | ref => exact ⟨fun h => (by cases h), fun h => (by cases h)⟩

/-- The walk reports nothing when every name it gets to is owned. -/
theorem walk_eq_nil (e : Expr) : checker.walk_idents_across boundary scopes e = [] ↔
    ∀ x, Walked x e → ¬SeenName checker scopes x := by
  constructor
  · intro quiet x walked
    induction walked with
    | ident => exact fun seen => kind_of_ident_iff.mpr seen (reject_kind_eq_nil.mp quiet)
    | @part e part member _ ih =>
        rcases walk_eq e with ⟨y, rfl⟩ | parts
        · exact absurd member List.not_mem_nil
        · exact ih (List.flatMap_eq_nil_iff.mp (parts.symm.trans quiet) part member)
  · intro owned
    induction e using (measure (sizeOf : Expr → Nat)).wf.induction with
    | _ e ih =>
        rcases walk_eq e with ⟨x, rfl⟩ | parts
        · refine reject_kind_eq_nil.mpr ?_
          by_contra narrow
          exact owned x .ident (kind_of_ident_iff.mp narrow)
        · rw [parts, List.flatMap_eq_nil_iff]
          exact fun part member => ih part (sizeOf_part member) fun x walked => owned x (.part member walked)

end Walk

/-! ### What the checks let pass -/

/-- Nothing narrow occurs free in what crosses. -/
def Isolated (checker : NarrowChecker) (scopes : List Scope) (e : Expr) : Prop :=
  ∀ x, freeIn x e = true → ¬NarrowName checker scopes x

/-- The parameters of a function that is called by its name. -/
def calleeParams (checker : NarrowChecker) (inner : Expr) : List Param :=
  match NarrowChecker.spawnedCall inner with
  | some (some name, _) => (checker.lookup_func_params name).getD []
  | _ => []

/-- The arguments of a spawned call. -/
def spawnedArgs (inner : Expr) : List Expr := ((NarrowChecker.spawnedCall inner).map Prod.snd).getD []

/-- What the check of a spawned expression sees: a parameter of the function it calls, an argument, or a name that
the walk gets to. -/
def SpawnSeen (checker : NarrowChecker) (scopes : List Scope) (inner : Expr) : Prop :=
  (∃ p ∈ calleeParams checker inner, SeenParam p) ∨
    (∃ arg ∈ spawnedArgs inner, Carries (SeenName checker scopes) arg) ∨
      ∃ x, Walked x inner ∧ SeenName checker scopes x

/-- The check of a spawned expression sees something whatever names are narrow. -/
def SpawnOutright (checker : NarrowChecker) (inner : Expr) : Prop :=
  (∃ p ∈ calleeParams checker inner, SeenParam p) ∨ ∃ arg ∈ spawnedArgs inner, Carries (fun _ => False) arg

theorem walked_unlocated {x : String} (e : Expr) (walked : Walked x e.unlocated) : Walked x e := by
  cases e with
  | located info e => exact .part List.mem_cons_self (walked_unlocated e walked)
  | _ => exact walked

theorem walked_spawnedArg {x : String} {inner arg : Expr} (member : arg ∈ spawnedArgs inner) (walked : Walked x arg) :
    Walked x inner := by
  unfold spawnedArgs NarrowChecker.spawnedCall at member
  cases call : inner.unlocated with
  | call callee args =>
      have listed : arg ∈ args := by
        rw [call] at member
        dsimp only at member
        split at member <;> exact member
      exact walked_unlocated _ (call ▸ .part (List.mem_cons_of_mem _ listed) walked)
  | _ =>
      rw [call] at member
      exact absurd member List.not_mem_nil

/-- A name that an argument carries is one that the walk gets to. -/
theorem spawnSeen_iff {checker : NarrowChecker} {scopes : List Scope} {inner : Expr} :
    SpawnSeen checker scopes inner ↔
      SpawnOutright checker inner ∨ ∃ x, Walked x inner ∧ SeenName checker scopes x := by
  constructor
  · rintro (param | ⟨arg, member, carries⟩ | walked)
    · exact .inl (.inl param)
    · rcases carries_iff.mp carries with outright | ⟨x, at_, own⟩
      · exact .inl (.inr ⟨arg, member, outright⟩)
      · rcases at_.walked with outright | walked
        · exact .inl (.inr ⟨arg, member, outright⟩)
        · exact .inr ⟨x, walked_spawnedArg member walked, own⟩
    · exact .inr walked
  · rintro ((param | ⟨arg, member, outright⟩) | walked)
    · exact .inl param
    · exact .inr (.inl ⟨arg, member, outright.mono nofun⟩)
    · exact .inr (.inr walked)

section Checks

variable {checker : NarrowChecker} {scopes : List Scope}

theorem reject_callee_eq_nil {name : String} :
    checker.reject_callee_borrow_params "spawn" name = [] ↔
      ∀ p ∈ (checker.lookup_func_params name).getD [], ¬SeenParam p := by
  unfold NarrowChecker.reject_callee_borrow_params
  cases checker.lookup_func_params name with
  | none => exact ⟨fun _ p member => absurd member List.not_mem_nil, fun _ => rfl⟩
  | some params =>
      dsimp only [Option.getD_some]
      cases found : params.find? fun p => !(paramKind p).may_cross_task_boundary with
      | none =>
          refine ⟨fun _ p member seen => ?_, fun _ => rfl⟩
          have crosses := List.find?_eq_none.mp found p member
          rw [Bool.not_eq_true, Bool.not_eq_false', TaskBoundaryKind.may_cross_task_boundary,
            decide_eq_true_eq] at crosses
          exact paramKind_iff.mpr seen crosses
      | some p =>
          have stays := List.find?_some found
          rw [Bool.not_eq_true', TaskBoundaryKind.may_cross_task_boundary, decide_eq_false_iff_not] at stays
          refine ⟨fun quiet => absurd (reject_kind_eq_nil.mp quiet) stays, fun owned => ?_⟩
          exact absurd (paramKind_iff.mp stays) (owned p (List.mem_of_find?_eq_some found))

theorem reject_expr_eq_nil {e : Expr} {boundary : String} :
    checker.reject_kind_across (checker.kind_of_expr scopes e) boundary "" = [] ↔
      ¬Carries (SeenName checker scopes) e := by
  rw [reject_kind_eq_nil, ← kind_of_expr_iff, not_not]

/-- The check of a spawn accepts what it sees nothing narrow in. -/
theorem reject_spawn_eq_nil {inner : Expr} :
    checker.reject_narrow_across_spawn inner scopes = [] ↔ ¬SpawnSeen checker scopes inner := by
  have args_iff {args : List Expr} : (args.flatMap fun arg =>
      checker.reject_kind_across (checker.kind_of_expr scopes arg) "spawn" "") = [] ↔
        ¬∃ arg ∈ args, Carries (SeenName checker scopes) arg := by
    rw [List.flatMap_eq_nil_iff]
    simp only [reject_expr_eq_nil, not_exists, not_and]
  have walk_iff : checker.walk_idents_across "spawn" scopes inner = [] ↔
      ¬∃ x, Walked x inner ∧ SeenName checker scopes x := by
    rw [walk_eq_nil]
    simp only [not_exists, not_and]
  unfold NarrowChecker.reject_narrow_across_spawn SpawnSeen calleeParams spawnedArgs
  rw [List.append_eq_nil_iff, walk_iff, not_or, not_or, ← and_assoc]
  refine and_congr_left fun _ => ?_
  cases NarrowChecker.spawnedCall inner with
  | none => simp
  | some call =>
      obtain ⟨callee, args⟩ := call
      dsimp only [Option.map_some, Option.getD_some]
      rw [List.append_eq_nil_iff, args_iff]
      refine and_congr_left fun _ => ?_
      cases callee with
      | none => simp
      | some name =>
          rw [Option.toList_some, List.flatMap_cons, List.flatMap_nil, List.append_nil, reject_callee_eq_nil]
          simp only [not_exists, not_and]

theorem reject_mailbox_eq_nil {params : List Param} {actor method : String} :
    checker.reject_narrow_mailbox_params params actor method = [] ↔
      ¬∃ p ∈ params, p.name ≠ "self" ∧ SeenParam p := by
  unfold NarrowChecker.reject_narrow_mailbox_params
  rw [List.flatMap_eq_nil_iff]
  simp only [reject_kind_eq_nil, List.mem_filter, decide_eq_true_eq, not_exists, not_and, and_imp]
  refine forall₃_congr fun p _ _ => ?_
  rw [← paramKind_iff, not_not]

end Checks

/-! ### When the checks are right -/

/-- The checker with other parameters lent. -/
def NarrowChecker.lending (checker : NarrowChecker) (views mutates : List String) : NarrowChecker :=
  { checker with view_params := views, mutate_params := mutates }

/-- The type of a name hides no reference. -/
def TypeSeen (scopes : List Scope) (x : String) : Prop := ∀ ty, scopeType x scopes = some ty → refsSeen ty = true

/-- The checks see something in a crossing expression whatever is lent: `outright`, or the type of a name at a position
that they look at. -/
def AlwaysSeen (scopes : List Scope) (outright : Prop) (at_ : String → Prop) : Prop :=
  outright ∨ ∃ x, at_ x ∧ ∃ ty, scopeType x scopes = some ty ∧ SeenRef ty

/-- When a check that looks at the names at some positions keeps narrow values inside their task: where every free
name that is narrow stands at such a position and, unless it is lent, has a type that hides no reference.  Whatever
is lent, the check does so just if it always sees something or every free name is of this kind. -/
structure RightWhen (accepts : NarrowChecker → Prop) (outright : Prop) (at_ : String → Prop) (checker : NarrowChecker)
    (scopes : List Scope) (e : Expr) : Prop where
  enough : (∀ x, freeIn x e = true → NarrowName checker scopes x →
      at_ x ∧ (x ∈ checker.view_params ∨ x ∈ checker.mutate_params ∨ TypeSeen scopes x)) →
    accepts checker → Isolated checker scopes e
  exact_ : (∀ views mutates, accepts (checker.lending views mutates) →
      Isolated (checker.lending views mutates) scopes e) ↔
    AlwaysSeen scopes outright at_ ∨ ∀ x, freeIn x e = true → at_ x ∧ TypeSeen scopes x

section

variable {checker : NarrowChecker} {scopes : List Scope} {e : Expr}

/-- A narrow name that is lent or whose type hides no reference is seen. -/
theorem NarrowName.seen {x : String} (narrow : NarrowName checker scopes x)
    (shown : x ∈ checker.view_params ∨ x ∈ checker.mutate_params ∨ TypeSeen scopes x) : SeenName checker scopes x := by
  rcases narrow with view | mutate | ⟨ty, known, holds⟩
  · exact .inl view
  · exact .inr (.inl mutate)
  · rcases shown with view | mutate | shown
    · exact .inl view
    · exact .inr (.inl mutate)
    · exact .inr (.inr ⟨ty, known, refsSeen_iff.mp (shown ty known) holds⟩)

/-- Lending a single name shows whether the check looks at its positions, and lending none whether it sees the types. -/
theorem right_when {accepts : NarrowChecker → Prop} {outright : Prop} {at_ : String → Prop}
    (reads : ∀ views mutates, accepts (checker.lending views mutates) ↔
      ¬(outright ∨ ∃ x, at_ x ∧ SeenName (checker.lending views mutates) scopes x)) :
    RightWhen accepts outright at_ checker scopes e := by
  have enough (views mutates : List String) (covered : ∀ x, freeIn x e = true →
      NarrowName (checker.lending views mutates) scopes x → at_ x ∧ (x ∈ views ∨ x ∈ mutates ∨ TypeSeen scopes x))
      (accepted : accepts (checker.lending views mutates)) : Isolated (checker.lending views mutates) scopes e := by
    intro x free narrow
    obtain ⟨here, shown⟩ := covered x free narrow
    exact (reads views mutates).mp accepted (.inr ⟨x, here, narrow.seen shown⟩)
  refine ⟨enough checker.view_params checker.mutate_params, fun right => ?_, ?_⟩
  · refine or_iff_not_imp_left.mpr fun unseen x free => ?_
    obtain ⟨taken, hidden⟩ := not_or.mp unseen
    have here : at_ x := by
      -- lent, a name that the check does not look at crosses
      by_contra away
      refine right [x] [] ((reads [x] []).mpr ?_) x free (.inl List.mem_cons_self)
      rintro (out | ⟨y, at_y, view | mutate | known⟩)
      · exact taken out
      · exact away (List.mem_singleton.mp view ▸ at_y)
      · cases mutate
      · exact hidden ⟨y, at_y, known⟩
    refine ⟨here, fun ty known => refsSeen_iff.mpr fun holds => ?_⟩
    by_contra covered
    refine right [] [] ((reads [] []).mpr ?_) x free (.inr (.inr ⟨ty, known, holds⟩))
    rintro (out | ⟨y, at_y, view | mutate | known⟩)
    · exact taken out
    · cases view
    · cases mutate
    · exact hidden ⟨y, at_y, known⟩
  · rintro (seen | covered) views mutates accepted
    · refine absurd ?_ ((reads views mutates).mp accepted)
      exact seen.imp_right fun ⟨x, here, known⟩ => ⟨x, here, .inr (.inr known)⟩
    · exact enough views mutates (fun x free _ => (covered x free).imp_right fun shown => .inr (.inr shown)) accepted

end

/-- The type `List<&i32>`. -/
def listOfReferences : Ty := .name "List" [.ref none (.name "i32" [])]

/-- A function with a view parameter `v` and a local `rs` of this type. -/
def lendingChecker : NarrowChecker where
  view_params := ["v"]
  mutate_params := []
  nested_func_params _ := none
  items := []
  span := ⟨0, 1, 1, 1, 2⟩

def lendingScopes : List Scope := [fun x => if x = "rs" then some listOfReferences else none]

/-- The call `work(rs)`. -/
def workOnList : Expr := .call (.ident "work") [.ident "rs"]

/-- The block `{ let y = v; work(y) }`. -/
def workOnView : Expr :=
  .block [.let_ ⟨⟨⟨0, 1, 1, 1, 2⟩, .user, .none⟩, .variable_ "y"⟩ none (some (.ident "v")) false false,
    .expr (.call (.ident "work") [.ident "y"])]

end Mimi.Checker
