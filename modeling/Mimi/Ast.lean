/-
Module: Mimi.Ast
Purpose: The syntax of a source file as ast.rs has it, with the metadata of every node that carries
  a span: types, session types, patterns, expressions, statements and the items of a file.
Trusted boundary: human-reviewed translation of `src/ast.rs`; floating-point literals are their bits
-/
import Mimi.Core.Ownership
import Mimi.Core.Type

namespace Mimi.Ast

open Mimi.Core (Span)

inductive AstOrigin where
  | user
  | desugared (rule : String)
  | prototypeFallback (rule : String)
  | runtimeSystem (rule : String)
deriving Repr, DecidableEq

/-- Structural parent requested by a generated node. -/
inductive AstParentHint where
  | none
  | enclosing
  | namedFunction (name : String)
  | compilationRoot
deriving Repr, DecidableEq

structure AstNodeMeta where
  span : Span
  origin : AstOrigin
  parent : AstParentHint
deriving Repr, DecidableEq

/-! ### Types -/

/-- `enum Type`, with the metadata of its located nodes. -/
inductive Ty where
  | located (info : AstNodeMeta) (ty : Ty)
  | name (n : String) (args : List Ty)
  | ref (lifetime : Option String) (ty : Ty)
  | refMut (lifetime : Option String) (ty : Ty)
  | option (ty : Ty)
  | result (ok err : Ty)
  | tuple (elems : List Ty)
  | func (params : List Ty) (ret : Ty)
  | externFunc (params : List Ty) (ret : Ty)
  | cBuffer (ty : Ty)
  | cap (n : String)
  | capAtom (n : String)
  | shared (ty : Ty)
  | weak (ty : Ty)
  | newtype (n : String) (ty : Ty)
  | array (ty : Ty) (len : Nat)
  | slice (ty : Ty)
  | implTrait (traits : List String)
  | dynTrait (traits : List String)
  | rawPtr (ty : Ty)
  | rawPtrMut (ty : Ty)
  | nothing
  | infer
  | typeVar (id : Nat)
  | forAll (params : List String) (body : Ty)
  | tyErr
deriving Repr

mutual

/-- The type without the metadata, as the checker compares and prints it. -/
def Ty.erase : Ty → Core.Ty
  | .located _ ty => .located ty.erase
  | .name n args => .name n (Ty.eraseAll args)
  | .ref lifetime ty => .ref lifetime ty.erase
  | .refMut lifetime ty => .refMut lifetime ty.erase
  | .option ty => .option ty.erase
  | .result ok err => .result ok.erase err.erase
  | .tuple elems => .tuple (Ty.eraseAll elems)
  | .func params ret => .func (Ty.eraseAll params) ret.erase
  | .externFunc params ret => .externFunc (Ty.eraseAll params) ret.erase
  | .cBuffer ty => .cBuffer ty.erase
  | .cap n => .cap n
  | .capAtom n => .capAtom n
  | .shared ty => .shared ty.erase
  | .weak ty => .weak ty.erase
  | .newtype n ty => .newtype n ty.erase
  | .array ty len => .array ty.erase len
  | .slice ty => .slice ty.erase
  | .implTrait traits => .implTrait traits
  | .dynTrait traits => .dynTrait traits
  | .rawPtr ty => .rawPtr ty.erase
  | .rawPtrMut ty => .rawPtrMut ty.erase
  | .nothing => .nothing
  | .infer => .infer
  | .typeVar id => .typeVar id
  | .forAll params body => .forAll params body.erase
  | .tyErr => .tyErr

def Ty.eraseAll : List Ty → List Core.Ty
  | [] => []
  | ty :: tys => ty.erase :: Ty.eraseAll tys

end

/-- Linear session type expressions. -/
inductive SessionType where
  | located (info : AstNodeMeta) (session : SessionType)
  | send (ty : Ty) (cont : SessionType)
  | recv (ty : Ty) (cont : SessionType)
  | dual (session : SessionType)
  | name (n : String)
  | end_
deriving Repr

/-! ### Expressions and statements -/

inductive BinOp where
  | add | sub | mul | div | mod | pow
  | eqCmp | neCmp | lt | gt | le | ge
  | and | or
  | bitAnd | bitOr | bitXor | shl | shr
  | range
deriving Repr, DecidableEq

inductive UnOp where
  | neg | not | ref | refMut | deref
deriving Repr, DecidableEq

inductive SharedKind where
  | shared | weak
deriving Repr, DecidableEq

/-- Borrow mode of a function parameter. -/
inductive ParamBorrow where
  | view | mutate
deriving Repr, DecidableEq

inductive GenericKind where
  | free | linear | linearDrop
deriving Repr, DecidableEq

structure GenericParam where
  info : AstNodeMeta
  name : String
  bounds : List String
  kind : GenericKind
deriving Repr

structure WhereClause where
  info : AstNodeMeta
  type_param : String
  bounds : List String
deriving Repr

mutual

/-- A floating-point literal is its bits. -/
inductive Lit where
  | int (value : Int)
  | float (bits : UInt64)
  | bool (value : Bool)
  | string (value : String)
  | fString (parts : List FStringPart)
  | unit

/-- Literal text or an interpolated expression. -/
inductive FStringPart where
  | text (value : String)
  | interp (e : Expr)

structure Pattern where
  info : AstNodeMeta
  kind : PatternKind

inductive PatternKind where
  | wildcard
  | variable_ (n : String)
  | literal (value : Lit)
  | constructor (n : String) (fields : List (String × Pattern))
  | tuple (patterns : List Pattern)
  | array (patterns : List Pattern)
  | slice (patterns : List Pattern) (rest : Option Pattern)

inductive Expr where
  | located (info : AstNodeMeta) (e : Expr)
  | literal (value : Lit)
  | ident (n : String)
  | binary (op : BinOp) (left right : Expr)
  | unary (op : UnOp) (value : Expr)
  | call (callee : Expr) (args : List Expr)
  | field (value : Expr) (n : String)
  | index (value at_ : Expr)
  | tuple (values : List Expr)
  | list (values : List Expr)
  | comprehension (e : Expr) (var : String) (iter : Expr) (guard : Option Expr)
  | match_ (value : Expr) (arms : List MatchArm)
  | record (ty : Option String) (fields : List RecordFieldExpr) (rest : Option Expr)
  | block (body : List Stmt)
  | try_ (value : Expr)
  | optionalChain (value : Expr) (n : String)
  | spawn (value : Expr)
  | await (value : Expr)
  | quote (body : List Stmt)
  | quoteInterpolate (value : Expr)
  | comptime (body : List Stmt)
  | typeOf (value : Expr)
  | typeInfo (ty : Ty)
  | if_ (cond : Expr) (then_ : List Stmt) (else_ : Option (List Stmt))
  | lambda (params : List Param) (ret : Option Ty) (body : List Stmt)
  | old (value : Expr)
  | sliceExpr (target : Expr) (start end_ : Option Expr)
  | turbofish (n : String) (type_args : List Ty) (args : List Expr)
  | tupleIndex (value : Expr) (idx : Nat)
  | arena (body : List Stmt)
  | mapLiteral (entries : List (Expr × Expr))
  | setLiteral (values : List Expr)
  | namedArg (n : String) (value : Expr)
  | cast (value : Expr) (ty : Ty)

structure RecordFieldExpr where
  info : AstNodeMeta
  name : String
  value : Expr

structure MatchArm where
  info : AstNodeMeta
  pat : Pattern
  guard : Option Expr
  body : Expr

structure Param where
  info : AstNodeMeta
  name : String
  ty : Ty
  mut_ : Bool
  default_value : Option Expr
  borrow : Option ParamBorrow

structure FuncDef where
  info : AstNodeMeta
  name : String
  pub_ : Bool
  params : List Param
  ret : Option Ty
  body : List Stmt
  where_clause : List WhereClause
  generics : List GenericParam
  effects : List String
  is_comptime : Bool
  is_async : Bool
  extern_abi : Option String
  has_requires : Bool
  has_ensures : Bool
  has_mutate_params : Bool

inductive Stmt where
  | located (info : AstNodeMeta) (stmt : Stmt)
  | let_ (pat : Pattern) (ty : Option Ty) (init : Option Expr) (mut_ ref_ : Bool)
  | return_ (value : Option Expr)
  | break_ (value : Option Expr)
  | continue_
  | expr (e : Expr)
  | if_ (cond : Expr) (then_ : List Stmt) (else_ : Option (List Stmt))
  | ifLet (pat : Pattern) (init : Expr) (then_ : List Stmt) (else_ : Option (List Stmt))
  | while_ (cond : Expr) (body : List Stmt)
  | whileLet (pat : Pattern) (init : Expr) (body : List Stmt)
  | loop (body : List Stmt)
  | for_ (var : Pattern) (iterable : Expr) (body : List Stmt)
  | block (body : List Stmt)
  | requires (e : Expr) (span : Span)
  | ensures (e : Expr) (span : Span)
  | invariant (e : Expr) (span : Span)
  | math (exprs : List Expr)
  | assign (target value : Expr)
  | arena (body : List Stmt)
  | unsafe_ (body : List Stmt)
  | ieeeFloat (body : List Stmt)
  | drop (e : Expr)
  | defer (body : List Stmt)
  | sharedLet (kind : SharedKind) (n : String) (ty : Option Ty) (init : Expr)
  | onFailure (body : List Stmt)
  | pinned (e : Expr) (var : Option String) (body : List Stmt)
  | parasteps (body : List Stmt)
  | func (function : FuncDef)
  | ellipsis

end

abbrev Block := List Stmt

/-! ### Items -/

structure Field where
  info : AstNodeMeta
  name : String
  ty : Ty
deriving Repr

inductive VariantPayload where
  | tuple (types : List Ty)
  | record (fields : List Field)
deriving Repr

structure Variant where
  info : AstNodeMeta
  name : String
  payload : Option VariantPayload
deriving Repr

inductive TypeDefKind where
  | alias_ (ty : Ty)
  | newtype (ty : Ty)
  | record (fields : List Field)
  | enum (variants : List Variant)
  | union (fields : List Field)
deriving Repr

inductive TypeAttribute where
  | reprC | reprTransparent
deriving Repr, DecidableEq

structure TypeDef where
  info : AstNodeMeta
  name : String
  pub_ : Bool
  kind : TypeDefKind
  generics : List GenericParam
  derives : List String
  attributes : List TypeAttribute
deriving Repr

structure ActorField where
  info : AstNodeMeta
  name : String
  ty : Ty
  mut_ : Bool
  init : Option Expr

structure ActorDef where
  info : AstNodeMeta
  name : String
  pub_ : Bool
  runs_flow : Option String
  fields : List ActorField
  methods : List FuncDef

structure CapDef where
  info : AstNodeMeta
  name : String
  combined_with : Option String
deriving Repr

structure TraitMethod where
  info : AstNodeMeta
  name : String
  generics : List GenericParam
  params : List Param
  ret : Option Ty

structure TraitDef where
  info : AstNodeMeta
  name : String
  methods : List TraitMethod
  generics : List GenericParam

structure ImplDef where
  info : AstNodeMeta
  generics : List GenericParam
  trait_name : String
  trait_args : List Ty
  type_name : String
  type_args : List Ty
  methods : List FuncDef

inductive CapMode where
  | borrow | move
deriving Repr, DecidableEq

structure ExternParam where
  info : AstNodeMeta
  name : String
  ty : Ty
  cap_mode : Option CapMode
deriving Repr

structure ExternFunc where
  info : AstNodeMeta
  name : String
  params : List ExternParam
  ret : Option Ty
  requires : Option Expr
  ensures : Option Expr
  variadic : Bool
  no_panic : Bool
  returns_errno : Bool

structure ExternBlock where
  info : AstNodeMeta
  abi : String
  funcs : List ExternFunc
  no_panic : Bool
  unsafe_ : Bool
  returns_errno : Bool

structure ConstDef where
  info : AstNodeMeta
  name : String
  ty : Option Ty
  value : Expr
  pub_ : Bool
  extern_abi : Option String

inductive FlowAnnotationKind where
  | mailboxDepth (depth : Nat)
  | maxChildren (most : Nat)
  | sparse
deriving Repr, DecidableEq

structure FlowAnnotation where
  info : AstNodeMeta
  kind : FlowAnnotationKind
deriving Repr

structure StateDef where
  info : AstNodeMeta
  name : String
  payload : Option (List Field)
deriving Repr

structure TransitionDef where
  info : AstNodeMeta
  name : String
  from_state : String
  params : List Param
  to_states : List String
  fails : Option Ty
  body : Option Block
  is_fallback : Bool
  is_ffi_pinned : Bool

structure FlowDef where
  info : AstNodeMeta
  name : String
  pub_ : Bool
  generics : List GenericParam
  annotations : List FlowAnnotation
  states : List StateDef
  transitions : List TransitionDef
  persistent_fields : List String
  fault_type : Option Ty

structure SessionDef where
  info : AstNodeMeta
  name : String
  pub_ : Bool
  body : SessionType
deriving Repr

/-- The fields of a constant are a structure of their own here. -/
inductive Item where
  | func (function : FuncDef)
  | type (type_def : TypeDef)
  | actor (actor : ActorDef)
  | cap (cap : CapDef)
  | trait (trait_def : TraitDef)
  | impl (impl_def : ImplDef)
  | externBlock (block : ExternBlock)
  | const (const : ConstDef)
  | flow (flow : FlowDef)
  | session (session : SessionDef)

structure Import where
  info : AstNodeMeta
  path : List String
  alias_ : Option String
deriving Repr, DecidableEq

end Mimi.Ast
