/-
Module: Mimi.Loader.Spots
Purpose: Every span of a piece of syntax, at any nesting, with the mark whether the span stands under
  a child that the traversal of loader/flow.rs leaves out.
Trusted boundary: human-reviewed reading of the node types of `src/ast.rs`
-/
import Mimi.Ast

namespace Mimi.Loader

open Mimi.Ast
open Mimi.Core (Span)

/-- A span of a node; `reached` says that the traversal gets to the node. -/
structure Spot where
  span : Span
  reached : Bool
deriving Repr, DecidableEq

/-- The span of a node the traversal gets to. -/
def visited (span : Span) : List Spot := [⟨span, true⟩]

/-- The spans under a child that is left out. -/
def leftOut (spots : List Spot) : List Spot := spots.map fun spot => { spot with reached := false }

def onSomeSpots {α : Type} (spots : α → List Spot) : Option α → List Spot
  | none => []
  | some child => spots child

def metaSpots (info : AstNodeMeta) : List Spot := visited info.span

/-! ### Types -/

mutual

def typeSpots : Ty → List Spot
  | .located info ty => metaSpots info ++ typeSpots ty
  | .name _ args => typesSpots args
  | .tuple args => typesSpots args
  | .ref _ inner => typeSpots inner
  | .refMut _ inner => typeSpots inner
  | .option inner => typeSpots inner
  | .cBuffer inner => typeSpots inner
  | .shared inner => typeSpots inner
  | .weak inner => typeSpots inner
  | .newtype _ inner => typeSpots inner
  | .array inner _ => typeSpots inner
  | .slice inner => typeSpots inner
  | .rawPtr inner => typeSpots inner
  | .rawPtrMut inner => typeSpots inner
  | .forAll _ inner => typeSpots inner
  | .result ok err => typeSpots ok ++ typeSpots err
  | .func params ret => typesSpots params ++ typeSpots ret
  | .externFunc params ret => typesSpots params ++ typeSpots ret
  | .cap _ => []
  | .capAtom _ => []
  | .nothing => []
  | .implTrait _ => []
  | .dynTrait _ => []
  | .infer => []
  | .tyErr => []
  | .typeVar _ => []

def typesSpots : List Ty → List Spot
  | [] => []
  | ty :: tys => typeSpots ty ++ typesSpots tys

end

def sessionSpots : Ast.SessionType → List Spot
  | .located info session => metaSpots info ++ sessionSpots session
  | .send ty cont => typeSpots ty ++ sessionSpots cont
  | .recv ty cont => typeSpots ty ++ sessionSpots cont
  | .dual inner => sessionSpots inner
  | .name _ => []
  | .end_ => []

def genericSpots (param : GenericParam) : List Spot := metaSpots param.info

def whereSpots (clause : WhereClause) : List Spot := metaSpots clause.info

/-! ### Patterns, expressions and statements -/

mutual

def patternSpots : Pattern → List Spot
  | ⟨info, kind⟩ => metaSpots info ++ kindSpots kind

def kindSpots : PatternKind → List Spot
  | .wildcard => []
  | .variable_ _ => []
  | .literal value => leftOut (literalSpots value)
  | .constructor _ fields => patternFieldSpots fields
  | .tuple patterns => patternsSpots patterns
  | .array patterns => patternsSpots patterns
  | .slice patterns rest => patternsSpots patterns ++ restSpots rest

def patternsSpots : List Pattern → List Spot
  | [] => []
  | pattern :: patterns => patternSpots pattern ++ patternsSpots patterns

def patternFieldSpots : List (String × Pattern) → List Spot
  | [] => []
  | (_, pattern) :: fields => patternSpots pattern ++ patternFieldSpots fields

def restSpots : Option Pattern → List Spot
  | none => []
  | some pattern => patternSpots pattern

def exprSpots : Expr → List Spot
  | .located info e => metaSpots info ++ exprSpots e
  | .literal value => literalSpots value
  | .ident _ => []
  | .typeInfo ty => typeSpots ty
  | .binary _ left right => exprSpots left ++ exprSpots right
  | .index value at_ => exprSpots value ++ exprSpots at_
  | .unary _ value => exprSpots value
  | .try_ value => exprSpots value
  | .spawn value => exprSpots value
  | .await value => exprSpots value
  | .quoteInterpolate value => exprSpots value
  | .typeOf value => exprSpots value
  | .old value => exprSpots value
  | .tupleIndex value _ => exprSpots value
  | .namedArg _ value => exprSpots value
  | .cast value ty => exprSpots value ++ typeSpots ty
  | .call callee args => exprSpots callee ++ exprsSpots args
  | .field value _ => exprSpots value
  | .optionalChain value _ => exprSpots value
  | .tuple values => exprsSpots values
  | .list values => exprsSpots values
  | .setLiteral values => exprsSpots values
  | .comprehension e _ iter guard => exprSpots e ++ exprSpots iter ++ optExprSpots guard
  | .match_ value arms => exprSpots value ++ armsSpots arms
  | .record _ fields rest => recordFieldSpots fields ++ leftOut (optExprSpots rest)
  | .block body => blockSpots body
  | .quote body => blockSpots body
  | .comptime body => blockSpots body
  | .arena body => blockSpots body
  | .if_ cond then_ else_ => exprSpots cond ++ blockSpots then_ ++ optBlockSpots else_
  | .lambda params ret body => paramsSpots params ++ onSomeSpots typeSpots ret ++ blockSpots body
  | .sliceExpr target start end_ => exprSpots target ++ optExprSpots start ++ optExprSpots end_
  | .turbofish _ type_args args => typesSpots type_args ++ exprsSpots args
  | .mapLiteral entries => entriesSpots entries

def literalSpots : Lit → List Spot
  | .fString parts => partsSpots parts
  | .int _ => []
  | .float _ => []
  | .bool _ => []
  | .string _ => []
  | .unit => []

def partsSpots : List FStringPart → List Spot
  | [] => []
  | .text _ :: parts => partsSpots parts
  | .interp e :: parts => exprSpots e ++ partsSpots parts

def exprsSpots : List Expr → List Spot
  | [] => []
  | e :: es => exprSpots e ++ exprsSpots es

def optExprSpots : Option Expr → List Spot
  | none => []
  | some e => exprSpots e

def armsSpots : List MatchArm → List Spot
  | [] => []
  | ⟨info, pat, guard, body⟩ :: arms =>
      metaSpots info ++ patternSpots pat ++ optExprSpots guard ++ exprSpots body ++ armsSpots arms

def recordFieldSpots : List RecordFieldExpr → List Spot
  | [] => []
  | ⟨info, _, value⟩ :: fields => metaSpots info ++ exprSpots value ++ recordFieldSpots fields

def entriesSpots : List (Expr × Expr) → List Spot
  | [] => []
  | (key, value) :: entries => exprSpots key ++ exprSpots value ++ entriesSpots entries

def paramsSpots : List Param → List Spot
  | [] => []
  | ⟨info, _, ty, _, default_value, _⟩ :: params =>
      metaSpots info ++ typeSpots ty ++ optExprSpots default_value ++ paramsSpots params

def funcSpots : FuncDef → List Spot
  | ⟨info, _, _, params, ret, body, where_clause, generics, _, _, _, _, _, _, _⟩ =>
      metaSpots info ++ generics.flatMap genericSpots ++ where_clause.flatMap whereSpots ++
        paramsSpots params ++ onSomeSpots typeSpots ret ++ blockSpots body

def blockSpots : List Stmt → List Spot
  | [] => []
  | stmt :: stmts => stmtSpots stmt ++ blockSpots stmts

def optBlockSpots : Option (List Stmt) → List Spot
  | none => []
  | some block => blockSpots block

def stmtSpots : Stmt → List Spot
  | .located info stmt => metaSpots info ++ stmtSpots stmt
  | .let_ pat ty init _ _ => patternSpots pat ++ onSomeSpots typeSpots ty ++ optExprSpots init
  | .return_ value => optExprSpots value
  | .break_ value => optExprSpots value
  | .continue_ => []
  | .ellipsis => []
  | .expr e => exprSpots e
  | .drop e => exprSpots e
  | .if_ cond then_ else_ => exprSpots cond ++ blockSpots then_ ++ optBlockSpots else_
  | .ifLet pat init then_ else_ =>
      patternSpots pat ++ exprSpots init ++ blockSpots then_ ++ optBlockSpots else_
  | .while_ cond body => exprSpots cond ++ blockSpots body
  | .whileLet pat init body => patternSpots pat ++ exprSpots init ++ blockSpots body
  | .loop body => blockSpots body
  | .block body => blockSpots body
  | .arena body => blockSpots body
  | .unsafe_ body => blockSpots body
  | .ieeeFloat body => blockSpots body
  | .onFailure body => blockSpots body
  | .parasteps body => blockSpots body
  | .defer body => blockSpots body
  | .for_ var iterable body =>
      leftOut (patternSpots var) ++ exprSpots iterable ++ blockSpots body
  | .requires e span => visited span ++ exprSpots e
  | .ensures e span => visited span ++ exprSpots e
  | .invariant e span => visited span ++ exprSpots e
  | .math exprs => exprsSpots exprs
  | .assign target value => exprSpots target ++ exprSpots value
  | .sharedLet _ _ ty init => onSomeSpots typeSpots ty ++ exprSpots init
  | .pinned e _ body => exprSpots e ++ blockSpots body
  | .func function => funcSpots function

end

/-! ### Items -/

def fieldSpots (field : Field) : List Spot := metaSpots field.info ++ typeSpots field.ty

def payloadSpots : VariantPayload → List Spot
  | .tuple types => typesSpots types
  | .record fields => fields.flatMap fieldSpots

def variantSpots (variant : Variant) : List Spot :=
  metaSpots variant.info ++ onSomeSpots payloadSpots variant.payload

def typeDefKindSpots : TypeDefKind → List Spot
  | .alias_ ty => typeSpots ty
  | .newtype ty => typeSpots ty
  | .record fields => fields.flatMap fieldSpots
  | .union fields => fields.flatMap fieldSpots
  | .enum variants => variants.flatMap variantSpots

def typeDefSpots (type_def : TypeDef) : List Spot :=
  metaSpots type_def.info ++ type_def.generics.flatMap genericSpots ++
    typeDefKindSpots type_def.kind

def actorFieldSpots (field : ActorField) : List Spot :=
  metaSpots field.info ++ typeSpots field.ty ++ optExprSpots field.init

def actorSpots (actor : ActorDef) : List Spot :=
  metaSpots actor.info ++ actor.fields.flatMap actorFieldSpots ++ actor.methods.flatMap funcSpots

def traitMethodSpots (method : TraitMethod) : List Spot :=
  metaSpots method.info ++ method.generics.flatMap genericSpots ++ paramsSpots method.params ++
    onSomeSpots typeSpots method.ret

def traitSpots (trait_def : TraitDef) : List Spot :=
  metaSpots trait_def.info ++ trait_def.generics.flatMap genericSpots ++
    trait_def.methods.flatMap traitMethodSpots

def implSpots (impl_def : ImplDef) : List Spot :=
  metaSpots impl_def.info ++ impl_def.generics.flatMap genericSpots ++
    typesSpots impl_def.trait_args ++ typesSpots impl_def.type_args ++
    impl_def.methods.flatMap funcSpots

def externParamSpots (param : ExternParam) : List Spot :=
  metaSpots param.info ++ typeSpots param.ty

def externFuncSpots (function : ExternFunc) : List Spot :=
  metaSpots function.info ++ function.params.flatMap externParamSpots ++
    onSomeSpots typeSpots function.ret ++ optExprSpots function.requires ++
    optExprSpots function.ensures

def externBlockSpots (block : ExternBlock) : List Spot :=
  metaSpots block.info ++ block.funcs.flatMap externFuncSpots

def constSpots (const : ConstDef) : List Spot :=
  metaSpots const.info ++ onSomeSpots typeSpots const.ty ++ exprSpots const.value

def annotationSpots (note : FlowAnnotation) : List Spot := metaSpots note.info

def stateSpots (state : StateDef) : List Spot :=
  metaSpots state.info ++ onSomeSpots (fun fields : List Field => fields.flatMap fieldSpots)
    state.payload

def transitionSpots (transition : TransitionDef) : List Spot :=
  metaSpots transition.info ++ paramsSpots transition.params ++ optBlockSpots transition.body ++
    leftOut (onSomeSpots typeSpots transition.fails)

def flowSpots (flow : FlowDef) : List Spot :=
  metaSpots flow.info ++ flow.generics.flatMap genericSpots ++
    flow.annotations.flatMap annotationSpots ++ flow.states.flatMap stateSpots ++
    flow.transitions.flatMap transitionSpots ++ leftOut (onSomeSpots typeSpots flow.fault_type)

def itemSpots : Item → List Spot
  | .func function => funcSpots function
  | .type type_def => typeDefSpots type_def
  | .cap cap => metaSpots cap.info
  | .session session => metaSpots session.info ++ sessionSpots session.body
  | .actor actor => actorSpots actor
  | .trait trait_def => traitSpots trait_def
  | .impl impl_def => implSpots impl_def
  | .externBlock block => externBlockSpots block
  | .const const => constSpots const
  | .flow flow => flowSpots flow

def importSpots (import_ : Import) : List Spot := metaSpots import_.info

end Mimi.Loader
