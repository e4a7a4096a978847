/-
Module: Mimi.Checker.LinearKind
Purpose: The black-box analysis of generic functions: does every path of a body hand on or drop a parameter that may be
  instantiated with a linear value.
Trusted boundary: human-reviewed translation of `src/core/checker/linear_kind.rs`; the guard strings `name#index#mode`
  are the triples they spell, since no identifier contains `#`
-/
import Mathlib
import Mimi.Checker.Names
import Mimi.Lib.Dialogue

namespace Mimi.Checker

open Mimi.Ast
open Mimi.Lib (Dialogue)

/-- What the analysis reads of the checker: the items of the file, the signatures and the generic parameters of the
functions in scope, and the table of builtin callables. -/
structure LinearChecker where
  items : List Item
  funcs : String → Option (List Ty × Ty)
  func_generics : String → Option (List GenericParam)
  is_builtin_callable : String → Bool

/-! ### Types -/

mutual

/-- A node of a type satisfies a predicate. -/
def type_any (pred : Ty → Bool) : Ty → Bool
  | ty@(.located _ inner) => pred ty || type_any pred inner
  | ty@(.name _ args) => pred ty || types_any pred args
  | ty@(.tuple elems) => pred ty || types_any pred elems
  | ty@(.result ok err) => pred ty || type_any pred ok || type_any pred err
  | ty@(.func params ret) | ty@(.externFunc params ret) => pred ty || types_any pred params || type_any pred ret
  | ty@(.option inner) | ty@(.ref _ inner) | ty@(.refMut _ inner) | ty@(.shared inner) | ty@(.weak inner)
  | ty@(.rawPtr inner) | ty@(.rawPtrMut inner) | ty@(.cBuffer inner) | ty@(.array inner _) | ty@(.slice inner)
  | ty@(.newtype _ inner) | ty@(.forAll _ inner) => pred ty || type_any pred inner
  | ty => pred ty

def types_any (pred : Ty → Bool) : List Ty → Bool
  | [] => false
  | ty :: tys => type_any pred ty || types_any pred tys

end

/-- A type is the option type. -/
def is_option : Ty → Bool
  | .located _ ty => is_option ty
  | .name n _ => n == "Option"
  | .option _ => true
  | _ => false

/-- Whether the elements are options, at each level of a nested list type. -/
def option_element_chain : Ty → List Bool
  | .located _ ty => option_element_chain ty
  | .name n [elem] => if n == "List" then is_option elem :: option_element_chain elem else []
  | _ => []

namespace LinearChecker

variable (checker : LinearChecker)

def find_func_def_ast (name : String) : Option FuncDef :=
  checker.items.findSome? fun item =>
    match item with
    | .func f => if f.name = name then some f else none
    | _ => none

/-- The type of a parameter mentions a generic parameter of its function. -/
def param_is_generic_position (name : String) (param_index : Nat) : Bool :=
  match checker.func_generics name, (checker.funcs name).bind fun signature => signature.1[param_index]? with
  | some generics, some param_ty =>
      generics.any fun gp =>
        type_any (fun cand => match cand.unlocated with
          | .name n _ => n == gp.name
          | _ => false) param_ty
  | _, _ => false

end LinearChecker

/-! ### Names in expressions, statements and patterns -/

mutual

/-- One of the names stands in an expression, as far as the analysis looks. -/
def expr_uses_name (names : List String) : Expr → Bool
  | .located _ e => expr_uses_name names e
  | .ident n => names.contains n
  | .field obj _ | .tupleIndex obj _ | .index obj _ | .unary .deref obj => expr_uses_name names obj
  | .call callee args => expr_uses_name names callee || exprs_use_name names args
  | .tuple elems | .list elems => exprs_use_name names elems
  | .binary _ l r => expr_uses_name names l || expr_uses_name names r
  | .record _ fields _ => fields_use_name names fields
  | .cast inner _ | .try_ inner | .await inner | .spawn inner => expr_uses_name names inner
  | .match_ scrutinee arms => expr_uses_name names scrutinee || arms_use_name names arms
  | .lambda _ _ body | .block body => block_uses_name names body
  | .namedArg _ value => expr_uses_name names value
  | .if_ cond then_ else_ => expr_uses_name names cond || block_uses_name names then_ || else_uses_name names else_
  | _ => false

def exprs_use_name (names : List String) : List Expr → Bool
  | [] => false
  | e :: es => expr_uses_name names e || exprs_use_name names es

def expr_opt_uses_name (names : List String) : Option Expr → Bool
  | none => false
  | some e => expr_uses_name names e

def fields_use_name (names : List String) : List RecordFieldExpr → Bool
  | [] => false
  | ⟨_, _, value⟩ :: fields => expr_uses_name names value || fields_use_name names fields

def arms_use_name (names : List String) : List MatchArm → Bool
  | [] => false
  | ⟨_, _, guard, body⟩ :: arms =>
      expr_opt_uses_name names guard || expr_uses_name names body || arms_use_name names arms

def stmt_uses_name (names : List String) : Stmt → Bool
  | .located _ s => stmt_uses_name names s
  | .let_ pat _ init _ _ =>
      match init with
      | some e => expr_uses_name names e || pattern_uses_name names pat
      | none => false
  | .assign target value => expr_uses_name names target || expr_uses_name names value
  | .return_ value => expr_opt_uses_name names value
  | .drop e | .expr e => expr_uses_name names e
  | .if_ cond then_ else_ => expr_uses_name names cond || block_uses_name names then_ || else_uses_name names else_
  | .ifLet pat init then_ else_ =>
      expr_uses_name names init || pattern_uses_name names pat || block_uses_name names then_ ||
        else_uses_name names else_
  | .while_ cond body => expr_uses_name names cond || block_uses_name names body
  | .whileLet pat init body | .for_ pat init body =>
      expr_uses_name names init || pattern_uses_name names pat || block_uses_name names body
  | .loop body | .block body | .arena body | .unsafe_ body | .ieeeFloat body | .parasteps body | .onFailure body
  | .defer body => block_uses_name names body
  | .func f => func_uses_name names f
  | _ => false

def func_uses_name (names : List String) : FuncDef → Bool
  | ⟨_, _, _, _, _, body, _, _, _, _, _, _, _, _, _⟩ => block_uses_name names body

def block_uses_name (names : List String) : List Stmt → Bool
  | [] => false
  | s :: ss => stmt_uses_name names s || block_uses_name names ss

def else_uses_name (names : List String) : Option (List Stmt) → Bool
  | none => false
  | some body => block_uses_name names body

def pattern_uses_name (names : List String) : Pattern → Bool
  | ⟨_, kind⟩ => pattern_kind_uses_name names kind

def pattern_kind_uses_name (names : List String) : PatternKind → Bool
  | .variable_ n => names.contains n
  | .tuple ps | .array ps => patterns_use_name names ps
  | .constructor _ ps => pattern_fields_use_name names ps
  | .slice ps rest => patterns_use_name names ps || rest_uses_name names rest
  | _ => false

def patterns_use_name (names : List String) : List Pattern → Bool
  | [] => false
  | p :: ps => pattern_uses_name names p || patterns_use_name names ps

def pattern_fields_use_name (names : List String) : List (String × Pattern) → Bool
  | [] => false
  | (_, p) :: ps => pattern_uses_name names p || pattern_fields_use_name names ps

def rest_uses_name (names : List String) : Option Pattern → Bool
  | none => false
  | some p => pattern_uses_name names p

end

/-- A call of a name that is no function and no builtin constructs data. -/
def LinearChecker.constructs (checker : LinearChecker) (callee : Expr) : Bool :=
  match callee.unlocated with
  | .ident n => !checker.is_builtin_callable n && (checker.funcs n).isNone
  | _ => false

mutual

/-- The value of a name stands whole in an expression, in containers and data constructors. -/
def expr_whole_contains (checker : LinearChecker) (name : String) : Expr → Bool
  | .located _ e => expr_whole_contains checker name e
  | .ident n => n == name
  | .tuple elems | .list elems => exprs_whole_contain checker name elems
  | .record _ fields _ => fields_whole_contain checker name fields
  | .call callee args => checker.constructs callee && exprs_whole_contain checker name args
  | _ => false

def exprs_whole_contain (checker : LinearChecker) (name : String) : List Expr → Bool
  | [] => false
  | e :: es => expr_whole_contains checker name e || exprs_whole_contain checker name es

def fields_whole_contain (checker : LinearChecker) (name : String) : List RecordFieldExpr → Bool
  | [] => false
  | ⟨_, _, value⟩ :: fields => expr_whole_contains checker name value || fields_whole_contain checker name fields

end

def pattern_binds_ident (p : Pattern) : Option String :=
  match p.kind with
  | .variable_ n => some n
  | _ => none

/-- The names a pattern binds, and whether it throws a part of the value away. -/
structure PatternInfo where
  names : List String
  drops : Bool
deriving DecidableEq, Repr

mutual

/-- `None` parses as a variable and binds nothing. -/
def collect_pattern : PatternKind → PatternInfo → PatternInfo
  | .variable_ name, info => if name == "None" then info else { info with names := info.names ++ [name] }
  | .wildcard, info => { info with drops := true }
  | .literal _, info => info
  | .constructor _ fields, info => collect_fields fields info
  | .tuple ps, info | .array ps, info => collect_patterns ps info
  | .slice ps rest, info => collect_rest rest (collect_patterns ps info)

def collect_pattern_of : Pattern → PatternInfo → PatternInfo
  | ⟨_, kind⟩, info => collect_pattern kind info

def collect_patterns : List Pattern → PatternInfo → PatternInfo
  | [], info => info
  | p :: ps, info => collect_patterns ps (collect_pattern_of p info)

def collect_fields : List (String × Pattern) → PatternInfo → PatternInfo
  | [], info => info
  | (_, p) :: fields, info => collect_fields fields (collect_pattern_of p info)

def collect_rest : Option Pattern → PatternInfo → PatternInfo
  | none, info => info
  | some p, info => collect_pattern_of p info

end

def pattern_binding_info (kind : PatternKind) : PatternInfo := collect_pattern kind ⟨[], false⟩

/-! ### The path-sensitive flow -/

/-- The names that still carry an obligation, and those whose value has gone. -/
structure FlowState where
  live : List String
  consumed : List String
deriving DecidableEq, Repr

namespace FlowState

def any_uses (state : FlowState) (e : Expr) : Bool :=
  expr_uses_name state.live e || expr_uses_name state.consumed e

def any_uses_stmt (state : FlowState) (s : Stmt) : Bool :=
  stmt_uses_name state.live s || stmt_uses_name state.consumed s

/-- A consumed name stands in an expression. -/
def reuses (state : FlowState) (e : Expr) : Bool := state.consumed.any fun n => expr_uses_name [n] e

def consume (state : FlowState) (name : String) : FlowState where
  live := state.live.filter fun w => w != name
  consumed := if state.consumed.contains name then state.consumed else state.consumed ++ [name]

def bind_live (state : FlowState) (name : String) : FlowState := { state with live := state.live ++ [name] }

end FlowState

/-- A query: a function, the index of a parameter, and whether dropping the value is allowed. -/
structure BlackboxKey where
  name : String
  param_index : Nat
  allow_drop : Bool
deriving DecidableEq, Repr

/-- The fields of the checker that describe the parameter and the loops around the statement.  Of the element flag only
`Some(true)` is ever told from the rest. -/
structure BlackboxFlags where
  blackbox_param_scrutinee_option : Bool
  blackbox_element_option_chain : List Bool
  blackbox_current_element_option : Bool
deriving DecidableEq, Repr

/-- What the flow through a body asks of the rest of the checker: the verdict on another parameter, with the element
flag under which the callee will be analysed, and whether an analysis of a function is open. -/
inductive Question where
  | sound (key : BlackboxKey) (element_option : Bool)
  | visiting (name : String)
deriving DecidableEq, Repr

/-- The flow reads and writes the flags and may reject. -/
abbrev Flow := OptionT (StateT BlackboxFlags (Dialogue Question Bool))

def ask (q : Question) : Flow Bool := OptionT.lift (StateT.lift (Dialogue.put q))

/-- Reject unless a condition holds. -/
def require (condition : Bool) : Flow Unit := if condition then pure () else failure

/-- A body handles all the names it starts with. -/
def linear_blackbox_body (flow : FlowState → Flow FlowState) (live_in : List String) : Flow Bool :=
  OptionT.lift do
    let post ← (flow ⟨live_in, []⟩).run
    pure (post.any fun state => state.live.isEmpty)

section Calls

variable (checker : LinearChecker) (allow_drop : Bool)

/-- Each live name goes whole into exactly one argument; `wrapped` is the flow through that argument. -/
def transfer_wrapped_args (args : List Expr) (wrapped : String → Flow FlowState) :
    List String → FlowState → Bool → Flow (Bool × FlowState)
  | [], state, wrapped_any => pure (wrapped_any, state)
  | n :: ns, state, _ => do
      require ((args.filter fun a => expr_uses_name [n] a).length == 1)
      let sub ← wrapped n
      require sub.live.isEmpty
      transfer_wrapped_args args wrapped ns (state.consume n) true

/-- The callee takes the value and its result carries it.  A call of a function whose analysis is open is taken to carry
it. -/
def transfer_out (callee_name : String) (arg_index : Nat) : Flow Bool := do
  if checker.param_is_generic_position callee_name arg_index then
    let self_recursive ← ask (.visiting callee_name)
    if self_recursive then
      pure true
    else
      let flags ← get
      let sound ← ask (.sound ⟨callee_name, arg_index, allow_drop⟩ flags.blackbox_current_element_option)
      require sound
      ask (.sound ⟨callee_name, arg_index, false⟩ flags.blackbox_current_element_option)
  else
    pure false

/-- Each live name goes whole into exactly one parameter of a known function. -/
def transfer_params (callee_name : String) (args : List Expr) (param_tys : List Ty) :
    List String → Bool → FlowState → Flow (Bool × FlowState)
  | [], returns_value, state => pure (returns_value, state)
  | n :: ns, returns_value, state =>
      match args.findIdx? fun a => expr_whole_contains checker n a with
      | none => failure
      | some arg_index => do
          require (!decide ((args.filter fun a => expr_whole_contains checker n a).length > 1))
          require (param_tys[arg_index]?).isSome
          let out ← transfer_out checker allow_drop callee_name arg_index
          transfer_params callee_name args param_tys ns (returns_value || out) (state.consume n)

/-- The flow through a call, and whether its result carries a value that went in.  `lambdas` checks the function
literals among the arguments. -/
def call_transfer (callee : Expr) (args : List Expr) (lambdas : Flow Unit) (wrapped : String → Flow FlowState)
    (state : FlowState) : Flow (Bool × FlowState) :=
  let uses := fun names => expr_uses_name names callee || args.any fun a => expr_uses_name names a
  let reused := state.consumed.any fun n => uses [n]
  if !uses state.live && !reused then pure (false, state)
  else do
    require (!reused)
    lambdas
    match callee.unlocated with
    | .field receiver _ => do
        require (!expr_uses_name state.live receiver && !state.reuses receiver)
        transfer_wrapped_args args wrapped state.live state false
    | .ident callee_name => do
        require (!checker.is_builtin_callable callee_name)
        match checker.funcs callee_name with
        | none => transfer_wrapped_args args wrapped state.live state false
        | some (param_tys, _) => transfer_params checker allow_drop callee_name args param_tys state.live false state
    | _ => failure

/-- The only live name that an expression holds whole, when no other live name stands in it. -/
def whole_candidate (state : FlowState) (e : Expr) : Flow String :=
  match state.live.filter fun n => expr_whole_contains checker n e with
  | [v] => do
      require (!state.live.any fun n => n != v && expr_uses_name [n] e)
      pure v
  | _ => failure

/-- The flow through a match; `arms_flow` is the flow through its arms. -/
def match_flow (scrutinee : Expr) (arms : List MatchArm) (arms_flow : String → Flow Unit) (state : FlowState) :
    Flow FlowState :=
  if !state.any_uses scrutinee && !arms.any fun a => expr_uses_name state.live a.body then pure state
  else do
    let v ← whole_candidate checker state scrutinee
    arms_flow v
    pure (state.consume v)

/-- The branches of a conditional agree on every name. -/
def join (state then_post else_post : FlowState) : Flow FlowState := do
  let post ← state.live.foldlM (fun (post : FlowState) n => do
    let alive_then := then_post.live.contains n
    require (alive_then == else_post.live.contains n)
    require (!(alive_then && (then_post.consumed.contains n || else_post.consumed.contains n)))
    pure (if alive_then then post.bind_live n else post.consume n)) ⟨[], []⟩
  state.consumed.foldlM (fun (post : FlowState) n => do
    let c_then := then_post.consumed.contains n
    require (c_then == else_post.consumed.contains n)
    pure (if c_then then post.consume n else post)) post

/-- A live name that an explicit drop touches is dropped whole. -/
def drop_flow (e : Expr) (state : FlowState) : Flow FlowState := do
  require (!state.reuses e)
  let touched := state.live.filter fun n => expr_uses_name [n] e
  require (touched.isEmpty || allow_drop)
  require (!state.live.any fun n => expr_uses_name [n] e && !expr_whole_contains checker n e)
  pure (touched.foldl FlowState.consume state)

end Calls

/-- A call or a match. -/
def is_transfer (e : Expr) : Bool :=
  match e.unlocated with
  | .call _ _ | .match_ _ _ => true
  | _ => false

section Bodies

variable (checker : LinearChecker) (allow_drop : Bool)

mutual

/-- An expression whose value leaves the body takes every live name along. -/
def expr_tail_flow : Expr → FlowState → Flow FlowState
  | .located _ e, state => expr_tail_flow e state
  | e@(.call callee args), state => do
      require (!state.reuses e)
      let (_, post) ← call_transfer checker allow_drop callee args (lambda_args args) (wrapped_args args) state
      require post.live.isEmpty
      pure post
  | e@(.match_ scrutinee arms), state => do
      require (!state.reuses e)
      let post ← match_flow checker scrutinee arms (arms_flow arms) state
      require post.live.isEmpty
      pure post
  | e@(.block stmts), state => do
      require (!state.reuses e)
      let post ← stmts_flow stmts state
      require post.live.isEmpty
      pure post
  | e, state => do
      require (!state.reuses e)
      require (state.live.all fun n => expr_whole_contains checker n e)
      pure { state with live := [] }

def arms_flow : List MatchArm → String → Flow Unit
  | [], _ => pure ()
  | ⟨_, pat, guard, body⟩ :: arms, v => do
      require (!guard.any fun g => expr_uses_name [v] g)
      require (!expr_uses_name [v] body)
      let info := pattern_binding_info pat.kind
      require (!info.drops || allow_drop)
      if info.names.isEmpty then
        arms_flow arms v
      else
        let post ← expr_tail_flow body ⟨info.names, []⟩
        require post.live.isEmpty
        arms_flow arms v

/-- A function literal handles each of its parameters. -/
def lambda_flow : Expr → Flow Unit
  | .located _ e => lambda_flow e
  | .lambda params _ body => do
      let ok ← linear_blackbox_body (stmts_flow body) (params.map fun p => p.name)
      require ok
  | _ => pure ()

def lambda_args : List Expr → Flow Unit
  | [] => pure ()
  | arg :: args => do
      lambda_flow arg
      lambda_args args

/-- The flow of a name through the first argument that uses it. -/
def wrapped_args : List Expr → String → Flow FlowState
  | [], _ => failure
  | arg :: args, n => if expr_uses_name [n] arg then wrapped_arg arg n else wrapped_args args n

def wrapped_arg : Expr → String → Flow FlowState
  | .located _ e, n => wrapped_arg e n
  | .call callee args, n => do
      let (_, sub) ← call_transfer checker allow_drop callee args (lambda_args args) (wrapped_args args) ⟨[n], []⟩
      pure sub
  | .match_ scrutinee arms, n => match_flow checker scrutinee arms (arms_flow arms) ⟨[n], []⟩
  | arg, n => do
      require (expr_whole_contains checker n arg)
      pure ⟨[], []⟩

/-- An expression in the middle of a body. -/
def expr_flow : Expr → FlowState → Flow FlowState
  | .located _ e, state => expr_flow e state
  | .call callee args, state => do
      let (_, next) ← call_transfer checker allow_drop callee args (lambda_args args) (wrapped_args args) state
      pure next
  | .match_ scrutinee arms, state => match_flow checker scrutinee arms (arms_flow arms) state
  | e, state => if state.any_uses e then failure else pure state

/-- A binding whose initialiser uses a live name: an alias, or a call whose result carries the value. -/
def let_init_flow (bound : Option String) : Expr → FlowState → Flow FlowState
  | .located _ e, state => let_init_flow bound e state
  | .ident src, state =>
      match bound with
      | some q => if state.live.contains src then pure ((state.consume src).bind_live q) else failure
      | none => failure
  | .call callee args, state => do
      let (returns_value, next) ←
        call_transfer checker allow_drop callee args (lambda_args args) (wrapped_args args) state
      if returns_value then
        match bound with
        | some y => pure (next.bind_live y)
        | none => failure
      else
        pure next
  | _, _ => failure

def let_flow (pat : Pattern) : Option Expr → FlowState → Flow FlowState
  | none, state => pure state
  | some e, state => do
      lambda_flow e
      if state.any_uses e then
        require (!state.reuses e)
        let_init_flow (pattern_binds_ident pat) e state
      else
        pure state

/-- An assigned value that uses a live name: a call, or a sum of a transfer and plain data. -/
def assign_flow : Expr → FlowState → Flow FlowState
  | .located _ e, state => assign_flow e state
  | .call callee args, state => do
      let (_, next) ← call_transfer checker allow_drop callee args (lambda_args args) (wrapped_args args) state
      pure next
  | .binary _ left right, state =>
      if !state.any_uses right && is_transfer left then expr_flow left state
      else if !state.any_uses left && is_transfer right then expr_flow right state
      else failure
  | _, _ => failure

def return_flow : Option Expr → FlowState → Flow FlowState
  | none, state => do
      require state.live.isEmpty
      pure state
  | some e, state => expr_tail_flow e state

def else_flow : Option (List Stmt) → FlowState → Flow FlowState
  | none, state => pure state
  | some body, state => stmts_flow body state

/-- A bare expression at the end of a block is its value. -/
def stmt_flow (last : Bool) : Stmt → FlowState → Flow FlowState
  | .located _ s, state => stmt_flow last s state
  | .let_ pat _ init _ _, state => let_flow pat init state
  | .assign target value, state => do
      require (!state.any_uses target)
      require (!state.reuses value)
      if state.any_uses value then assign_flow value state else pure state
  | .return_ value, state => return_flow value state
  | .drop e, state => drop_flow checker allow_drop e state
  | .expr e, state => if last then expr_tail_flow e state else expr_flow e state
  | .if_ cond then_ else_, state => do
      require (!state.any_uses cond)
      let then_post ← stmts_flow then_ state
      let else_post ← else_flow else_ state
      join state then_post else_post
  | .ifLet pat init then_ else_, state =>
      if !state.any_uses init then pure state
      else do
        require (!state.reuses init)
        let v ← whole_candidate checker state init
        let info := pattern_binding_info pat.kind
        require (!block_uses_name [v] then_ && !else_uses_name [v] else_)
        let then_post ← stmts_flow then_ ⟨info.names, []⟩
        require then_post.live.isEmpty
        require (!info.names.isEmpty || allow_drop)
        -- Only an option may fail to match without losing anything.
        let flags ← get
        require (flags.blackbox_param_scrutinee_option || flags.blackbox_current_element_option)
        let else_post ← else_flow else_ ⟨[], []⟩
        require else_post.live.isEmpty
        pure (state.consume v)
  | s@(.while_ _ _), state | s@(.whileLet _ _ _), state | s@(.loop _), state =>
      if state.any_uses_stmt s then failure else pure state
  | s@(.for_ var iterable body), state =>
      if !state.any_uses_stmt s then pure state
      else do
        require (!state.consumed.any fun n => stmt_uses_name [n] s)
        let v ← whole_candidate checker state iterable
        let info := pattern_binding_info var.kind
        require (!info.drops || allow_drop)
        require (!block_uses_name [v] body)
        if info.names.isEmpty then
          pure (state.consume v)
        else
          -- The body runs under the last flag of the chain and an empty chain; the loop leaves the shorter chain.
          let flags ← get
          let chain := flags.blackbox_element_option_chain
          set { flags with
            blackbox_element_option_chain := []
            blackbox_current_element_option := chain.getLast? == some true }
          let ok ← linear_blackbox_body (stmts_flow body) info.names
          modify fun after => { after with
            blackbox_element_option_chain := chain.dropLast
            blackbox_current_element_option := flags.blackbox_current_element_option }
          require ok
          pure (state.consume v)
  | .block body, state | .arena body, state | .unsafe_ body, state | .ieeeFloat body, state | .parasteps body, state
  | .onFailure body, state | .defer body, state => stmts_flow body state
  | _, state => pure state

/-- Once no name is live, the statements behind are only searched for consumed names. -/
def stmts_flow : List Stmt → FlowState → Flow FlowState
  | [], state => pure state
  | s :: rest, state => do
      let post ← stmt_flow rest.isEmpty s state
      if post.live.isEmpty then
        require (!rest.any fun s => post.consumed.any fun n => stmt_uses_name [n] s)
        pure post
      else
        stmts_flow rest post

end

end Bodies

/-! ### The verdicts and their memory -/

namespace LinearChecker

variable (checker : LinearChecker)

/-- The definition of a function and the parameter of a query. -/
def find_param (key : BlackboxKey) : Option (FuncDef × Param) :=
  (checker.find_func_def_ast key.name).bind fun func => (func.params[key.param_index]?).map fun param => (func, param)

/-- The flow through the body of a queried function, under the flags of its parameter and the element flag found on
entry. -/
def analysis (key : BlackboxKey) (func : FuncDef) (param : Param) (element_option : Bool) :
    Dialogue Question Bool (Option Bool × BlackboxFlags) :=
  (linear_blackbox_body (stmts_flow checker key.allow_drop func.body) [param.name]).run.run
    { blackbox_param_scrutinee_option := is_option param.ty
      blackbox_element_option_chain := option_element_chain param.ty
      blackbox_current_element_option := element_option }

end LinearChecker

/-- The caches of the checker, by function and parameter, and its recursion guards.  The last three fields are ghosts:
every query answered, every slot written by an analysis, and whether the checker has read a slot that none had written,
met the open analysis of a function in another one, or started an analysis inside a loop over options. -/
structure BlackboxState where
  linear_blackbox_cache : String → Option (List Bool)
  linear_blackbox_transfer_cache : String → Option (List Bool)
  linear_blackbox_visiting : List BlackboxKey
  answered : List (BlackboxKey × Bool)
  stored : List BlackboxKey
  strayed : Bool

namespace BlackboxState

/-- The state of a new checker. -/
def fresh : BlackboxState where
  linear_blackbox_cache := fun _ => none
  linear_blackbox_transfer_cache := fun _ => none
  linear_blackbox_visiting := []
  answered := []
  stored := []
  strayed := false

variable (s : BlackboxState)

def cache (allow_drop : Bool) : String → Option (List Bool) :=
  if allow_drop then s.linear_blackbox_cache else s.linear_blackbox_transfer_cache

def cached (key : BlackboxKey) : Option Bool :=
  (s.cache key.allow_drop key.name).bind fun entry => entry[key.param_index]?

/-- The entry of a function after a write: it is padded with `false` up to the slot. -/
def entryWith (key : BlackboxKey) (ok : Bool) : List Bool :=
  let entry := (s.cache key.allow_drop key.name).getD []
  (entry ++ List.replicate (key.param_index + 1 - entry.length) false).set key.param_index ok

def store (key : BlackboxKey) (ok : Bool) : BlackboxState :=
  let entry := s.entryWith key ok
  { s with
    linear_blackbox_cache :=
      if key.allow_drop then Function.update s.linear_blackbox_cache key.name (some entry)
      else s.linear_blackbox_cache
    linear_blackbox_transfer_cache :=
      if key.allow_drop then s.linear_blackbox_transfer_cache
      else Function.update s.linear_blackbox_transfer_cache key.name (some entry)
    stored := key :: s.stored }

/-- A guard of the function is open. -/
def visits (name : String) : Bool := s.linear_blackbox_visiting.any fun guard => guard.name == name

def enter (key : BlackboxKey) : BlackboxState :=
  { s with linear_blackbox_visiting := key :: s.linear_blackbox_visiting }

def leave (key : BlackboxKey) : BlackboxState :=
  { s with linear_blackbox_visiting := s.linear_blackbox_visiting.erase key }

def strayIf (p : Bool) : BlackboxState := { s with strayed := s.strayed || p }

def reply (key : BlackboxKey) (b : Bool) : Bool × BlackboxState :=
  (b, { s with answered := (key, b) :: s.answered })

end BlackboxState

/-- The answers to the questions of the analysis of `key`; `sound` answers the queries. -/
def answerIn (sound : BlackboxKey → Bool → BlackboxState → Option (Bool × BlackboxState)) (key : BlackboxKey) :
    Question → BlackboxState → Option (Bool × BlackboxState)
  | .sound callee element_option, s => sound callee element_option s
  | .visiting name, s => some (s.visits name, s.strayIf (s.visits name && name != key.name))

/-- `generic_linear_blackbox_sound` with a bound on the nesting of analyses. -/
def soundWithin (checker : LinearChecker) :
    Nat → BlackboxKey → Bool → BlackboxState → Option (Bool × BlackboxState)
  | 0, _, _, _ => none
  | fuel + 1, key, element_option, s =>
      if !checker.param_is_generic_position key.name key.param_index then some (s.reply key true)
      else
        match s.cached key with
        | some v => some ((s.strayIf (!s.stored.contains key)).reply key v)
        | none =>
            if s.linear_blackbox_visiting.contains key then some ((s.strayIf true).reply key false)
            else
              match checker.find_param key with
              | none => some (s.reply key false)
              | some (func, param) =>
                  ((checker.analysis key func param element_option).run
                      (answerIn (soundWithin checker fuel) key) ((s.strayIf element_option).enter key)).map
                    fun r =>
                      let ok := r.1.1.getD false
                      ((r.2.leave key).store key ok).reply key ok

/-- Every guard that can be open: an analysis needs a function of the file and one of its parameters. -/
def LinearChecker.guards (checker : LinearChecker) : List BlackboxKey :=
  checker.items.flatMap fun item =>
    match item with
    | .func f => (List.range f.params.length).flatMap fun i => [⟨f.name, i, true⟩, ⟨f.name, i, false⟩]
    | _ => []

/-- The parameter of a generic function hands on or drops its value on every path, from the memory or by an analysis of
the body.  A query from outside finds no loop open. -/
def generic_linear_blackbox_sound (checker : LinearChecker) (key : BlackboxKey) (s : BlackboxState) :
    Option (Bool × BlackboxState) :=
  soundWithin checker (checker.guards.length + 1) key false s

/-- A sequence of queries. -/
def ask_all (checker : LinearChecker) : List BlackboxKey → BlackboxState → Option (List Bool × BlackboxState)
  | [], s => some ([], s)
  | key :: keys, s =>
      (generic_linear_blackbox_sound checker key s).bind fun r =>
        (ask_all checker keys r.2).map fun rest => (r.1 :: rest.1, rest.2)

end Mimi.Checker
