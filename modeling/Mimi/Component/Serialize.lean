/-
Module: Mimi.Component.Serialize
Purpose: The Component IR, its consistency check, and the conversions between it and the serialized
  `.mimiabi` format of component/serialize.rs.
Trusted boundary: the order in which a hash set is walked, and the characters that the standard
  library prints as they are
-/
import Mimi.Component.Abi
import Mimi.Lib.Fallible
import Mimi.Lib.Spelling

namespace Mimi.Component

open Mimi.Lib

/-! ### The Component IR -/

/-- Primitive ABI types. -/
inductive AbiPrimitive where
  | i8 | i16 | i32 | i64
  | u8 | u16 | u32 | u64
  | f32 | f64
  | bool
  | intPtr
  | uIntPtr
deriving Repr, DecidableEq

/-- A reference to a type in the Component IR. -/
inductive AbiTypeRef where
  | primitive (p : AbiPrimitive)
  | named (name : String)
  | pointer (inner : AbiTypeRef)
  | slice (inner : AbiTypeRef)
  | opaque_ (name : String)
  | fatPointer (element : AbiTypeRef) (has_capacity : Bool)
  | void
deriving Repr, DecidableEq

inductive AbiSymbolKind where
  | function
  | externFunction
  | method
  | constructor
  | destructor
  | callback
deriving Repr, DecidableEq

inductive AbiCallbackCategory where
  | syncSameThread
  | syncCrossThread
  | asyncOneShot
  | asyncMultiShot
  | asyncSubscription
deriving Repr, DecidableEq

/-- Calling convention. -/
inductive AbiCallConv where
  | c
  | systemV
  | win64
  | fast
  | mimiInternal
deriving Repr, DecidableEq

structure AbiParam where
  name : String
  ty : AbiTypeRef
  is_nullable : Bool
deriving Repr, DecidableEq

/-- A function or method in the Component IR. -/
structure AbiSymbol where
  name : String
  kind : AbiSymbolKind
  params : List AbiParam
  ret : AbiTypeRef
  effects : List String
  is_unsafe : Bool
  call_conv : AbiCallConv
  callback_category : Option AbiCallbackCategory
deriving Repr, DecidableEq

structure AbiField where
  name : String
  ty : AbiTypeRef
  offset : Option Nat
deriving Repr, DecidableEq

structure AbiStruct where
  name : String
  fields : List AbiField
  is_repr_c : Bool
  size : Option Nat
  align : Option Nat
deriving Repr, DecidableEq

/-- C-style enum definition. -/
structure AbiEnum where
  name : String
  variants : List (String × Int)
  repr : AbiPrimitive
deriving Repr, DecidableEq

structure AbiAlias where
  name : String
  target : AbiTypeRef
deriving Repr, DecidableEq

/-- Opaque handle type. -/
structure AbiOpaque where
  name : String
  description : String
deriving Repr, DecidableEq

/-- A named type in the Component IR. -/
inductive AbiTypeDef where
  | struct (s : AbiStruct)
  | enum (e : AbiEnum)
  | alias_ (a : AbiAlias)
  | opaque_ (o : AbiOpaque)
deriving Repr, DecidableEq

def AbiTypeDef.name : AbiTypeDef → String
  | .struct s => s.name
  | .enum e => e.name
  | .alias_ a => a.name
  | .opaque_ o => o.name

structure ComponentIdentity where
  name : String
  version : String
  abi_version : Nat
deriving Repr, DecidableEq

structure ComponentIr where
  identity : ComponentIdentity
  exports : List AbiSymbol
  imports : List AbiSymbol
  types : List AbiTypeDef
deriving Repr, DecidableEq

/-! ### Consistency of the Component IR -/

inductive ComponentIrError where
  | duplicateExport (name : String)
  | duplicateImport (name : String)
  | exportImportConflict (name : String)
  | duplicateType (name : String)
  | unresolvedTypeRef (name context : String)
  | unsupportedTypeRef (ty context : String)
deriving Repr, DecidableEq

/-- The order in which the elements of a hash set come out, which depends on the set. -/
structure SetOrder where
  walk : List String → List String
  perm : ∀ names, (walk names).Perm names

/-- The names that cannot be inserted into the set `seen` any more, one after the other. -/
def duplicates (seen : List String) : List String → List String
  | [] => []
  | name :: names =>
      if name ∈ seen then name :: duplicates seen names
      else duplicates (name :: seen) names

/-- `Named` and `Opaque` references resolve to a known type, and the generators support the
reference. -/
def check_type_refs (known_types : List String) (context : String) :
    AbiTypeRef → List ComponentIrError
  | .named name => if name ∈ known_types then [] else [.unresolvedTypeRef name context]
  | .opaque_ name => if name ∈ known_types then [] else [.unresolvedTypeRef name context]
  | .pointer inner => check_type_refs known_types context inner
  | .slice inner =>
      .unsupportedTypeRef "Slice" context :: check_type_refs known_types context inner
  | .fatPointer element _ =>
      .unsupportedTypeRef "FatPointer" context :: check_type_refs known_types context element
  | .primitive _ => []
  | .void => []

/-- All problems of a Component IR. -/
def ComponentIr.validate (order : SetOrder) (ir : ComponentIr) : List ComponentIrError :=
  let exported := ir.exports.map AbiSymbol.name
  let imported := ir.imports.map AbiSymbol.name
  let defined := ir.types.map AbiTypeDef.name
  let conflicts := (order.walk exported.dedup).filter fun name => decide (name ∈ imported)
  (duplicates [] exported).map .duplicateExport ++
    (duplicates [] imported).map .duplicateImport ++
    conflicts.map .exportImportConflict ++
    (duplicates [] defined).map .duplicateType ++
    (ir.exports ++ ir.imports).flatMap fun sym =>
      check_type_refs defined sym.name sym.ret ++
        sym.params.flatMap fun param => check_type_refs defined sym.name param.ty

/-- The `Debug` text of an error of the Component IR. -/
def ComponentIrError.debug (table : CharTable) : ComponentIrError → List Char
  | .duplicateExport name => lit "DuplicateExport(" ++ debugStr table name ++ [')']
  | .duplicateImport name => lit "DuplicateImport(" ++ debugStr table name ++ [')']
  | .exportImportConflict name => lit "ExportImportConflict(" ++ debugStr table name ++ [')']
  | .duplicateType name => lit "DuplicateType(" ++ debugStr table name ++ [')']
  | .unresolvedTypeRef name context =>
      lit "UnresolvedTypeRef \x7b name: " ++ debugStr table name ++ lit ", context: " ++
        debugStr table context ++ lit " \x7d"
  | .unsupportedTypeRef ty context =>
      lit "UnsupportedTypeRef \x7b ty: " ++ debugStr table ty ++ lit ", context: " ++
        debugStr table context ++ lit " \x7d"

/-! ### Names of the enumerations -/

/-- The `Debug` text of a primitive. -/
def AbiPrimitive.debug : AbiPrimitive → String
  | .i8 => "I8"
  | .i16 => "I16"
  | .i32 => "I32"
  | .i64 => "I64"
  | .u8 => "U8"
  | .u16 => "U16"
  | .u32 => "U32"
  | .u64 => "U64"
  | .f32 => "F32"
  | .f64 => "F64"
  | .bool => "Bool"
  | .intPtr => "IntPtr"
  | .uIntPtr => "UIntPtr"

def try_parse_primitive (name : String) : Option AbiPrimitive :=
  match name with
  | "I8" => some .i8
  | "I16" => some .i16
  | "I32" => some .i32
  | "I64" => some .i64
  | "U8" => some .u8
  | "U16" => some .u16
  | "U32" => some .u32
  | "U64" => some .u64
  | "F32" => some .f32
  | "F64" => some .f64
  | "Bool" => some .bool
  | "IntPtr" => some .intPtr
  | "UIntPtr" => some .uIntPtr
  | _ => none

/-- The `Debug` text of a symbol kind. -/
def AbiSymbolKind.debug : AbiSymbolKind → String
  | .function => "Function"
  | .externFunction => "ExternFunction"
  | .method => "Method"
  | .constructor => "Constructor"
  | .destructor => "Destructor"
  | .callback => "Callback"

def try_parse_symbol_kind (name : String) : Option AbiSymbolKind :=
  match name with
  | "Function" => some .function
  | "ExternFunction" => some .externFunction
  | "Method" => some .method
  | "Constructor" => some .constructor
  | "Destructor" => some .destructor
  | "Callback" => some .callback
  | _ => none

/-- The `Debug` text of a calling convention. -/
def AbiCallConv.debug : AbiCallConv → String
  | .c => "C"
  | .systemV => "SystemV"
  | .win64 => "Win64"
  | .fast => "Fast"
  | .mimiInternal => "MimiInternal"

def try_parse_call_conv (name : String) : Option AbiCallConv :=
  match name with
  | "C" => some .c
  | "SystemV" => some .systemV
  | "Win64" => some .win64
  | "Fast" => some .fast
  | "MimiInternal" => some .mimiInternal
  | _ => none

/-- The `Debug` text of a callback category. -/
def AbiCallbackCategory.debug : AbiCallbackCategory → String
  | .syncSameThread => "SyncSameThread"
  | .syncCrossThread => "SyncCrossThread"
  | .asyncOneShot => "AsyncOneShot"
  | .asyncMultiShot => "AsyncMultiShot"
  | .asyncSubscription => "AsyncSubscription"

def try_parse_callback_category (name : String) : Option AbiCallbackCategory :=
  match name with
  | "SyncSameThread" => some .syncSameThread
  | "SyncCrossThread" => some .syncCrossThread
  | "AsyncOneShot" => some .asyncOneShot
  | "AsyncMultiShot" => some .asyncMultiShot
  | "AsyncSubscription" => some .asyncSubscription
  | _ => none

def primitiveSpelling : Spelling AbiPrimitive where
  text := AbiPrimitive.debug
  read := try_parse_primitive
  read_text := by
    intro p
    cases p <;> rfl
  text_of_read := by
    intro name p reads
    unfold try_parse_primitive at reads
    split at reads <;> cases reads <;> rfl

def symbolKindSpelling : Spelling AbiSymbolKind where
  text := AbiSymbolKind.debug
  read := try_parse_symbol_kind
  read_text := by
    intro kind
    cases kind <;> rfl
  text_of_read := by
    intro name kind reads
    unfold try_parse_symbol_kind at reads
    split at reads <;> cases reads <;> rfl

def callConvSpelling : Spelling AbiCallConv where
  text := AbiCallConv.debug
  read := try_parse_call_conv
  read_text := by
    intro conv
    cases conv <;> rfl
  text_of_read := by
    intro name conv reads
    unfold try_parse_call_conv at reads
    split at reads <;> cases reads <;> rfl

def callbackCategorySpelling : Spelling AbiCallbackCategory where
  text := AbiCallbackCategory.debug
  read := try_parse_callback_category
  read_text := by
    intro category
    cases category <;> rfl
  text_of_read := by
    intro name category reads
    unfold try_parse_callback_category at reads
    split at reads <;> cases reads <;> rfl

/-- Unknown primitives become `I64`. -/
def parse_primitive (name : String) : AbiPrimitive :=
  primitiveSpelling.readOr .i64 name

/-- Unknown symbol kinds become `Function`. -/
def parse_symbol_kind (name : String) : AbiSymbolKind :=
  symbolKindSpelling.readOr .function name

/-- Unknown calling conventions become `C`. -/
def parse_call_conv (name : String) : AbiCallConv :=
  callConvSpelling.readOr .c name

/-- Unknown callback categories become `SyncSameThread`. -/
def parse_callback_category (name : String) : AbiCallbackCategory :=
  callbackCategorySpelling.readOr .syncSameThread name

/-! ### Component IR to `.mimiabi` -/

def MimiAbiTypeRef.fromAbi : AbiTypeRef → MimiAbiTypeRef
  | .primitive p => .primitive p.debug
  | .named name => .named name
  | .pointer inner => .pointer (fromAbi inner)
  | .slice inner => .slice (fromAbi inner)
  | .opaque_ name => .opaque_ name
  | .fatPointer element has_capacity => .fatPointer (fromAbi element) has_capacity
  | .void => .void

def MimiAbiParam.fromAbi (p : AbiParam) : MimiAbiParam where
  name := p.name
  ty := .fromAbi p.ty
  is_nullable := p.is_nullable

def MimiAbiSymbol.fromAbi (sym : AbiSymbol) : MimiAbiSymbol where
  name := sym.name
  kind := sym.kind.debug
  params := sym.params.map .fromAbi
  ret := .fromAbi sym.ret
  effects := sym.effects
  is_unsafe := sym.is_unsafe
  call_conv := sym.call_conv.debug
  callback_category := sym.callback_category.map AbiCallbackCategory.debug

def MimiAbiField.fromAbi (f : AbiField) : MimiAbiField where
  name := f.name
  ty := .fromAbi f.ty
  offset := f.offset

def MimiAbiType.fromAbi : AbiTypeDef → MimiAbiType
  | .struct s => .struct s.name (s.fields.map .fromAbi) s.size s.align
  | .enum e => .enum e.name e.variants e.repr.debug
  | .alias_ a => .alias_ a.name (.fromAbi a.target)
  | .opaque_ o => .opaque_ o.name o.description

def MimiAbiIdentity.fromAbi (id : ComponentIdentity) : MimiAbiIdentity where
  name := id.name
  version := id.version
  abi_version := id.abi_version

/-- Current format version. -/
def MimiAbi.FORMAT_VERSION : Nat := 1

def MimiAbi.from_component_ir (ir : ComponentIr) : MimiAbi where
  format_version := FORMAT_VERSION
  identity := .fromAbi ir.identity
  exports := ir.exports.map .fromAbi
  imports := ir.imports.map .fromAbi
  types := ir.types.map .fromAbi

/-! ### `.mimiabi` to Component IR -/

def AbiTypeRef.fromMimi : MimiAbiTypeRef → AbiTypeRef
  | .primitive name => .primitive (parse_primitive name)
  | .named name => .named name
  | .pointer inner => .pointer (fromMimi inner)
  | .slice inner => .slice (fromMimi inner)
  | .opaque_ name => .opaque_ name
  | .fatPointer element has_capacity => .fatPointer (fromMimi element) has_capacity
  | .void => .void

def AbiParam.fromMimi (p : MimiAbiParam) : AbiParam where
  name := p.name
  ty := .fromMimi p.ty
  is_nullable := p.is_nullable

def AbiSymbol.fromMimi (sym : MimiAbiSymbol) : AbiSymbol where
  name := sym.name
  kind := parse_symbol_kind sym.kind
  params := sym.params.map .fromMimi
  ret := .fromMimi sym.ret
  effects := sym.effects
  is_unsafe := sym.is_unsafe
  call_conv := parse_call_conv sym.call_conv
  callback_category := sym.callback_category.map parse_callback_category

def AbiField.fromMimi (f : MimiAbiField) : AbiField where
  name := f.name
  ty := .fromMimi f.ty
  offset := f.offset

def AbiTypeDef.fromMimi : MimiAbiType → AbiTypeDef
  | .struct name fields size align =>
      -- the serialized form does not say whether the struct is `repr(C)`
      .struct { name, fields := fields.map .fromMimi, is_repr_c := true, size, align }
  | .enum name variants repr => .enum { name, variants, repr := parse_primitive repr }
  | .alias_ name target => .alias_ { name, target := .fromMimi target }
  | .opaque_ name description => .opaque_ { name, description }

def MimiAbi.to_component_ir (abi : MimiAbi) : ComponentIr where
  identity :=
    { name := abi.identity.name
      version := abi.identity.version
      abi_version := abi.identity.abi_version }
  exports := abi.exports.map .fromMimi
  imports := abi.imports.map .fromMimi
  types := abi.types.map .fromMimi

/-! ### Validation of a deserialized `.mimiabi` -/

/-- What the validation of a deserialized `.mimiabi` reports. -/
inductive MimiAbiError where
  | badFormatVersion (expected got : Nat)
  | unknownPrimitive (name : String)
  | unknownSymbolKind (name : String)
  | unknownCallConv (name : String)
  | unknownCallbackCategory (name : String)
  | invalidComponentIr (msg : List Char)
deriving Repr, DecidableEq

def validate_type_ref : MimiAbiTypeRef → Except MimiAbiError Unit
  | .primitive name => reject (try_parse_primitive name).isNone (.unknownPrimitive name)
  | .pointer inner => validate_type_ref inner
  | .slice inner => validate_type_ref inner
  | .fatPointer element _ => validate_type_ref element
  | .named _ => .ok ()
  | .opaque_ _ => .ok ()
  | .void => .ok ()

def validate_symbol (sym : MimiAbiSymbol) : Except MimiAbiError Unit := do
  reject (try_parse_symbol_kind sym.kind).isNone (.unknownSymbolKind sym.kind)
  reject (try_parse_call_conv sym.call_conv).isNone (.unknownCallConv sym.call_conv)
  sym.callback_category.toList.forM fun cat =>
    reject (try_parse_callback_category cat).isNone (.unknownCallbackCategory cat)
  validate_type_ref sym.ret
  sym.params.forM fun param => validate_type_ref param.ty

def validate_type : MimiAbiType → Except MimiAbiError Unit
  | .struct _ fields _ _ => fields.forM fun field => validate_type_ref field.ty
  | .enum _ _ repr => reject (try_parse_primitive repr).isNone (.unknownPrimitive repr)
  | .alias_ _ target => validate_type_ref target
  | .opaque_ _ _ => .ok ()

def MimiAbi.validate_deserialized (table : CharTable) (order : SetOrder) (abi : MimiAbi) :
    Except MimiAbiError Unit := do
  reject (abi.format_version != FORMAT_VERSION)
    (.badFormatVersion FORMAT_VERSION abi.format_version)
  (abi.exports ++ abi.imports).forM validate_symbol
  abi.types.forM validate_type
  match abi.to_component_ir.validate order with
  | [] => .ok ()
  | err :: _ => .error (.invalidComponentIr (err.debug table))

end Mimi.Component
