import Aomp.Foundations.Bytes

/-!
# The argument buffer

`EmitHostexecAllocAndExecFns` emits the code that packs the arguments of `printf`, `fprintf`
and the `hostexec` functions into one buffer: the length and the number of arguments, a key
for each argument, the data with dummy words that align it, and the bytes of the strings.
-/
namespace Aomp.Arguments

open Foundations

/-- `llvm::Type::TypeID`, of which the host has a copy. -/
inductive TypeID
  | HalfTyID
  | BFloatTyID
  | FloatTyID
  | DoubleTyID
  | X86_FP80TyID
  | FP128TyID
  | PPC_FP128TyID
  | VoidTyID
  | LabelTyID
  | MetadataTyID
  | X86_AMXTyID
  | TokenTyID
  | IntegerTyID
  | FunctionTyID
  | PointerTyID
  | StructTyID
  | ArrayTyID
  | FixedVectorTyID
  | ScalableVectorTyID
  | TypedPointerTyID
  | TargetExtTyID
  deriving DecidableEq

namespace TypeID

def all : List TypeID :=
  [HalfTyID, BFloatTyID, FloatTyID, DoubleTyID, X86_FP80TyID, FP128TyID, PPC_FP128TyID, VoidTyID,
    LabelTyID, MetadataTyID, X86_AMXTyID, TokenTyID, IntegerTyID, FunctionTyID, PointerTyID,
    StructTyID, ArrayTyID, FixedVectorTyID, ScalableVectorTyID, TypedPointerTyID, TargetExtTyID]

def value (id : TypeID) : ℕ := all.idxOf id

def ofValue (n : ℕ) : Option TypeID := all[n]?

end TypeID

/-- The types of the entries of the buffer. -/
inductive Ty
  | Int32Ty
  | Int64Ty
  | DoubleTy
  | PtrTy
  deriving DecidableEq

namespace Ty

def getTypeAllocSize : Ty → ℕ
  | Int32Ty => 4
  | _ => 8

def getTypeID : Ty → TypeID
  | Int32Ty | Int64Ty => .IntegerTyID
  | DoubleTy => .DoubleTyID
  | PtrTy => .PointerTyID

def getScalarSizeInBits : Ty → ℕ
  | Int32Ty => 32
  | Int64Ty | DoubleTy => 64
  | PtrTy => 0

theorem getTypeAllocSize_cases (ty : Ty) : ty.getTypeAllocSize = 4 ∨ ty.getTypeAllocSize = 8 := by
  cases ty <;> simp [getTypeAllocSize]

end Ty

/-- The expressions of string arguments without parentheses and casts, as far as the compiler
tells them apart. `instr` is what the pointer points to when the call is executed. -/
inductive StringExpr
  /-- a string literal -/
  | literal (SL : List Byte)
  /-- an expression that is not an lvalue, for example a call -/
  | rvalue (instr : ℕ → Byte)
  /-- a variable, `getInit` being its initializer where that is a string literal -/
  | declRef (isConstantArrayType : Bool) (getInit : Option (List Byte)) (instr : ℕ → Byte)
  /-- another lvalue: a member, a subscript, what a pointer points to -/
  | lvalue (instr : ℕ → Byte)

/-- `__strlen_max`: the length with the NUL, up to a maximum. -/
def strlen_max (instr : ℕ → Byte) (maxstrlen : ℕ) : ℕ :=
  match (List.range maxstrlen).find? fun i => instr i = 0 with
  | some i => i + 1
  | none => maxstrlen

namespace StringExpr

def isVarString : StringExpr → Bool
  | rvalue _ | declRef _ none _ => true
  | literal _ | declRef _ (some _) _ | lvalue _ => false

/-- The literal of a string of constant length, `none` where its casts fail: a variable is
taken for its initializer. -/
def getSL : StringExpr → Option (List Byte)
  | literal SL => some SL
  | declRef false (some SL) _ => some SL
  | _ => none

def instr : StringExpr → ℕ → Byte
  | literal SL => fun i => SL.getD i 0
  | rvalue instr | declRef _ _ instr | lvalue instr => instr

/-- The bytes that the fourth pass copies behind the data. Their number is the `VarStrLength`
or `ArgStrLen` that the third pass stores. -/
def copied (e : StringExpr) : Option (List Byte) :=
  if e.isVarString then some ((List.range (strlen_max e.instr 1024)).map e.instr)
  else e.getSL.map (· ++ [0])

end StringExpr

/-- An argument with its value; of a double the pattern. -/
inductive Arg
  | int32 (v : BitVec 32)
  | int64 (v : BitVec 64)
  | double (v : BitVec 64)
  | pointer (v : BitVec 64)
  | string (e : StringExpr)

namespace Arg

/-- The type of the value that is passed. -/
def getType : Arg → Ty
  | int32 _ => .Int32Ty
  | int64 _ => .Int64Ty
  | double _ => .DoubleTy
  | pointer _ | string _ => .PtrTy

/-- The type of the field in the buffer, which holds the length of a string. -/
def ArgType : Arg → Ty
  | string _ => .Int32Ty
  | a => a.getType

def numbits : Arg → ℕ
  | string _ => 1
  | a => a.getType.getScalarSizeInBits

end Arg

/-- `PACK_TY_BITLEN`. -/
def packTyBitlen (x y : ℕ) : ℕ := x <<< 16 ||| y

/-- An argument with the bytes that are copied for it, none unless it is a string. -/
structure Entry where
  arg : Arg
  text : List Byte

namespace Entry

def key (f : Entry) : ℕ := packTyBitlen f.arg.getType.getTypeID.value f.arg.numbits

def size (f : Entry) : ℕ := f.arg.ArgType.getTypeAllocSize

/-- What the third pass stores. -/
def stored (f : Entry) : ℕ :=
  match f.arg with
  | .int32 v => v.toNat
  | .int64 v | .double v | .pointer v => v.toNat
  | .string _ => f.text.length

theorem size_cases (f : Entry) : f.size = 4 ∨ f.size = 8 := f.arg.ArgType.getTypeAllocSize_cases

end Entry

def Arg.entry : Arg → Option Entry
  | .string e => e.copied.map fun text => ⟨.string e, text⟩
  | a => some ⟨a, []⟩

def alignTo (off align : ℕ) : ℕ := (off + align - 1) / align * align

def layoutEnd (tys : List Ty) : ℕ :=
  tys.foldl (fun off ty => alignTo off ty.getTypeAllocSize + ty.getTypeAllocSize) 0

def structGEP (tys : List Ty) (index : ℕ) : ℕ :=
  alignTo (layoutEnd (tys.take index)) ((tys[index]?.map Ty.getTypeAllocSize).getD 1)

/-- `ArgTypes`, `DataLen_CT` and `structOffset` of the first pass. -/
structure FirstPass where
  ArgTypes : List Ty
  DataLen_CT : ℕ
  structOffset : ℕ

/-- Inserts a dummy field before an argument that is not aligned, and then the argument. -/
def FirstPass.next (s : FirstPass) (f : Entry) : FirstPass :=
  let needsPadding := s.structOffset % f.size
  let s := if needsPadding = 0 then s else
    ⟨s.ArgTypes ++ [.Int32Ty], s.DataLen_CT + needsPadding, s.structOffset + needsPadding⟩
  ⟨s.ArgTypes ++ [f.arg.ArgType], s.DataLen_CT + f.size, s.structOffset + f.size⟩

def firstPass (entries : List Entry) : FirstPass :=
  entries.foldl FirstPass.next ⟨List.replicate (entries.length + 2) .Int32Ty,
    4 * (entries.length + 2), 4 * (entries.length + 2)⟩

/-- `structIndex` and `structOffset` of the third pass, and the stores so far. -/
structure ThirdPass where
  structIndex : ℕ
  structOffset : ℕ
  stores : List Store

def ThirdPass.next (tys : List Ty) (s : ThirdPass) (f : Entry) : ThirdPass :=
  let needsPadding := s.structOffset % f.size
  let s := if needsPadding = 0 then s else
    ⟨s.structIndex + 1, s.structOffset + needsPadding, s.stores⟩
  ⟨s.structIndex + 1, s.structOffset + f.size,
    s.stores ++ [⟨structGEP tys s.structIndex, leBytes f.size f.stored⟩]⟩

def thirdPass (tys : List Ty) (entries : List Entry) : List Store :=
  (entries.foldl (ThirdPass.next tys) ⟨2 + entries.length, 4 * (2 + entries.length), []⟩).stores

def copyStrings : ℕ → List Entry → List Store
  | _, [] => []
  | offset, f :: entries => match f.arg with
    | .string _ => ⟨offset, f.text⟩ :: copyStrings (offset + f.text.length) entries
    | _ => copyStrings offset entries

/-- What is emitted: the length that is requested, and the stores into the buffer. -/
structure Emitted where
  BufferLen : ℕ
  stores : List Store

def emitEntries (entries : List Entry) : Emitted :=
  let first := firstPass entries
  let DataLen := first.DataLen_CT % 2 ^ 32
  let header := [⟨structGEP first.ArgTypes 0, leBytes 4 DataLen⟩,
    ⟨structGEP first.ArgTypes 1, leBytes 4 entries.length⟩]
  let keys := entries.mapIdx fun i f => ⟨structGEP first.ArgTypes (i + 2), leBytes 4 f.key⟩
  ⟨(first.DataLen_CT + (entries.map fun f => f.text.length).sum) % 2 ^ 32,
    header ++ keys ++ thirdPass first.ArgTypes entries ++ copyStrings DataLen entries⟩

/-- `EmitHostexecAllocAndExecFns`, `none` where a cast of `getSL` fails. -/
def emitHostexecAllocAndExecFns (args : List Arg) : Option Emitted :=
  (args.mapM Arg.entry).map emitEntries

end Aomp.Arguments
