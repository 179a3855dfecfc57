import Aomp.Arguments.StringRegions

/-!
# The forms of a string argument

The compiler looks at the form of the expression, and for a variable at its declaration: what
`isVarString` takes for a string of variable length is measured when the call is executed, and
for the others `getSL` finds a literal when the call is compiled.
-/
namespace Aomp.Arguments

open Foundations

/-- `clang::Type::TypeClass`, of the types of strings. -/
inductive TypeClass
  | Pointer
  | ConstantArray
  | IncompleteArray
  | VariableArray
  deriving DecidableEq

/-- The type of an expression; `isCharType` is about what it points to or its elements. -/
structure ExprTy where
  typeClass : TypeClass
  isCharType : Bool
  deriving DecidableEq

def isString (argXTy : ExprTy) : Bool :=
  (argXTy.typeClass = .Pointer || argXTy.typeClass = .ConstantArray) && argXTy.isCharType

/-- An initializer without its implicit casts, with what it denotes when it is evaluated. -/
inductive Initializer
  | StringLiteral (SL : List Byte)
  | other (instr : ℕ → Byte)

def literalBytes (SL : List Byte) (i : ℕ) : Byte := SL.getD i 0

namespace Initializer

def instr : Initializer → ℕ → Byte
  | StringLiteral SL => literalBytes SL
  | other instr => instr

end Initializer

/-- A variable or parameter and its history up to the call. -/
structure VarDecl where
  ty : ExprTy
  getInit : Option Initializer
  /-- what a variable without an initializer denotes at first, for example the parameter -/
  entry : ℕ → Byte
  /-- what was assigned since, the first assignment first -/
  assigned : List (ℕ → Byte)

namespace VarDecl

def initial (VD : VarDecl) : ℕ → Byte := (VD.getInit.map Initializer.instr).getD VD.entry

def instr (VD : VarDecl) : ℕ → Byte := VD.assigned.foldl (fun _ p => p) VD.initial

def assign (VD : VarDecl) (p : ℕ → Byte) : VarDecl := { VD with assigned := VD.assigned ++ [p] }

@[simp] theorem instr_assign (VD : VarDecl) (p : ℕ → Byte) : (VD.assign p).instr = p := by
  simp [instr, assign]

end VarDecl

/-- The lvalues that are no variables. -/
inductive LValueForm
  | MemberExpr
  | ArraySubscriptExpr
  | UO_Deref

inductive RValueForm
  | CallExpr
  | BO_Add
  | ConditionalOperator

/-- An argument without parentheses and casts, with what it denotes when the call is executed. -/
inductive Expr
  | StringLiteral (SL : List Byte)
  | DeclRefExpr (VD : VarDecl)
  | lvalue (form : LValueForm) (ty : ExprTy) (instr : ℕ → Byte)
  | rvalue (form : RValueForm) (ty : ExprTy) (instr : ℕ → Byte)

namespace Expr

def getType : Expr → ExprTy
  | StringLiteral _ => ⟨.ConstantArray, true⟩
  | DeclRefExpr VD => VD.ty
  | lvalue _ ty _ | rvalue _ ty _ => ty

def isLValue : Expr → Bool
  | StringLiteral _ | DeclRefExpr _ | lvalue .. => true
  | rvalue .. => false

def instr : Expr → ℕ → Byte
  | StringLiteral SL => literalBytes SL
  | DeclRefExpr VD => VD.instr
  | lvalue _ _ instr | rvalue _ _ instr => instr

/-- `dyn_cast<DeclRefExpr>` to a variable. -/
def asVarDecl : Expr → Option VarDecl
  | DeclRefExpr VD => some VD
  | _ => none

def asStringLiteral : Expr → Option (List Byte)
  | StringLiteral SL => some SL
  | _ => none

def isVarString (argX : Expr) : Bool :=
  if isString argX.getType && !argX.isLValue then true
  else match argX.asVarDecl with
    | some VD => match VD.getInit with
      | some (.StringLiteral _) => false
      | _ => true
    | none => false

/-- `getSL`, `none` where one of its casts fails. -/
def getSL (argX : Expr) : Option (List Byte) :=
  if argX.getType.typeClass ≠ .ConstantArray then
    match argX.asVarDecl with
    | some VD => match VD.getInit with
      | some (.StringLiteral SL) => some SL
      | _ => none
    | none => none
  else argX.asStringLiteral

def toStringExpr : Expr → StringExpr
  | StringLiteral SL => .literal SL
  | rvalue _ _ instr => .rvalue instr
  | lvalue _ _ instr => .lvalue instr
  | DeclRefExpr VD => .declRef (VD.ty.typeClass = .ConstantArray)
      (VD.getInit.bind fun
        | .StringLiteral SL => some SL
        | .other _ => none) VD.instr

/-- The string argument of a call, `none` where the expression is sent as it is. -/
def stringArg (argX : Expr) : Option StringExpr :=
  if isString argX.getType then some argX.toStringExpr else none

end Expr

/-- A pointer variable still denotes the literal that it was initialized with. -/
def VarDecl.Keeps (VD : VarDecl) (SL : List Byte) : Prop :=
  VD.ty.typeClass = .Pointer ∧ ∀ s, CString VD.instr s → CString (literalBytes SL) s

namespace Expr

/-- The string that the expression denotes is measured when the call is executed, and copied. -/
def Measured (argX : Expr) : Prop :=
  ∃ e, argX.stringArg = some e ∧
    e.copied = some ((List.range (strlen_max argX.instr 1024)).map argX.instr)

/-- A literal is copied, and it is the string that the expression denotes. -/
def Constant (argX : Expr) : Prop :=
  ∃ e SL, argX.stringArg = some e ∧ argX.getSL = some SL ∧ e.copied = some (SL ++ [0]) ∧
    ∀ s, CString argX.instr s → CString (literalBytes SL) s

def SendsRunTimeString (argX : Expr) : Prop :=
  argX.isVarString = true ∧ argX.Measured ∨ argX.Constant

/-- The forms that are told apart: a literal, an expression that is no lvalue, and a variable
that has no literal for its initializer or is a pointer that still denotes it. -/
def Classified (argX : Expr) : Prop :=
  (argX.getType.typeClass = .Pointer ∨ argX.getType.typeClass = .ConstantArray) ∧
    match argX with
    | StringLiteral _ | rvalue .. => True
    | lvalue .. => False
    | DeclRefExpr VD => ∀ SL, VD.getInit = some (.StringLiteral SL) → VD.Keeps SL

variable {argX : Expr} {VD : VarDecl} {SL : List Byte} {e : StringExpr}

theorem isString_iff (hchar : argX.getType.isCharType = true) : isString argX.getType = true ↔
    argX.getType.typeClass = .Pointer ∨ argX.getType.typeClass = .ConstantArray := by
  simp [isString, hchar]

theorem toStringExpr_of_stringArg (h : argX.stringArg = some e) :
    isString argX.getType = true ∧ argX.toStringExpr = e := by
  unfold stringArg at h
  split_ifs at h with hstring
  exact ⟨hstring, Option.some.inj h⟩

@[simp] theorem instr_toStringExpr (argX : Expr) : argX.toStringExpr.instr = argX.instr := by
  cases argX <;> rfl

theorem isVarString_toStringExpr (hstring : isString argX.getType = true) :
    argX.toStringExpr.isVarString = argX.isVarString := by
  cases argX with
  | StringLiteral SL => rfl
  | rvalue form ty instr => simp [isVarString, hstring, isLValue, toStringExpr, StringExpr.isVarString]
  | lvalue form ty instr => simp [isVarString, isLValue, asVarDecl, toStringExpr, StringExpr.isVarString]
  | DeclRefExpr VD =>
    rcases hinit : VD.getInit with _ | ⟨SL⟩ | ⟨instr⟩ <;>
      simp [isVarString, isLValue, asVarDecl, toStringExpr, StringExpr.isVarString, hinit]

theorem getSL_toStringExpr (argX : Expr) : argX.toStringExpr.getSL = argX.getSL := by
  cases argX with
  | StringLiteral SL => rfl
  | rvalue form ty instr => simp [getSL, asVarDecl, asStringLiteral, toStringExpr, StringExpr.getSL]
  | lvalue form ty instr => simp [getSL, asVarDecl, asStringLiteral, toStringExpr, StringExpr.getSL]
  | DeclRefExpr VD =>
    by_cases harray : VD.ty.typeClass = .ConstantArray
    · simp [getSL, getType, asStringLiteral, toStringExpr, StringExpr.getSL, harray]
    · rcases hinit : VD.getInit with _ | ⟨SL⟩ | ⟨instr⟩ <;>
        simp [getSL, getType, asVarDecl, toStringExpr, StringExpr.getSL, hinit, harray]

theorem copied_stringArg (h : argX.stringArg = some e) : e.copied =
    if argX.isVarString then some ((List.range (strlen_max argX.instr 1024)).map argX.instr)
    else argX.getSL.map (· ++ [0]) := by
  obtain ⟨hstring, rfl⟩ := toStringExpr_of_stringArg h
  rw [StringExpr.copied, isVarString_toStringExpr hstring, getSL_toStringExpr, instr_toStringExpr]

theorem measured_of_isVarString (hvar : argX.isVarString = true) :
    argX.Measured ↔ isString argX.getType = true := by
  constructor
  · rintro ⟨e, he, -⟩
    exact (toStringExpr_of_stringArg he).1
  · intro hstring
    have he : argX.stringArg = some argX.toStringExpr := if_pos hstring
    exact ⟨_, he, by rw [copied_stringArg he, if_pos hvar]⟩

/-- Of the others, the literal is copied where the casts of `getSL` succeed. -/
theorem constant_of_not_isVarString (hvar : argX.isVarString = false) : argX.Constant ↔
    isString argX.getType = true ∧
      ∃ SL, argX.getSL = some SL ∧ ∀ s, CString argX.instr s → CString (literalBytes SL) s := by
  constructor
  · rintro ⟨e, SL, he, hSL, -, hsame⟩
    exact ⟨(toStringExpr_of_stringArg he).1, SL, hSL, hsame⟩
  · rintro ⟨hstring, SL, hSL, hsame⟩
    have he : argX.stringArg = some argX.toStringExpr := if_pos hstring
    refine ⟨_, SL, he, hSL, ?_, hsame⟩
    rw [copied_stringArg he, hvar, hSL]
    rfl

theorem getSL_of_isVarString (hvar : argX.isVarString = true) : argX.getSL = none := by
  cases argX with
  | StringLiteral SL => cases hvar
  | rvalue form ty instr => simp [getSL, asVarDecl, asStringLiteral]
  | lvalue form ty instr => simp [isVarString, isLValue, asVarDecl] at hvar
  | DeclRefExpr VD =>
    rcases hinit : VD.getInit with _ | ⟨SL⟩ | ⟨instr⟩
    · simp [getSL, asVarDecl, asStringLiteral, hinit]
    · simp [isVarString, isLValue, asVarDecl, hinit] at hvar
    · simp [getSL, asVarDecl, asStringLiteral, hinit]

theorem sendsRunTimeString_iff_test : argX.SendsRunTimeString ↔ isString argX.getType = true ∧
    (argX.isVarString = true ∨
      ∃ SL, argX.getSL = some SL ∧ ∀ s, CString argX.instr s → CString (literalBytes SL) s) := by
  unfold SendsRunTimeString
  cases hvar : argX.isVarString with
  | true =>
    rw [measured_of_isVarString hvar]
    have hnot : ¬ argX.Constant := by
      rintro ⟨e, SL, -, hSL, -⟩
      rw [getSL_of_isVarString hvar] at hSL
      cases hSL
    simp [hnot]
  | false => simp [constant_of_not_isVarString hvar]

theorem declRefExpr_sent_iff : ((DeclRefExpr VD).isVarString = true ∨
    ∃ SL, (DeclRefExpr VD).getSL = some SL ∧ ∀ s, CString VD.instr s → CString (literalBytes SL) s) ↔
    ∀ SL, VD.getInit = some (.StringLiteral SL) →
      VD.ty.typeClass ≠ .ConstantArray ∧ ∀ s, CString VD.instr s → CString (literalBytes SL) s := by
  rcases hinit : VD.getInit with _ | ⟨SL⟩ | ⟨instr⟩
  · simp [isVarString, isLValue, asVarDecl, hinit]
  · by_cases harray : VD.ty.typeClass = .ConstantArray <;>
      simp [isVarString, isLValue, asVarDecl, getSL, getType, asStringLiteral, hinit, harray]
  · simp [isVarString, isLValue, asVarDecl, hinit]

/-- The string of the call is sent if and only if the form of the expression is one of those
that the compiler tells apart. -/
theorem sends_run_time_string_iff (argX : Expr) (hchar : argX.getType.isCharType = true) :
    argX.SendsRunTimeString ↔ argX.Classified := by
  rw [sendsRunTimeString_iff_test, isString_iff hchar]
  unfold Classified
  apply and_congr_right
  intro htype
  cases argX with
  | StringLiteral SL => simp [getSL, getType, asStringLiteral, instr]
  | rvalue form ty instr =>
    have hstring := (isString_iff hchar).mpr htype
    simp [isVarString, isLValue, hstring]
  | lvalue form ty instr => simp [isVarString, getSL, isLValue, asVarDecl, asStringLiteral]
  | DeclRefExpr VD =>
    refine declRefExpr_sent_iff.trans (forall_congr' fun SL => imp_congr_right fun _ => ?_)
    apply and_congr_left
    intro _
    rcases htype with hpointer | harray
    · simp [show VD.ty.typeClass = .Pointer from hpointer]
    · simp [show VD.ty.typeClass = .ConstantArray from harray]

/-- A pointer that was initialized with `"up"` and assigned `"no"` since. -/
def reassigned : Expr :=
  .DeclRefExpr (VarDecl.assign ⟨⟨.Pointer, true⟩, some (.StringLiteral [117, 112]), fun _ => 0, []⟩
    (literalBytes [110, 111]))

theorem sends_run_time_string_iff_reassigned : reassigned.SendsRunTimeString ↔ reassigned.Classified :=
  sends_run_time_string_iff reassigned rfl

/-- The call sends the literal of the initializer. -/
theorem reassigned_stale : ¬ reassigned.SendsRunTimeString := by
  intro h
  obtain ⟨-, hvar | ⟨SL, hSL, hsame⟩⟩ := sendsRunTimeString_iff_test.mp h
  · cases hvar
  · obtain rfl : [117, 112] = SL := Option.some.inj hSL
    have hno : CString reassigned.instr [110, 111] := by
      change CString (VarDecl.instr (VarDecl.assign _ _)) _
      rw [VarDecl.instr_assign]
      exact ⟨by decide, rfl⟩
    have hup := (hsame _ hno).1 0 (by decide)
    exact absurd hup.1 (by decide)

end Expr

end Aomp.Arguments
