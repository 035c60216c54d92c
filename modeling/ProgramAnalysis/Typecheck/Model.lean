import Mathlib.Data.Finmap
import ProgramAnalysis.Lib.Call
import ProgramAnalysis.Typecheck.Ast

/-!
# The typechecker

The code of `typechecker/typechecker.cc` on an explicit state.

* `Exn`: what the code throws; `Table`, `Env`, `FunctionTypeSig`: the environments;
* `Typechecker`, `Check`: the state, and calls on it, which keep what they wrote when they throw;
* `typecheckExpression`, `typecheckStatement`, `typecheckFunctionDef`, `typecheckProgram`.

A child node is handed to the function for its parent as the check of that child; it runs where
the source calls `typecheckExpression` or `typecheckStatement` on the child.
-/

namespace ProgramAnalysis.Typecheck

open Lib

/-- What leaves a call other than by a return. -/
inductive Exn
  /-- a thrown `std::string` -/
  | string (m : String)
  /-- a thrown `const char *` -/
  | cstring (m : String)
  /-- `std::bad_cast`, from a `dynamic_cast` to a reference -/
  | badCast
  /-- no exception: the crash of a call through a null scope pointer -/
  | nullScope
  deriving DecidableEq, Repr

/-! ## Environments -/

/-- A table of an environment. -/
abbrev Table (T : Type) : Type := Finmap fun _ : String => T

/-- A pointer to an `Env`: its table, then the tables of its parents. `[]` is the null pointer. -/
abbrev Env (T : Type) : Type := List (Table T)

/-- What `table[name] = value` does on an absent name: default-construct, then assign. -/
class Mapped (T : Type) where
  init : T
  assign : T → T → T

instance : Mapped Ty := ⟨.INT, fun _ value => value⟩

/-- The types of a function. -/
structure FunctionTypeSig where
  parameterTypes : List Ty
  returnType : Ty
  deriving DecidableEq, Repr

/-- `FunctionTypeSig::operator=` appends to the parameter types it finds. -/
def FunctionTypeSig.assign (this fsig : FunctionTypeSig) : FunctionTypeSig :=
  ⟨this.parameterTypes ++ fsig.parameterTypes, fsig.returnType⟩

-- The default constructor leaves `returnType` unset; the assignment overwrites it.
instance : Mapped FunctionTypeSig := ⟨⟨[], .INT⟩, FunctionTypeSig.assign⟩

section Env

variable {T : Type}

/-- `Env::get`. -/
def Env.get : Env T → String → Except Exn T
  | [], _ => .error .nullScope
  | table :: parent, vname =>
    match table.lookup vname with
    | some value => .ok value
    | none =>
      if parent ≠ [] then Env.get parent vname
      else .error (.string ("Variable " ++ vname ++ " not found."))

/-- `Env::addMapping`, on the table of the environment. -/
def Table.addMapping [Mapped T] (table : Table T) (name : String) (value : T) :
    Except Exn (Table T) :=
  match table.lookup name with
  | none => .ok (table.insert name (Mapped.assign Mapped.init value))
  | some _ => .error (.string ("Env::addMapping : repeat declaration for name " ++ name ++ "."))

/-- `Env::addMapping`, through a pointer. -/
def Env.addMapping [Mapped T] : Env T → String → T → Except Exn (Env T)
  | [], _, _ => .error .nullScope
  | table :: parent, name, value => (table.addMapping name value).map (· :: parent)

end Env

/-! ## The state -/

/-- A `Typechecker` object. The function environment has no parent, so it is one table. -/
structure Typechecker where
  valueEnv : Env Ty
  functionEnv : Table FunctionTypeSig

/-- The constructor. -/
def Typechecker.new : Typechecker := ⟨[∅], ∅⟩

/-- Calls on a typechecker. -/
abbrev Check (α : Type) : Type := Call Exn Typechecker α

def enterScope : Check Unit := Call.write fun tc => { tc with valueEnv := ∅ :: tc.valueEnv }

def exitScope : Check Unit := Call.update fun tc =>
  match tc.valueEnv with
  | [] => .error .nullScope
  | _ :: parent => .ok { tc with valueEnv := parent }

/-- `valueEnv->addMapping(name, type)`. -/
def addVariable (name : String) (type : Ty) : Check Unit := Call.update fun tc =>
  (tc.valueEnv.addMapping name type).map fun env => { tc with valueEnv := env }

/-- `functionEnv.addMapping(name, sig)`. -/
def addFunction (name : String) (sig : FunctionTypeSig) : Check Unit := Call.update fun tc =>
  (tc.functionEnv.addMapping name sig).map fun env => { tc with functionEnv := env }

/-- The loops that add a list of declarations to the current scope. -/
def addDeclarations : Declarations → Check Unit
  | [] => pure ()
  | d :: ds => do
    addVariable d.getVariable d.getType
    addDeclarations ds

/-- `if (c) throw e;` -/
def throwIf (c : Prop) [Decidable c] (e : Exn) : Check Unit := if c then Call.fail e else pure ()

/-- `Typechecker::setUnion`. -/
def setUnion (set1 set2 : Finset Ty) : Finset Ty := set1 ∪ set2

/-! ## Expressions -/

def typecheckEmpty : Except Exn Ty := .ok .VOID

def typecheckNum : Except Exn Ty := .ok .INT

def typecheckVar (tc : Typechecker) (name : String) : Except Exn Ty := tc.valueEnv.get name

def typecheckBinaryExpression (left right : Except Exn Ty) : Except Exn Ty := do
  -- `&&` does not check the right operand when the left one is not `INT`
  if (← left) = .INT then
    if (← right) = .INT then
      return .INT
  throw (.cstring "Typechecker::typecheckBinaryExpression : Incorrect operand type!")

/-- The loop over the arguments of a call, after the counts were compared. -/
def checkArguments (name : String) : List (Except Exn Ty) → List Ty → Except Exn Unit
  | arg :: args, paramType :: paramTypes => do
    let argType ← arg
    if argType ≠ paramType then
      throw (.string
        ("Typechecker::typecheckFunctionCall : Argument type mismatch in function call to " ++ name))
    checkArguments name args paramTypes
  | _, _ => pure ()

/-- The body of the `try` in `typecheckFunctionCall`. -/
def tryFunctionCall (tc : Typechecker) (name : String) (arguments : List (Except Exn Ty)) :
    Except Exn Ty := do
  let funcSig ← Env.get [tc.functionEnv] name
  let paramTypes := funcSig.parameterTypes
  if paramTypes.length ≠ arguments.length then
    throw (.string
      ("Typechecker::typecheckFunctionCall : Argument count mismatch in function call to " ++ name))
  checkArguments name arguments paramTypes
  return funcSig.returnType

/-- `typecheckFunctionCall`: every `std::string` thrown inside the `try` becomes the same error. -/
def typecheckFunctionCall (tc : Typechecker) (name : String) (arguments : List (Except Exn Ty)) :
    Except Exn Ty :=
  match tryFunctionCall tc name arguments with
  | .error (.string _) =>
    .error (.string ("Typechecker::typecheckFunctionCall : Undefined function " ++ name))
  | r => r

mutual

/-- `Typechecker::typecheckExpression`. -/
def typecheckExpression (tc : Typechecker) : Expression → Except Exn Ty
  | .empty => typecheckEmpty
  | .var name => typecheckVar tc name
  | .num _ => typecheckNum
  | .binary _ left right =>
    typecheckBinaryExpression (typecheckExpression tc left) (typecheckExpression tc right)
  | .functionCall name arguments =>
    typecheckFunctionCall tc name (argumentChecks tc arguments)

/-- The checks of a list of arguments. -/
def argumentChecks (tc : Typechecker) : List Expression → List (Except Exn Ty)
  | [] => []
  | arg :: args => typecheckExpression tc arg :: argumentChecks tc args

end

/-- `typecheckExpression` as a call: it writes nothing. -/
def checkExpression (e : Expression) : Check Ty := Call.read fun tc => typecheckExpression tc e

/-! ## Statements -/

def typecheckSkip : Check (Finset Ty) := pure {.NIL}

def typecheckAssignment (target : String) (expression : Expression) : Check (Finset Ty) := do
  -- the operands of `==` come in an order that C++ leaves open; either can only throw
  let varType ← Call.read fun tc => tc.valueEnv.get target
  let exprType ← checkExpression expression
  throwIf (varType ≠ exprType)
    (.cstring "Typechecker::typecheckAssignmentStatement : type mismatch!")
  return {.NIL}

def typecheckBranch (condition : Expression) (thenStatement elseStatement : Check (Finset Ty)) :
    Check (Finset Ty) :=
  match condition with
  | .binary _ left right => do
    let leftType ← checkExpression left
    let rightType ← checkExpression right
    throwIf (leftType ≠ rightType)
      (.cstring "Typechecker::typecheckExpression: Operands must be of same Type!")
    let thenTypes ← thenStatement
    let elseTypes ← elseStatement
    return setUnion thenTypes elseTypes
  | _ => Call.fail .badCast

def typecheckLoop (condition : Expression) (body : Check (Finset Ty)) : Check (Finset Ty) := do
  let condType ← checkExpression condition
  throwIf (condType ≠ .BOOL)
    (.cstring "Typechecker::typecheckLoop: Condition is not of type BOOL!")
  body

/-- `typecheckSequence`, from the types collected so far. -/
def typecheckSequence (resultTypes : Finset Ty) : List (Check (Finset Ty)) → Check (Finset Ty)
  | [] => pure resultTypes
  | s :: ss => do
    let stmtTypes ← s
    typecheckSequence (setUnion resultTypes stmtTypes) ss

def typecheckBlock (declarations : Declarations) (statement : Check (Finset Ty)) :
    Check (Finset Ty) := do
  enterScope
  addDeclarations declarations
  let blockTypes ← statement
  exitScope
  return blockTypes

def typecheckReturn (expression : Expression) : Check (Finset Ty) := do
  let type ← checkExpression expression
  return {type}

mutual

/-- `Typechecker::typecheckStatement`. -/
def typecheckStatement : Statement → Check (Finset Ty)
  | .skip => typecheckSkip
  | .assignment target expression => typecheckAssignment target expression
  | .branch condition thenStatement elseStatement =>
    typecheckBranch condition (typecheckStatement thenStatement) (typecheckStatement elseStatement)
  | .loop condition body => typecheckLoop condition (typecheckStatement body)
  | .sequence statements => typecheckSequence ∅ (statementChecks statements)
  | .block declarations statement => typecheckBlock declarations (typecheckStatement statement)
  | .ret expression => typecheckReturn expression

/-- The checks of a list of statements. -/
def statementChecks : List Statement → List (Check (Finset Ty))
  | [] => []
  | s :: ss => typecheckStatement s :: statementChecks ss

end

/-! ## Functions and programs -/

/-- The signature `typecheckFunctionDef` builds. -/
def FunctionDefinition.signature (fdef : FunctionDefinition) : FunctionTypeSig :=
  ⟨fdef.parameters.map Declaration.getType, fdef.returnType⟩

def typecheckFunctionDef (fdef : FunctionDefinition) : Check Unit := do
  addFunction fdef.name fdef.signature
  enterScope
  addDeclarations fdef.parameters
  let returnTypes ← typecheckBlock fdef.body.declarations (typecheckStatement fdef.body.statement)
  throwIf (returnTypes.card > 2)
    (.string ("Typechecker::typecheckFunctionDef : More than 2 Return type in function "
      ++ fdef.name))
  throwIf (fdef.returnType ∉ returnTypes)
    (.string ("Typechecker::typecheckFunctionDef : Return type mismatch in function " ++ fdef.name))
  exitScope

/-- The loop over the function definitions. -/
def typecheckFunctionDefs : List FunctionDefinition → Check Unit
  | [] => pure ()
  | fdef :: fdefs => do
    typecheckFunctionDef fdef
    typecheckFunctionDefs fdefs

/-- `typecheckProgram`; the types of the program's statement are dropped. -/
def typecheckProgram (program : Program) : Check Unit := do
  addDeclarations program.declarations
  typecheckFunctionDefs program.functionDefs
  let _ ← typecheckStatement program.statement

end ProgramAnalysis.Typecheck
