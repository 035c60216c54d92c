import Mathlib.Data.Finmap
import ProgramAnalysis.Lib.Loop

/-!
# The interpreter mycalc

The classes of `mycalc/ast.hh` and the methods of `mycalc/ast.cc`.

* `Expression`, `Statement`, `Program`: the syntax, with one symbol table for each program;
* `Stop`: what ends a run early;
* `World`, `theTable`: the programs in memory, and the table that the global `theProgram` leads to;
* `SymbolTable.get`, `SymbolTable.set`; `Expression.evaluate`, `Statement.run`, `Program.run`.

Which operand a node evaluates first is left open by the language, so it is a parameter. Runs are cut
off where a loop would start its round `n + 1`; every finite part of a run is in one that is cut off
late enough. Child pointers are never null.
-/

namespace ProgramAnalysis.Mycalc

open Lib

/-! ## Syntax -/

/-- The classes of nodes with two operands. -/
inductive BinaryClass
  | AddExpression | SubExpression | MulExpression | DivExpression
  | LessThanExpression | GreaterThanExpression
  deriving DecidableEq

inductive Expression
  | num (value : Int32)
  | var (name : String)
  | binary (cls : BinaryClass) (left right : Expression)

/-- Statements; the body of a loop is a sequence. -/
inductive Statement
  | assignment (vname : String) (expression : Expression)
  | sequence (statements : List Statement)
  | ifStatement (condition : Expression) (thenBranch elseBranch : Statement)
  | whileStatement (condition : Expression) (body : List Statement)

/-- Induction on statements, with the hypothesis for every element of a sequence and of a body. -/
@[elab_as_elim]
theorem Statement.ind {P : Statement → Prop} (assignment : ∀ x e, P (.assignment x e))
    (sequence : ∀ ss, (∀ s ∈ ss, P s) → P (.sequence ss))
    (ifStatement : ∀ c t e, P t → P e → P (.ifStatement c t e))
    (whileStatement : ∀ c body, (∀ s ∈ body, P s) → P (.whileStatement c body)) : ∀ s, P s
  | .assignment x e => assignment x e
  | .sequence ss => sequence ss fun s _ =>
      ind assignment sequence ifStatement whileStatement s
  | .ifStatement c t e => ifStatement c t e (ind assignment sequence ifStatement whileStatement t)
      (ind assignment sequence ifStatement whileStatement e)
  | .whileStatement c body => whileStatement c body fun s _ =>
      ind assignment sequence ifStatement whileStatement s

/-- The `map` of a symbol table. -/
abbrev SymbolTable : Type := Finmap fun _ : String => Int32

structure Program where
  name : String
  statement : Statement
  symbolTable : SymbolTable

/-! ## What a run acts on -/

/-- The programs in memory, and the global `theProgram`. -/
structure World where
  programs : List Program
  theProgram : Option ℕ

/-- What ends a run early. -/
inductive Stop
  | thrown (message : String)
  /-- an arithmetic operation without a defined result -/
  | undefined
  /-- a pointer that does not lead to a program -/
  | null
  /-- the bound on the rounds of a loop -/
  | cut
  deriving DecidableEq

/-- `Program::Program`. -/
def World.construct (w : World) (name : String) (statement : Statement) : World :=
  { w with programs := w.programs ++ [⟨name, statement, ∅⟩] }

/-- The world with another table in program `p`. -/
def World.withTable (w : World) (p : ℕ) (table : SymbolTable) : World :=
  { w with programs := w.programs.modify p fun P => { P with symbolTable := table } }

/-- A method of `theProgram->getSymbolTable()`. -/
def theTable {α : Type} (m : Call Stop SymbolTable α) : Call Stop World α := fun w =>
  match w.theProgram with
  | none => Call.fail .null w
  | some p =>
    match w.programs[p]? with
    | none => Call.fail .null w
    | some P =>
      let o := m P.symbolTable
      ⟨o.result, w.withTable p o.final, o.visited.map (w.withTable p)⟩

/-! ## Symbol tables -/

namespace SymbolTable

/-- `table[vname]`: a missing entry is made, with the value 0. -/
def index (vname : String) : Call Stop SymbolTable Int32 := do
  match ← Call.read fun table => .ok (table.lookup vname) with
  | some value => return value
  | none =>
    Call.write fun table => table.insert vname 0
    return 0

def notFound (vname : String) : Stop :=
  .thrown ("SymbolTable::get : Variable " ++ vname ++ " not found.")

def get (vname : String) : Call Stop SymbolTable Int32 := do
  if ← Call.read fun table => .ok (decide (vname ∉ table)) then
    Call.fail (notFound vname)
  else
    index vname

def set (vname : String) (value : Int32) : Call Stop SymbolTable Unit :=
  Call.write fun table => table.insert vname value

end SymbolTable

/-! ## Evaluation -/

/-- The values of `int`. -/
def FitsInt (z : ℤ) : Prop := -2 ^ 31 ≤ z ∧ z < 2 ^ 31

instance (z : ℤ) : Decidable (FitsInt z) := inferInstanceAs (Decidable (_ ∧ _))

/-- The result of signed arithmetic, which is undefined where it does not fit. -/
def inInt (z : ℤ) : Except Stop Int32 :=
  if FitsInt z then .ok (Int32.ofInt z) else .error .undefined

/-- The operator of a class on the values of its operands. -/
def BinaryClass.apply : BinaryClass → Int32 → Int32 → Except Stop Int32
  | .AddExpression, l, r => inInt (l.toInt + r.toInt)
  | .SubExpression, l, r => inInt (l.toInt - r.toInt)
  | .MulExpression, l, r => inInt (l.toInt * r.toInt)
  | .DivExpression, l, r => if r = 0 then .error .undefined else inInt (l.toInt.tdiv r.toInt)
  | .LessThanExpression, l, r => .ok (if l < r then 1 else 0)
  | .GreaterThanExpression, l, r => .ok (if l > r then 1 else 0)

section Run

-- does `evaluate` of a class begin with its left operand
variable (leftFirst : BinaryClass → Bool)

def Expression.evaluate : Expression → Call Stop World Int32
  | .num value => pure value
  | .var name => theTable (SymbolTable.get name)
  | .binary cls left right => do
    if leftFirst cls then
      let l ← left.evaluate
      let r ← right.evaluate
      Call.read fun _ => cls.apply l r
    else
      let r ← right.evaluate
      let l ← left.evaluate
      Call.read fun _ => cls.apply l r

/-! ## Running -/

/-- `condition->evaluate() != 0`. -/
def Expression.holds (condition : Expression) : Call Stop World Bool := do
  return (← condition.evaluate leftFirst) != 0

variable (n : ℕ)

mutual

def Statement.run : Statement → Call Stop World Unit
  | .assignment vname expression => do
    let value ← expression.evaluate leftFirst
    theTable (SymbolTable.set vname value)
  | .sequence statements => Call.inTurn (runs statements)
  | .ifStatement condition thenBranch elseBranch => do
    if ← condition.holds leftFirst then thenBranch.run else elseBranch.run
  | .whileStatement condition body =>
    Call.loop .cut (condition.holds leftFirst) (Call.inTurn (runs body)) n

/-- The runs of a list of statements. -/
def runs : List Statement → List (Call Stop World Unit)
  | [] => []
  | s :: ss => s.run :: runs ss

end

/-- `Program::run` of program `p`. -/
def Program.run (p : ℕ) : Call Stop World Unit := do
  match ← Call.read fun w => .ok w.programs[p]? with
  | none => Call.fail .null
  | some P => P.statement.run leftFirst n

end Run

end ProgramAnalysis.Mycalc
