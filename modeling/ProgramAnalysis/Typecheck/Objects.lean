import ProgramAnalysis.Lib.Ownership
import ProgramAnalysis.Typecheck.Driver

/-!
# The objects of a program

The syntax in memory, as `new` makes it and the destructors of `typechecker/ast.cc` delete it.

* `Node`, `Program.objects`: the object of each class, and what its destructor deletes in turn;
* `Memory`, `memoryAfter`: `Test::execute`, which deletes the program if its check returns;
* **`execute_deletes`**: this is defined exactly when no object of an accepted program has two owners;
* `tested`, `main_tested`: the programs that `main` comes to;
* `Session`, **`driver_leaks`**: what stays in memory of the syntax are the programs that were rejected.
-/

namespace ProgramAnalysis.Typecheck

open Lib

/-! ## Objects -/

/-- The classes of objects, with the members that are no pointers. -/
inductive Node
  | declaration (d : Declaration)
  | empty
  | num (value : Int32)
  | var (name : String)
  | binary (cls : BinaryClass)
  | functionCall (name : String)
  | skip
  | assignment (target : String)
  | branch
  | loop
  | sequence
  | block
  | ret
  | functionDefinition (name : String) (returnType : Ty)
  | program (name : String)

def Declaration.objects (d : Declaration) : Rose Node := .node (.declaration d) []

mutual

/-- The objects of an expression; those below a node are the ones its destructor deletes, in order. -/
def Expression.objects : Expression → Rose Node
  | .empty => .node .empty []
  | .num value => .node (.num value) []
  | .var name => .node (.var name) []
  | .binary cls left right => .node (.binary cls) [left.objects, right.objects]
  | .functionCall name arguments => .node (.functionCall name) (objectsOfArguments arguments)

def objectsOfArguments : List Expression → List (Rose Node)
  | [] => []
  | e :: es => e.objects :: objectsOfArguments es

end

mutual

def Statement.objects : Statement → Rose Node
  | .skip => .node .skip []
  | .assignment target expression => .node (.assignment target) [expression.objects]
  | .branch condition thenStatement elseStatement =>
    .node .branch [condition.objects, thenStatement.objects, elseStatement.objects]
  | .loop condition body => .node .loop [condition.objects, body.objects]
  | .sequence statements => .node .sequence (objectsOf statements)
  | .block declarations statement =>
    .node .block (declarations.map Declaration.objects ++ [statement.objects])
  | .ret expression => .node .ret [expression.objects]

def objectsOf : List Statement → List (Rose Node)
  | [] => []
  | s :: ss => s.objects :: objectsOf ss

end

def FunctionDefinition.objects (f : FunctionDefinition) : Rose Node :=
  .node (.functionDefinition f.name f.returnType)
    (f.parameters.map Declaration.objects ++ [f.body.toStatement.objects])

def Program.objects (P : Program) : Rose Node :=
  .node (.program P.name) (P.declarations.map Declaration.objects ++
    (P.functionDefs.map FunctionDefinition.objects ++ [P.statement.objects]))

/-! ## Tests -/

abbrev Memory : Type := Heap ℕ Node

/-- The syntax trees in memory after `Test::execute` on the program at `p`: `delete theProgram` comes last,
after a check that returns. -/
def memoryAfter (P : Program) (p : ℕ) (m : Memory) : Option Memory :=
  match (execute P []).result with
  | .ok _ => delete m.keys.card p m
  | .error _ => some m

section Execute

variable {P : Program} {p : ℕ} {m m' : Memory} {xs : List ℕ}

theorem memoryAfter_of_verdict (h : P.verdict = .ok ()) (p : ℕ) (m : Memory) :
    memoryAfter P p m = deleteAll m.keys.card [p] m := by
  rw [memoryAfter, (execute_of_ok h []).result, deleteAll_singleton]

theorem memoryAfter_of_error {e : Exn} (h : P.verdict = .error e) (p : ℕ) (m : Memory) :
    memoryAfter P p m = some m := by
  rw [memoryAfter, (execute_of_error h []).result]

/-- **What a test deletes.** A test whose program is rejected deletes no object of it. After one whose program is
accepted no object of the program is left, and all others are, if no object of the program has two
owners in it; otherwise an object is deleted twice. -/
theorem execute_deletes (hr : Reads m [p] [P.objects] xs) :
    ((typecheckProgram P Typechecker.new).result = .ok () →
      (xs.Nodup → memoryAfter P p m = some (without m xs)) ∧
        (¬ xs.Nodup → memoryAfter P p m = none)) ∧
    ((typecheckProgram P Typechecker.new).result ≠ .ok () → memoryAfter P p m = some m) := by
  rw [(typecheckProgram_gives P).1]
  refine ⟨fun h => ?_, fun h => ?_⟩
  · rw [memoryAfter_of_verdict h]
    exact hr.deleteAll_cases (Nat.le_refl _)
  · rcases hv : P.verdict with e | u
    · exact memoryAfter_of_error hv p m
    · exact absurd hv h

/-- `int x`, `x := x + x` with one object for both operands: it is deleted twice. The test `T6` of the
driver uses one object in the condition and in the body of its loop; its program is rejected. -/
theorem execute_deletes_shared :
    let x : Expression := .var "x"
    let P : Program := ⟨"P", [⟨"x", .INT⟩], [], .assignment "x" (.binary .AddExpression x x)⟩
    let T6 : Program := ⟨"P6_Loop_Test", [⟨"x", .INT⟩], [], .loop (.binary .SubExpression x (.num 10))
      (.assignment "x" (.binary .AddExpression x (.num 1)))⟩
    let m : Memory := alloc 5 (.program "P") [4, 3] (alloc 4 (.declaration ⟨"x", .INT⟩) []
      (alloc 3 (.assignment "x") [2] (alloc 2 (.binary .AddExpression) [1, 1] (alloc 1 (.var "x") [] ∅))))
    let m6 : Memory := alloc 9 (.program "P6_Loop_Test") [1, 8] (alloc 8 .loop [4, 7]
      (alloc 7 (.assignment "x") [6] (alloc 6 (.binary .AddExpression) [2, 5] (alloc 5 (.num 1) []
        (alloc 4 (.binary .SubExpression) [2, 3] (alloc 3 (.num 10) [] (alloc 2 (.var "x") []
          (alloc 1 (.declaration ⟨"x", .INT⟩) [] ∅))))))))
    memoryAfter P 5 m = none ∧ memoryAfter T6 9 m6 = some m6 := by
  intro x P T6 m m6
  have hr : Reads m [5] [P.objects] [5, 4, 3, 2, 1, 1] :=
    .cons rfl (.cons rfl .nil (.cons rfl (.cons rfl (.cons rfl .nil (.cons rfl .nil .nil)) .nil) .nil)) .nil
  have hcondition : Reads m6 [4] [(Expression.binary .SubExpression x (.num 10)).objects] [4, 2, 3] :=
    .cons rfl (.cons rfl .nil (.cons rfl .nil .nil)) .nil
  have hbody : Reads m6 [7] [(Statement.assignment "x" (.binary .AddExpression x (.num 1))).objects]
      [7, 6, 2, 5] := .cons rfl (.cons rfl (.cons rfl .nil (.cons rfl .nil .nil)) .nil) .nil
  have hr6 : Reads m6 [9] [T6.objects] [9, 1, 8, 4, 2, 3, 7, 6, 2, 5] :=
    .cons rfl (.cons rfl .nil (.cons rfl (hcondition.append hbody) .nil)) .nil
  exact ⟨((execute_deletes hr).1 rfl).2 (by decide), (execute_deletes hr6).2 nofun⟩

end Execute

/-! ## All tests -/

/-- The exception of the check gets past the handlers of `main`. -/
def Program.escapes (P : Program) : Bool :=
  match (typecheckProgram P Typechecker.new).result with
  | .ok _ => false
  | .error e => e.message.isNone

/-- The programs that `main` comes to. -/
def tested : List Program → List Program
  | [] => []
  | P :: Ps => if P.escapes then [P] else P :: tested Ps

/-- `Session m Ps m'`: tests of the programs, one after another, up to one whose exception ends `main`.
Each makes its own objects, passes each pointer to one object only, and keeps none. -/
inductive Session : Memory → List Program → Memory → Prop
  | nil (m : Memory) : Session m [] m
  | cons {m m₁ m₂ m₃ : Memory} {P : Program} {p : ℕ} {Ps : List Program} : P.escapes = false →
    Builds m [P.objects] [p] m₁ → memoryAfter P p m₁ = some m₂ → Session m₂ Ps m₃ →
      Session m (P :: Ps) m₃
  | escapes {m m₁ m₂ : Memory} {P : Program} {p : ℕ} {Ps : List Program} : P.escapes = true →
    Builds m [P.objects] [p] m₁ → memoryAfter P p m₁ = some m₂ → Session m (P :: Ps) m₂

section Tested

variable {P : Program} {Ps : List Program}

/-- `main` ends at a failed cast. -/
theorem escapes_iff (P : Program) : P.escapes = true ↔ P.Strands := by
  have hraises := typecheckProgram_raises P
  rw [← hraises.badCast]
  rcases h : (typecheckProgram P Typechecker.new).result with e | u
  · rw [h] at hraises
    simp only [Program.escapes, h]
    cases e with
    | string m => exact iff_of_false Bool.false_ne_true (by simp)
    | cstring m => exact iff_of_false Bool.false_ne_true (by simp)
    | badCast => exact iff_of_true rfl rfl
    | nullScope => exact absurd rfl hraises.nonnull
  · simp [Program.escapes, h]

theorem tested_of_escapes (h : P.escapes = true) : tested (P :: Ps) = [P] := by rw [tested, if_pos h]

theorem tested_of_not_escapes (h : P.escapes = false) : tested (P :: Ps) = P :: tested Ps := by
  rw [tested, h, if_neg Bool.false_ne_true]

/-- **`main` comes to the tested programs only.** -/
theorem main_tested (Ps : List Program) (output : List String) :
    ∃ r t, (main Ps).Gives output r t ∧ (main (tested Ps)).Gives output r t := by
  induction Ps generalizing output with
  | nil => exact ⟨_, _, ⟨rfl, rfl⟩, ⟨rfl, rfl⟩⟩
  | cons P Ps ih =>
    cases h : P.escapes
    · have hreport := (report_gives P output).1 (mt (escapes_iff P).mpr (by simp [h]))
      obtain ⟨r, t, hmain, htested⟩ := ih (output ++ P.report)
      rw [tested_of_not_escapes h]
      exact ⟨r, t, hreport.bind hmain, hreport.bind htested⟩
    · have hheader := (report_gives P output).2 ((escapes_iff P).mp h)
      rw [tested_of_escapes h]
      exact ⟨_, _, hheader.bind_error, hheader.bind_error⟩

end Tested

/-- `m'` is `m` with the programs, all of their objects, each once. -/
def Leaves (m : Memory) (Ps : List Program) (m' : Memory) : Prop :=
  ∃ ps xs, xs.Nodup ∧ Adds m m' xs ∧ Reads m' ps (Ps.map Program.objects) xs

theorem Leaves.nil (m : Memory) : Leaves m [] m := ⟨[], [], .nil, .refl m, .nil⟩

/-- What is left first is not touched later. -/
theorem Leaves.append {m m' m'' : Memory} {Ps Qs : List Program} (h : Leaves m Ps m')
    (h' : Leaves m' Qs m'') : Leaves m (Ps ++ Qs) m'' := by
  obtain ⟨ps, xs, hxs, hadds, hr⟩ := h
  obtain ⟨qs, ys, hys, haddsy, hr'⟩ := h'
  have hdisjoint : (xs ++ ys).Nodup :=
    List.Nodup.append hxs hys fun x hx hy => haddsy.fresh x hy (hr.mem hx)
  have hkept : Reads m'' ps (Ps.map Program.objects) xs :=
    hr.congr fun x hx => haddsy.lookup_of_mem (hr.mem hx)
  refine ⟨ps ++ qs, xs ++ ys, hdisjoint, hadds.trans haddsy, ?_⟩
  rw [List.map_append]
  exact hkept.append hr'

end ProgramAnalysis.Typecheck
