import ProgramAnalysis.Lib.Ownership
import ProgramAnalysis.Mycalc.Driver

/-!
# The objects of a test

The syntax in memory, as `new` makes it and the destructors of `mycalc/ast.cc` delete it.

* `Node`, `Test.objects`: the object of each class, and what its destructor deletes in turn;
* `memoryAfter`: `Test::execute`, which deletes the program if its run returns;
* `Session`, **`tests_leave_nothing`**: tests that return leave the memory as it was, unless two objects of
  a program own the same one.
-/

namespace ProgramAnalysis.Mycalc

open Lib

/-! ## Objects -/

/-- The classes of objects, with the members that are no pointers and do not change. -/
inductive Node
  | num (value : Int32)
  | var (name : String)
  | binary (cls : BinaryClass)
  | assignment (vname : String)
  | sequence
  | ifStatement
  | whileStatement
  | symbolTable
  | program (name : String)

/-- The objects of an expression; those below a node are the ones its destructor deletes, in order. -/
def Expression.objects : Expression → Rose Node
  | .num value => .node (.num value) []
  | .var name => .node (.var name) []
  | .binary cls left right => .node (.binary cls) [left.objects, right.objects]

mutual

def Statement.objects : Statement → Rose Node
  | .assignment vname expression => .node (.assignment vname) [expression.objects]
  | .sequence statements => .node .sequence (objectsOf statements)
  | .ifStatement condition thenBranch elseBranch =>
    .node .ifStatement [condition.objects, thenBranch.objects, elseBranch.objects]
  | .whileStatement condition body =>
    .node .whileStatement [condition.objects, .node .sequence (objectsOf body)]

def objectsOf : List Statement → List (Rose Node)
  | [] => []
  | s :: ss => s.objects :: objectsOf ss

end

/-- The objects of the program that `makeProgram` makes. -/
def Test.objects (t : Test) : Rose Node :=
  .node (.program t.name) [.node .symbolTable [], t.statement.objects]

/-! ## Tests -/

abbrev Memory : Type := Heap ℕ Node

section Execute

variable (leftFirst : BinaryClass → Bool) (n : ℕ)

/-- The memory after `Test::execute` with the program at `p`: `delete theProgram` comes last, after a run
that returns. -/
def memoryAfter (t : Test) (p : ℕ) (m : Memory) : Option Memory :=
  match (t.execute leftFirst n ⟨⟨[], none⟩, []⟩).result with
  | .ok _ => delete m.keys.card p m
  | .error _ => some m

/-- `Session m ts m'`: tests one after another, each with its own objects, every pointer passed to one
object only. -/
inductive Session : Memory → List Test → Memory → Prop
  | nil (m : Memory) : Session m [] m
  | cons {m m₁ m₂ m₃ : Memory} {t : Test} {p : ℕ} {ts : List Test} :
    Builds m [t.objects] [p] m₁ → memoryAfter leftFirst n t p m₁ = some m₂ → Session m₂ ts m₃ →
      Session m (t :: ts) m₃

variable {leftFirst n}

theorem memoryAfter_of_exec {t : Test} {U : SymbolTable}
    (h : (t.statement.exec leftFirst n).Gives ∅ (.ok ()) U) (p : ℕ) (m : Memory) :
    memoryAfter leftFirst n t p m = deleteAll m.keys.card [p] m := by
  obtain ⟨w, hw, -⟩ := (execute_gives t ⟨⟨[], none⟩, []⟩).1 U h
  rw [memoryAfter, hw.result, deleteAll_singleton]

end Execute

/-- **Tests that return leave nothing in memory.** Each deletes the objects of its program, and no other;
if one of them has two owners, it is deleted twice. So after tests that make their own objects and pass
each pointer once, with rounds enough for them all, the memory is as it was before. -/
theorem tests_leave_nothing (leftFirst : BinaryClass → Bool) (ts : List Test)
    (hts : ∀ t ∈ ts, ∃ U, t.statement.EndsIn leftFirst ∅ (.ok ()) U) :
    ∃ N, ∀ n, N ≤ n →
      (∀ t ∈ ts, ∀ m p xs, Reads m [p] [t.objects] xs →
        (xs.Nodup → memoryAfter leftFirst n t p m = some (without m xs)) ∧
          (¬ xs.Nodup → memoryAfter leftFirst n t p m = none)) ∧
      ∀ m m', Session leftFirst n m ts m' → m' = m := by
  choose! table htable using hts
  have hdone : ∀ p ∈ ts.map fun t => (t, table t), p.1.statement.EndsIn leftFirst ∅ (.ok ()) p.2 :=
    List.forall_mem_map.mpr htable
  obtain ⟨N, hN⟩ := exists_bound hdone
  refine ⟨N, fun n hn => ?_⟩
  have hdelete : ∀ t ∈ ts, ∀ m p xs, Reads m [p] [t.objects] xs →
      (xs.Nodup → memoryAfter leftFirst n t p m = some (without m xs)) ∧
        (¬ xs.Nodup → memoryAfter leftFirst n t p m = none) := by
    intro t ht m p xs hr
    rw [memoryAfter_of_exec (hN n hn (t, table t) (List.mem_map_of_mem ht))]
    exact hr.deleteAll_cases (Nat.le_refl _)
  refine ⟨hdelete, fun m m' hs => ?_⟩
  clear hdone hN htable
  induction hs with
  | nil m => rfl
  | @cons m m₁ m₂ m₃ t p ts hb hm _ ih =>
    obtain ⟨hfirst, hrest⟩ := List.forall_mem_cons.mp hdelete
    obtain ⟨xs, hr, hxs, hadds⟩ := hb.reads
    rw [(hfirst m₁ p xs hr).1 hxs, hadds.without_eq] at hm
    cases hm
    exact ih hrest

/-- `x := 1 + 1` with one object for both operands. -/
theorem tests_leave_nothing_shared :
    let t : Test := ⟨"P", .assignment "x" (.binary .AddExpression (.num 1) (.num 1))⟩
    let m : Memory := alloc 5 (.program "P") [4, 3] (alloc 4 .symbolTable [] (alloc 3 (.assignment "x") [2]
      (alloc 2 (.binary .AddExpression) [1, 1] (alloc 1 (.num 1) [] ∅))))
    ∃ n, memoryAfter (fun _ => true) n t 5 m = none := by
  intro t m
  have hends : t.statement.EndsIn (fun _ => true) ∅ (.ok ()) ((∅ : SymbolTable).insert "x" 2) := .act rfl
  have hr : Reads m [5] [t.objects] [5, 4, 3, 2, 1, 1] :=
    .cons rfl (.cons rfl .nil (.cons rfl (.cons rfl (.cons rfl .nil (.cons rfl .nil .nil)) .nil) .nil)) .nil
  obtain ⟨N, hN⟩ := tests_leave_nothing (fun _ => true) [t]
    (List.forall_mem_singleton.mpr ⟨_, hends⟩)
  exact ⟨N, ((hN N (Nat.le_refl N)).1 t (List.mem_singleton_self t) m 5 _ hr).2 (by decide)⟩

end ProgramAnalysis.Mycalc
