import Mathlib.Algebra.Ring.Nat
import ProgramAnalysis.Lib.Linked
import ProgramAnalysis.Typecheck.Driver

/-!
# The scopes in memory

The typechecker on scopes that are objects behind pointers, as `new` makes them and `delete` removes
them. An access through a null pointer, or to a scope that is not there, ends in `Exn.nullScope`.

* `Machine`, `Machine.enterScope`, `Machine.exitScope`: a typechecker and the memory of its scopes;
* `Machine.typecheckStatement`, `Machine.typecheckProgram`: the checker with these;
* `Represents`, **`typecheckProgram_actsAs`**: it does what the checker on lists of tables does;
* `lifetime`, `lifetimes`: typecheckers one after another, each with its constructor and destructor;
* **`scopes_leaked`**: none goes wrong, and how many scopes are left of those that throw.
-/

namespace ProgramAnalysis.Typecheck

open Lib

/-! ## Pointers -/

/-- The `ValueEnv` objects: a table, and the pointer to the parent. -/
abbrev Scopes : Type := Pool ℕ (Table Ty)

/-- A `Typechecker` object, and the memory of the scopes. -/
structure Machine where
  scopes : Scopes
  valueEnv : Option ℕ
  functionEnv : Table FunctionTypeSig

namespace Machine

/-- `Env::get`, with a bound on the length of the chain. -/
def get (scopes : Cells ℕ (Table Ty)) (vname : String) : ℕ → Option ℕ → Except Exn Ty
  | n + 1, some p =>
    match scopes.lookup p with
    | none => .error .nullScope
    | some env =>
      match env.value.lookup vname with
      | some value => .ok value
      | none =>
        if env.next ≠ none then get scopes vname n env.next
        else .error (.string ("Variable " ++ vname ++ " not found."))
  | _, _ => .error .nullScope

/-- `*valueEnv`, with its address. -/
def scope (m : Machine) : Except Exn (ℕ × Cell ℕ (Table Ty)) :=
  match m.valueEnv with
  | none => .error .nullScope
  | some p => (m.scopes.cells.lookup p).elim (.error .nullScope) fun env => .ok (p, env)

def typecheckVar (m : Machine) (name : String) : Except Exn Ty :=
  get m.scopes.cells name m.scopes.cells.keys.card m.valueEnv

mutual

/-- `Typechecker::typecheckExpression`. A call uses the functions only. -/
def typecheckExpression (m : Machine) : Expression → Except Exn Ty
  | .empty => typecheckEmpty
  | .var name => m.typecheckVar name
  | .num _ => typecheckNum
  | .binary _ left right =>
    typecheckBinaryExpression (m.typecheckExpression left) (m.typecheckExpression right)
  | .functionCall name arguments =>
    typecheckFunctionCall ⟨[], m.functionEnv⟩ name (m.argumentChecks arguments)

def argumentChecks (m : Machine) : List Expression → List (Except Exn Ty)
  | [] => []
  | arg :: args => m.typecheckExpression arg :: m.argumentChecks args

end

/-- Calls on a typechecker and its memory. -/
abbrev Work (α : Type) : Type := Call Exn Machine α

/-- `valueEnv->addMapping(name, type)`. -/
def addVariable (name : String) (type : Ty) : Work Unit := Call.update fun m => do
  let (p, env) ← m.scope
  let table ← env.value.addMapping name type
  return { m with scopes := m.scopes.put p { env with value := table } }

/-- `functionEnv.addMapping(name, sig)`. -/
def addFunction (name : String) (sig : FunctionTypeSig) : Work Unit := Call.update fun m =>
  (m.functionEnv.addMapping name sig).map fun env => { m with functionEnv := env }

def addDeclarations : Declarations → Work Unit
  | [] => pure ()
  | d :: ds => do
    addVariable d.getVariable d.getType
    addDeclarations ds

def throwIf (c : Prop) [Decidable c] (e : Exn) : Work Unit := if c then Call.fail e else pure ()

def checkExpression (e : Expression) : Work Ty := Call.read fun m => m.typecheckExpression e

def exitScope : Work Unit := Call.update fun m => do
  let (p, env) ← m.scope
  return { m with scopes := m.scopes.delete p, valueEnv := env.next }

def typecheckAssignment (target : String) (expression : Expression) : Work (Finset Ty) := do
  let varType ← Call.read fun m => m.typecheckVar target
  let exprType ← checkExpression expression
  throwIf (varType ≠ exprType)
    (.cstring "Typechecker::typecheckAssignmentStatement : type mismatch!")
  return {.NIL}

def typecheckBranch (condition : Expression) (thenStatement elseStatement : Work (Finset Ty)) :
    Work (Finset Ty) :=
  match condition with
  | .binary _ left right => do
    let leftType ← checkExpression left
    let rightType ← checkExpression right
    throwIf (leftType ≠ rightType)
      (.cstring "Typechecker::typecheckExpression: Operands must be of same Type!")
    let thenTypes ← thenStatement
    let elseTypes ← elseStatement
    return setUnion thenTypes elseTypes
  | _ => Call.fail .badCast

def typecheckLoop (condition : Expression) (body : Work (Finset Ty)) : Work (Finset Ty) := do
  let condType ← checkExpression condition
  throwIf (condType ≠ .BOOL)
    (.cstring "Typechecker::typecheckLoop: Condition is not of type BOOL!")
  body

def typecheckSequence (resultTypes : Finset Ty) : List (Work (Finset Ty)) → Work (Finset Ty)
  | [] => pure resultTypes
  | s :: ss => do
    let stmtTypes ← s
    typecheckSequence (setUnion resultTypes stmtTypes) ss

def typecheckReturn (expression : Expression) : Work (Finset Ty) := do
  let type ← checkExpression expression
  return {type}

section

variable (A : Allocator ℕ)

/-- `valueEnv = new ValueEnv(valueEnv)`. -/
def newScope (m : Machine) : Machine :=
  { m with scopes := m.scopes.new A ⟨∅, m.valueEnv⟩, valueEnv := some (m.scopes.address A) }

def enterScope : Work Unit := Call.write (newScope A)

def typecheckBlock (declarations : Declarations) (statement : Work (Finset Ty)) :
    Work (Finset Ty) := do
  enterScope A
  addDeclarations declarations
  let blockTypes ← statement
  exitScope
  return blockTypes

mutual

/-- `Typechecker::typecheckStatement`. -/
def typecheckStatement : Statement → Work (Finset Ty)
  | .skip => pure {.NIL}
  | .assignment target expression => typecheckAssignment target expression
  | .branch condition thenStatement elseStatement =>
    typecheckBranch condition (typecheckStatement thenStatement) (typecheckStatement elseStatement)
  | .loop condition body => typecheckLoop condition (typecheckStatement body)
  | .sequence statements => typecheckSequence ∅ (statementChecks statements)
  | .block declarations statement => typecheckBlock A declarations (typecheckStatement statement)
  | .ret expression => typecheckReturn expression

def statementChecks : List Statement → List (Work (Finset Ty))
  | [] => []
  | s :: ss => typecheckStatement s :: statementChecks ss

end

def typecheckFunctionDef (fdef : FunctionDefinition) : Work Unit := do
  addFunction fdef.name fdef.signature
  enterScope A
  addDeclarations fdef.parameters
  let returnTypes ← typecheckBlock A fdef.body.declarations (typecheckStatement A fdef.body.statement)
  throwIf (returnTypes.card > 2)
    (.string ("Typechecker::typecheckFunctionDef : More than 2 Return type in function "
      ++ fdef.name))
  throwIf (fdef.returnType ∉ returnTypes)
    (.string ("Typechecker::typecheckFunctionDef : Return type mismatch in function " ++ fdef.name))
  exitScope

def typecheckFunctionDefs : List FunctionDefinition → Work Unit
  | [] => pure ()
  | fdef :: fdefs => do
    typecheckFunctionDef A fdef
    typecheckFunctionDefs fdefs

def typecheckProgram (program : Program) : Work Unit := do
  addDeclarations program.declarations
  typecheckFunctionDefs A program.functionDefs
  let _ ← typecheckStatement A program.statement

/-- The constructor: `valueEnv = new ValueEnv(NULL)`. -/
def new (scopes : Scopes) : Machine := newScope A ⟨scopes, none, ∅⟩

end

/-- The environments that the driver prints: `*valueEnv` and `functionEnv`. -/
def tables (m : Machine) : Except Exn (Table Ty × Table FunctionTypeSig) :=
  m.scope.map fun env => (env.2.value, m.functionEnv)

/-- `~Typechecker`, which deletes the scope of `valueEnv`. It is undefined if that was deleted before. -/
def destroy (m : Machine) : Option Scopes :=
  match m.valueEnv with
  | none => some m.scopes
  | some p => if p ∈ m.scopes.cells then some (m.scopes.delete p) else none

end Machine

/-! ## The same as on lists -/

/-- The scopes in memory, above those of `g`, are the tables of the typechecker. -/
structure Represents (g : Cells ℕ (Table Ty)) (m : Machine) (tc : Typechecker) : Prop where
  stacked : Stacked g m.scopes.cells m.valueEnv tc.valueEnv
  functions : m.functionEnv = tc.functionEnv

section Refinement

variable {g : Cells ℕ (Table Ty)} {m : Machine} {tc : Typechecker}

theorem get_eq {h : Cells ℕ (Table Ty)} {q : Option ℕ} {ps : List ℕ} {env : Env Ty} {n : ℕ}
    (hl : Linked h q ps env) (hn : ps.length ≤ n) (vname : String) :
    Machine.get h vname n q = env.get vname := by
  induction hl generalizing n with
  | nil => cases n <;> rfl
  | @cons p q table ps env hp hl ih =>
    cases n with
    | zero => exact absurd hn (Nat.not_succ_le_zero _)
    | succ n =>
      have hnext : q ≠ none ↔ env ≠ [] := not_congr hl.eq_none_iff
      simp only [Machine.get, hp, Env.get]
      rcases table.lookup vname with - | value
      · exact if_congr hnext (ih (Nat.le_of_succ_le_succ hn)) rfl
      · rfl

theorem typecheckVar_eq (h : Represents g m tc) (name : String) :
    m.typecheckVar name = Typecheck.typecheckVar tc name := by
  obtain ⟨ps, hl, he⟩ := h.stacked
  exact get_eq hl he.length_le name

mutual

theorem typecheckExpression_eq (h : Represents g m tc) : ∀ e : Expression,
    m.typecheckExpression e = Typecheck.typecheckExpression tc e
  | .empty => rfl
  | .var name => typecheckVar_eq h name
  | .num _ => rfl
  | .binary _ left right => by
    rw [Machine.typecheckExpression, Typecheck.typecheckExpression, typecheckExpression_eq h left,
      typecheckExpression_eq h right]
  | .functionCall name arguments => by
    rw [Machine.typecheckExpression, Typecheck.typecheckExpression, argumentChecks_eq h arguments,
      h.functions]
    rfl

theorem argumentChecks_eq (h : Represents g m tc) : ∀ args : List Expression,
    m.argumentChecks args = Typecheck.argumentChecks tc args
  | [] => rfl
  | arg :: args => by
    rw [Machine.argumentChecks, Typecheck.argumentChecks, typecheckExpression_eq h arg,
      argumentChecks_eq h args]

end

theorem scope_eq (h : Represents g m tc) :
    (tc.valueEnv = [] ∧ m.scope = .error .nullScope) ∨ ∃ p table q env,
      m.valueEnv = some p ∧ m.scopes.cells.lookup p = some ⟨table, q⟩ ∧
        tc.valueEnv = table :: env ∧ m.scope = .ok (p, ⟨table, q⟩) := by
  rcases henv : tc.valueEnv with - | ⟨table, env⟩
  · obtain ⟨ps, hl, -⟩ := h.stacked
    refine .inl ⟨rfl, ?_⟩
    rw [Machine.scope, hl.eq_none_iff.mpr henv]
  · obtain ⟨p, q, hp, hlookup⟩ := (henv ▸ h.stacked).top
    refine .inr ⟨p, table, q, env, hp, hlookup, rfl, ?_⟩
    simp only [Machine.scope, hp, hlookup, Option.elim_some]

/-! ### Calls -/

theorem exitScope_actsAs : Call.ActsAs (Represents g) Machine.exitScope exitScope := by
  refine .update fun m tc h => ?_
  rcases scope_eq h with ⟨henv, hscope⟩ | ⟨p, table, q, env, hp, hlookup, henv, hscope⟩
  · exact .inr ⟨.nullScope, by rw [hscope]; rfl, by rw [henv]⟩
  · have hpop : Stacked g (m.scopes.cells.erase p) q env :=
      Stacked.pop (hp ▸ henv ▸ h.stacked) hlookup
    refine .inl ⟨{ m with scopes := m.scopes.delete p, valueEnv := q }, { tc with valueEnv := env },
      ?_, ?_, hpop, h.functions⟩
    · rw [hscope]
      rfl
    · rw [henv]

theorem addVariable_actsAs (name : String) (type : Ty) :
    Call.ActsAs (Represents g) (Machine.addVariable name type) (addVariable name type) := by
  refine .update fun m tc h => ?_
  rcases scope_eq h with ⟨henv, hscope⟩ | ⟨p, table, q, env, hp, hlookup, henv, hscope⟩
  · exact .inr ⟨.nullScope, by rw [hscope]; rfl, by rw [henv]; rfl⟩
  · rw [hscope, henv, Env.addMapping]
    rcases hadd : table.addMapping name type with e | table'
    · refine .inr ⟨e, ?_, rfl⟩
      show (table.addMapping name type >>= _) = _
      rw [hadd]
      rfl
    · have hset : Stacked g (m.scopes.cells.insert p ⟨table', q⟩) m.valueEnv (table' :: env) :=
        hp ▸ Stacked.set (hp ▸ henv ▸ h.stacked) hlookup table'
      refine .inl ⟨{ m with scopes := m.scopes.put p ⟨table', q⟩ },
        { tc with valueEnv := table' :: env }, ?_, rfl, hset, h.functions⟩
      show (table.addMapping name type >>= _) = _
      rw [hadd]
      rfl

theorem addFunction_actsAs (name : String) (sig : FunctionTypeSig) :
    Call.ActsAs (Represents g) (Machine.addFunction name sig) (addFunction name sig) := by
  refine .update fun m tc h => ?_
  rw [h.functions]
  rcases tc.functionEnv.addMapping name sig with e | table
  · exact .inr ⟨e, rfl, rfl⟩
  · exact .inl ⟨_, _, rfl, rfl, h.stacked, rfl⟩

theorem addDeclarations_actsAs (ds : Declarations) :
    Call.ActsAs (Represents g) (Machine.addDeclarations ds) (addDeclarations ds) := by
  induction ds with
  | nil => exact .ret ()
  | cons d ds ih => exact (addVariable_actsAs _ _).bind fun _ => ih

theorem throwIf_actsAs (c : Prop) [Decidable c] (e : Exn) :
    Call.ActsAs (Represents g) (Machine.throwIf c e) (throwIf c e) := .ite (.fail e) (.ret ())

theorem checkExpression_actsAs (e : Expression) :
    Call.ActsAs (Represents g) (Machine.checkExpression e) (checkExpression e) :=
  .read fun _ _ h => typecheckExpression_eq h e

theorem typecheckAssignment_actsAs (x : String) (e : Expression) : Call.ActsAs (Represents g)
    (Machine.typecheckAssignment x e) (typecheckAssignment x e) := by
  have hvar : Call.ActsAs (Represents g) (Call.read fun m => m.typecheckVar x)
      (Call.read fun tc => tc.valueEnv.get x) := .read fun _ _ h => typecheckVar_eq h x
  exact hvar.bind fun _ => (checkExpression_actsAs e).bind fun _ =>
    (throwIf_actsAs _ _).bind fun _ => .ret _

variable {thenM elseM bodyM : Machine.Work (Finset Ty)} {thenC elseC bodyC : Check (Finset Ty)}

theorem typecheckBranch_actsAs (c : Expression) (ht : Call.ActsAs (Represents g) thenM thenC)
    (he : Call.ActsAs (Represents g) elseM elseC) : Call.ActsAs (Represents g)
      (Machine.typecheckBranch c thenM elseM) (typecheckBranch c thenC elseC) := by
  cases c with
  | binary _ l r =>
    exact (checkExpression_actsAs l).bind fun _ => (checkExpression_actsAs r).bind fun _ =>
      (throwIf_actsAs _ _).bind fun _ => ht.bind fun _ => he.bind fun _ => .ret _
  | _ => exact .fail Exn.badCast

theorem typecheckLoop_actsAs (c : Expression) (hb : Call.ActsAs (Represents g) bodyM bodyC) :
    Call.ActsAs (Represents g) (Machine.typecheckLoop c bodyM) (typecheckLoop c bodyC) :=
  (checkExpression_actsAs c).bind fun _ => (throwIf_actsAs _ _).bind fun _ => hb

theorem typecheckSequence_actsAs {ms : List (Machine.Work (Finset Ty))} {cs : List (Check (Finset Ty))}
    (h : List.Forall₂ (Call.ActsAs (Represents g)) ms cs) (Ts : Finset Ty) :
    Call.ActsAs (Represents g) (Machine.typecheckSequence Ts ms) (typecheckSequence Ts cs) := by
  induction h generalizing Ts with
  | nil => exact .ret Ts
  | cons hm _ ih => exact hm.bind fun _ => ih _

theorem typecheckReturn_actsAs (e : Expression) :
    Call.ActsAs (Represents g) (Machine.typecheckReturn e) (typecheckReturn e) :=
  (checkExpression_actsAs e).bind fun _ => .ret _

variable (A : Allocator ℕ)

/-- A new scope above the others, whatever they are. -/
theorem newScope_represents (h : Represents g m tc) :
    Represents g (m.newScope A) { tc with valueEnv := ∅ :: tc.valueEnv } :=
  ⟨h.stacked.push A ∅, h.functions⟩

theorem enterScope_actsAs : Call.ActsAs (Represents g) (Machine.enterScope A) enterScope :=
  .write fun _ _ => newScope_represents A

theorem typecheckBlock_actsAs (ds : Declarations) (hb : Call.ActsAs (Represents g) bodyM bodyC) :
    Call.ActsAs (Represents g) (Machine.typecheckBlock A ds bodyM) (typecheckBlock ds bodyC) :=
  (enterScope_actsAs A).bind fun _ => (addDeclarations_actsAs ds).bind fun _ =>
    hb.bind fun _ => exitScope_actsAs.bind fun _ => .ret _

theorem typecheckStatement_actsAs (s : Statement) :
    Call.ActsAs (Represents g) (Machine.typecheckStatement A s) (typecheckStatement s) := by
  have hlist : ∀ ss : List Statement, (∀ s ∈ ss, Call.ActsAs (Represents g)
      (Machine.typecheckStatement A s) (typecheckStatement s)) → List.Forall₂
        (Call.ActsAs (Represents g)) (Machine.statementChecks A ss) (statementChecks ss) := by
    intro ss hss
    induction ss with
    | nil => exact .nil
    | cons s ss ih =>
      obtain ⟨hs, hss⟩ := List.forall_mem_cons.mp hss
      exact .cons hs (ih hss)
  induction s using Statement.ind with
  | skip => exact .ret _
  | assignment x e => exact typecheckAssignment_actsAs x e
  | branch c t e iht ihe => exact typecheckBranch_actsAs c iht ihe
  | loop c b ih => exact typecheckLoop_actsAs c ih
  | sequence ss ih => exact typecheckSequence_actsAs (hlist ss ih) ∅
  | block ds b ih => exact typecheckBlock_actsAs A ds ih
  | ret e => exact typecheckReturn_actsAs e

theorem typecheckFunctionDef_actsAs (f : FunctionDefinition) : Call.ActsAs (Represents g)
    (Machine.typecheckFunctionDef A f) (typecheckFunctionDef f) :=
  (addFunction_actsAs _ _).bind fun _ => (enterScope_actsAs A).bind fun _ =>
    (addDeclarations_actsAs _).bind fun _ =>
      (typecheckBlock_actsAs A _ (typecheckStatement_actsAs A _)).bind fun _ =>
        (throwIf_actsAs _ _).bind fun _ => (throwIf_actsAs _ _).bind fun _ => exitScope_actsAs

theorem typecheckFunctionDefs_actsAs (fs : List FunctionDefinition) : Call.ActsAs (Represents g)
    (Machine.typecheckFunctionDefs A fs) (typecheckFunctionDefs fs) := by
  induction fs with
  | nil => exact .ret ()
  | cons f fs ih => exact (typecheckFunctionDef_actsAs A f).bind fun _ => ih

/-- **The checker on scopes in memory does what the checker on lists of tables does**, and all along its
scopes are the tables of the list. -/
theorem typecheckProgram_actsAs (P : Program) :
    Call.ActsAs (Represents g) (Machine.typecheckProgram A P) (typecheckProgram P) :=
  (addDeclarations_actsAs _).bind fun _ => (typecheckFunctionDefs_actsAs A _).bind fun _ =>
    (typecheckStatement_actsAs A _).bind fun _ => .ret ()

end Refinement

/-! ## Constructor and destructor -/

section Lifetime

variable (A : Allocator ℕ)

/-- A test: a typechecker is made, checks the program, and is deleted at the end or by the throw. -/
def lifetime (P : Program) (s : Scopes) :
    Option (Except Exn (Table Ty × Table FunctionTypeSig) × Scopes) :=
  let o := Machine.typecheckProgram A P (Machine.new A s)
  o.final.destroy.map fun s' => (o.result >>= fun _ => o.final.tables, s')

/-- Tests one after another, where every throw is caught. -/
def lifetimes :
    List Program → Scopes → Option (List (Except Exn (Table Ty × Table FunctionTypeSig)) × Scopes)
  | [], s => some ([], s)
  | P :: Ps, s => do
    let (r, s₁) ← lifetime A P s
    let (rs, s₂) ← lifetimes Ps s₁
    return (r :: rs, s₂)

/-- The environments that the driver prints, on lists of tables. -/
def Program.tables (P : Program) : Except Exn (Table Ty × Table FunctionTypeSig) := do
  let tc ← checked P
  (getValueEnv tc).map fun table => (table, tc.functionEnv)

/-- The scopes open where the check of a program ends, but the innermost. -/
def Program.leaked (P : Program) : ℕ :=
  (typecheckProgram P Typechecker.new).final.valueEnv.length - 1

section Leaks

variable {A} {g : Cells ℕ (Table Ty)} {m : Machine} {tc : Typechecker}

theorem new_represents (s : Scopes) : Represents s.cells (Machine.new A s) Typechecker.new := by
  have hstart : Represents s.cells ⟨s, none, ∅⟩ ⟨[], ∅⟩ := ⟨.empty s.cells, rfl⟩
  exact newScope_represents A hstart

theorem tables_eq (h : Represents g m tc) :
    m.tables = (getValueEnv tc).map fun table => (table, tc.functionEnv) := by
  rw [Machine.tables, getValueEnv, h.functions]
  rcases scope_eq h with ⟨henv, hscope⟩ | ⟨p, table, q, env, -, -, henv, hscope⟩
  · rw [hscope, henv]
    rfl
  · rw [hscope, henv]
    rfl

/-- The destructor deletes one scope, and leaves those below it. -/
theorem destroy_leaves (h : Represents g m tc) :
    ∃ s xs, m.destroy = some s ∧ Extra g s.cells xs ∧ xs.length = tc.valueEnv.length - 1 := by
  rw [Machine.destroy]
  rcases scope_eq h with ⟨henv, -⟩ | ⟨p, table, q, env, hp, hlookup, henv, -⟩
  · obtain ⟨ps, hl, he⟩ := h.stacked
    refine ⟨m.scopes, ps, by rw [hl.eq_none_iff.mpr henv], he, ?_⟩
    rw [hl.length_eq, henv]
    rfl
  · obtain ⟨ps, hl, he⟩ := Stacked.pop (hp ▸ henv ▸ h.stacked) hlookup
    refine ⟨m.scopes.delete p, ps, ?_, he, ?_⟩
    · simp only [hp, if_pos (Finmap.mem_of_lookup_eq_some hlookup)]
    · rw [hl.length_eq, henv]
      rfl

theorem leaked_of_ok {P : Program} (h : P.verdict = .ok ()) : P.leaked = 0 := by
  rw [Program.leaked, (typecheckProgram_gives P).2 h, Program.environments, registerAll_valueEnv]
  rfl

theorem tables_ne_nullScope (P : Program) : P.tables ≠ .error .nullScope := by
  have hnonnull := (typecheckProgram_raises P).nonnull
  rw [(typecheckProgram_gives P).1] at hnonnull
  rw [Program.tables, checked_eq]
  rcases hv : P.verdict with e | u
  · rw [hv] at hnonnull
    exact fun h => hnonnull (by cases h; rfl)
  · show (getValueEnv P.environments).map _ ≠ _
    rw [getValueEnv_environments]
    rintro ⟨⟩

/-- **One test**: what it prints, and what it leaves. -/
theorem lifetime_leaves (P : Program) (s : Scopes) : ∃ s' xs,
    lifetime A P s = some (P.tables, s') ∧ Extra s.cells s'.cells xs ∧ xs.length = P.leaked := by
  have hnew : Represents s.cells (Machine.new A s) Typechecker.new := new_represents s
  obtain ⟨hresult, hfinal, -⟩ := typecheckProgram_actsAs A P _ _ hnew
  obtain ⟨s', xs, hdestroy, he, hlength⟩ := destroy_leaves hfinal
  refine ⟨s', xs, ?_, he, hlength⟩
  simp only [lifetime, hdestroy, hresult, tables_eq hfinal, Option.map_some, Program.tables, checked]
  rcases (typecheckProgram P Typechecker.new).result with e | u
  · rfl
  · rfl

end Leaks

/-- **What the tests leave of the scopes.** Wherever `new` puts them, and however many tests there are, no
access goes through a null pointer or to a deleted scope, none is deleted twice, and the driver sees the
tables of the lists. Afterwards the memory is as before and has, for each program that is rejected, as many
scopes more as were open where its check threw, but one. -/
theorem scopes_leaked (Ps : List Program) (s : Scopes) :
    (∀ P : Program, P.tables ≠ .error .nullScope ∧ (P.verdict = .ok () → P.leaked = 0)) ∧
    ∃ s' xs, lifetimes A Ps s = some (Ps.map Program.tables, s') ∧ Extra s.cells s'.cells xs ∧
      xs.length = (Ps.map Program.leaked).sum := by
  refine ⟨fun P => ⟨tables_ne_nullScope P, leaked_of_ok⟩, ?_⟩
  induction Ps generalizing s with
  | nil => exact ⟨s, [], rfl, .refl s.cells, rfl⟩
  | cons P Ps ih =>
    obtain ⟨s₁, xs, hP, hxs, hlength⟩ := lifetime_leaves (A := A) P s
    obtain ⟨s₂, ys, hPs, hys, hlengths⟩ := ih s₁
    refine ⟨s₂, xs ++ ys, ?_, hxs.trans hys, ?_⟩
    · rw [lifetimes, hP]
      simp only [Option.bind_eq_bind, Option.bind_some, hPs]
      rfl
    · rw [List.length_append, hlength, hlengths, List.map_cons, List.sum_cons]

/-- An undeclared variable in a block of a function: its block and its parameters stay. -/
example : Program.leaked ⟨"P", [], [⟨"f", .INT, [], ⟨[], .ret (.var "x")⟩⟩], .skip⟩ = 2 := rfl

end Lifetime

end ProgramAnalysis.Typecheck
