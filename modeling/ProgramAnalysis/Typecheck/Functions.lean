import ProgramAnalysis.Typecheck.Discipline

/-!
# Function definitions and programs

* `FunctionDefinition.bodyTypes`, `FunctionDefinition.Accepted`: the verdict on a definition;
* `Typechecker.register`: the state after an accepted definition;
* `FunctionDefinition.LeavesAt`: the state a throw leaves;
* `typecheckFunctionDef_of_mem`, `typecheckFunctionDef_of_notMem`: the two ways a definition goes;
* **`scope_discipline`**: checks put their scope back and stay above it;
* `DefsAccepted`, `Program.Accepted`, **`typecheckProgram_returns`**: the verdict on a program and
  the environments it ends with.
-/

namespace ProgramAnalysis.Typecheck

open Lib

/-! ## One definition -/

/-- The types of a function body, in the scope of its parameters. -/
def FunctionDefinition.bodyTypes (Γ : Context) (f : FunctionDefinition) : Option (Finset Ty) :=
  if (Declarations.names f.parameters).Nodup then
    stmtTypes ((Γ.define f).declare f.parameters) f.body.toStatement
  else none

/-- The test at the end of `typecheckFunctionDef`. -/
def FunctionDefinition.ReturnsPass (f : FunctionDefinition) (types : Finset Ty) : Prop :=
  types.card ≤ 2 ∧ f.returnType ∈ types

instance (f : FunctionDefinition) (types : Finset Ty) : Decidable (f.ReturnsPass types) := by
  unfold FunctionDefinition.ReturnsPass; infer_instance

/-- The definition is accepted in a context. -/
def FunctionDefinition.Accepted (Γ : Context) (f : FunctionDefinition) : Prop :=
  Γ.fn f.name = none ∧ ∃ types, f.bodyTypes Γ = some types ∧ f.ReturnsPass types

/-- A state with the signature of `f` added. -/
def Typechecker.register (tc : Typechecker) (f : FunctionDefinition) : Typechecker :=
  { tc with functionEnv := tc.functionEnv.insert f.name f.signature }

theorem context_register (σ : Typechecker) (f : FunctionDefinition) :
    (σ.register f).context = σ.context.define f := by
  refine Context.ext rfl (funext fun g => ?_)
  simp only [Typechecker.register, Typechecker.context, Context.define]
  split_ifs with h
  · rw [h, Finmap.lookup_insert]
  · rw [Finmap.lookup_insert_of_ne _ h]

theorem assign_signature (f : FunctionDefinition) :
    Mapped.assign Mapped.init f.signature = f.signature := rfl

theorem addFunction_of_notMem {σ : Typechecker} {f : FunctionDefinition}
    (h : f.name ∉ σ.functionEnv) :
    addFunction f.name f.signature σ = ⟨.ok (), σ.register f, [σ.register f]⟩ := by
  refine Call.update_of_ok ?_
  simp only [Table.addMapping, Finmap.lookup_eq_none.mpr h, Except.map, assign_signature]
  rfl

theorem addFunction_of_mem {σ : Typechecker} {f : FunctionDefinition} (h : f.name ∈ σ.functionEnv) :
    addFunction f.name f.signature σ =
      ⟨.error (.string ("Env::addMapping : repeat declaration for name " ++ f.name ++ ".")), σ, []⟩ := by
  refine Call.update_of_error ?_
  obtain ⟨sig, hsig⟩ := Finmap.mem_iff.mp h
  simp only [Table.addMapping, hsig, Except.map]

/-- `typecheckFunctionDef` after the signature was added. -/
def typecheckFunctionBody (f : FunctionDefinition) : Check Unit := do
  enterScope
  addDeclarations f.parameters
  let returnTypes ← typecheckStatement f.body.toStatement
  throwIf (returnTypes.card > 2)
    (.string ("Typechecker::typecheckFunctionDef : More than 2 Return type in function " ++ f.name))
  throwIf (f.returnType ∉ returnTypes)
    (.string ("Typechecker::typecheckFunctionDef : Return type mismatch in function " ++ f.name))
  exitScope

theorem typecheckFunctionDef_eq (f : FunctionDefinition) : typecheckFunctionDef f = (do
    addFunction f.name f.signature
    typecheckFunctionBody f : Check Unit) := rfl

/-- The tests of the return types as one verdict. -/
theorem returnTests_settle (f : FunctionDefinition) (types : Finset Ty) (σ : Typechecker)
    (e e' : Exn) : Settles (fun t => t = σ) σ (if f.ReturnsPass types then some () else none)
      ((do throwIf (types.card > 2) e; throwIf (f.returnType ∉ types) e' : Check Unit) σ) := by
  have hverdict : (if f.ReturnsPass types then some () else none) =
      (if types.card > 2 then none else some ()).bind fun _ =>
        if f.returnType ∉ types then none else some () := by
    unfold FunctionDefinition.ReturnsPass
    by_cases h1 : types.card ≤ 2
    · by_cases h2 : f.returnType ∈ types <;> simp [h1, h2, not_lt.mpr h1]
    · simp [h1, not_le.mp h1]
  rw [hverdict]
  exact Outcome.Settles.bind (throwIf_settles _ _) fun _ _ => throwIf_settles _ _

/-- The body of a definition and the tests of its types, in the scope of the parameters. -/
def checkReturnTypes (f : FunctionDefinition) : Check Unit := do
  let returnTypes ← typecheckStatement f.body.toStatement
  throwIf (returnTypes.card > 2)
    (.string ("Typechecker::typecheckFunctionDef : More than 2 Return type in function " ++ f.name))
  throwIf (f.returnType ∉ returnTypes)
    (.string ("Typechecker::typecheckFunctionDef : Return type mismatch in function " ++ f.name))

theorem typecheckFunctionBody_eq_inScope (f : FunctionDefinition) :
    typecheckFunctionBody f = inScope f.parameters (checkReturnTypes f) := by
  simp only [typecheckFunctionBody, checkReturnTypes, inScope, openScope, bind_assoc,
    bind_pure_unit]

/-- `f.LeavesAt σ τ`: what a throw leaves, from a state `σ` that has the signature. A parameter repeats a
name, and its scope has those before it; or the body throws in the scope of the parameters; or that scope
stays because the types of the body do not pass. -/
def FunctionDefinition.LeavesAt (f : FunctionDefinition) (σ τ : Typechecker) : Prop :=
  (∃ done, Declarations.StopsAfter f.parameters ∅ done ∧ τ = σ.push [Declarations.into done ∅]) ∨
    (Declarations.names f.parameters).Nodup ∧
      (f.body.toStatement.LeavesAt (σ.push [Declarations.into f.parameters ∅]) τ ∨
        (∃ types, stmtTypes (σ.context.declare f.parameters) f.body.toStatement = some types ∧
          ¬ f.ReturnsPass types) ∧ τ = σ.push [Declarations.into f.parameters ∅])

/-- At least one scope is pushed. -/
theorem FunctionDefinition.LeavesAt.exists_push {f : FunctionDefinition} {σ τ : Typechecker}
    (h : f.LeavesAt σ τ) : ∃ p, p ≠ [] ∧ τ = σ.push p := by
  rcases h with ⟨done, -, rfl⟩ | ⟨-, hbody | ⟨-, rfl⟩⟩
  · exact ⟨_, by simp, rfl⟩
  · obtain ⟨p, rfl⟩ := hbody.exists_push
    exact ⟨_, by simp, Typechecker.push_push _ _ _⟩
  · exact ⟨_, by simp, rfl⟩

theorem checkReturnTypes_settles (f : FunctionDefinition) (σ : Typechecker) :
    Settles (fun t => f.body.toStatement.LeavesAt σ t ∨
        (∃ types, stmtTypes σ.context f.body.toStatement = some types ∧ ¬ f.ReturnsPass types) ∧ t = σ) σ
      ((stmtTypes σ.context f.body.toStatement).bind fun types =>
        if f.ReturnsPass types then some () else none) (checkReturnTypes f σ) := by
  refine Outcome.Settles.bind ((typecheckStatement_settles _ _).mono fun _ _ => .inl) ?_
  intro types htypes
  refine (returnTests_settle f types _ _ _).mono fun hnone t ht => .inr ⟨⟨types, htypes, ?_⟩, ht⟩
  intro hpass
  rw [if_pos hpass] at hnone
  cases hnone

/-- **The body of a definition settles**, and a throw leaves at least the parameter scope. -/
theorem typecheckFunctionBody_settles (f : FunctionDefinition) (σ : Typechecker) :
    Settles (f.LeavesAt σ) σ
      (if (Declarations.names f.parameters).Nodup then
        (stmtTypes (σ.context.declare f.parameters) f.body.toStatement).bind fun types =>
          if f.ReturnsPass types then some () else none
      else none) (typecheckFunctionBody f σ) := by
  rw [typecheckFunctionBody_eq_inScope]
  refine inScope_settles (fun _ done hdone => .inl ⟨done, hdone, rfl⟩) fun hnd => ?_
  have hbody := checkReturnTypes_settles f (σ.push [Declarations.into f.parameters ∅])
  rw [context_push_into hnd] at hbody
  exact hbody.mono fun _ t ht => .inr ⟨hnd, ht⟩

/-- A definition of a name that is taken changes nothing. -/
theorem typecheckFunctionDef_of_mem {f : FunctionDefinition} {σ : Typechecker}
    (h : f.name ∈ σ.functionEnv) : typecheckFunctionDef f σ =
      ⟨.error (.string ("Env::addMapping : repeat declaration for name " ++ f.name ++ ".")), σ, []⟩ := by
  have ha := addFunction_of_mem h
  rw [typecheckFunctionDef_eq, Call.bind_of_error (by rw [ha]), ha]

/-- **A definition of a new name** adds its signature and settles on the state with it. -/
theorem typecheckFunctionDef_of_notMem {f : FunctionDefinition} {σ : Typechecker}
    (h : f.name ∉ σ.functionEnv) : ∃ o, typecheckFunctionDef f σ =
      ⟨o.result, o.final, σ.register f :: o.visited⟩ ∧
        Settles (f.LeavesAt (σ.register f)) (σ.register f)
          ((f.bodyTypes σ.context).bind fun types => if f.ReturnsPass types then some () else none)
            o := by
  have ha := addFunction_of_notMem h
  have hs := typecheckFunctionBody_settles f (σ.register f)
  refine ⟨typecheckFunctionBody f (σ.register f), ?_, ?_⟩
  · rw [typecheckFunctionDef_eq, Call.bind_of_ok (a := ()) (by rw [ha]), ha]
    rfl
  · rw [context_register] at hs
    unfold FunctionDefinition.bodyTypes
    split_ifs at hs ⊢ with hnd
    · exact hs
    · exact hs

theorem accepted_iff {f : FunctionDefinition} {Γ : Context} : f.Accepted Γ ↔ Γ.fn f.name = none ∧
    ((f.bodyTypes Γ).bind fun types => if f.ReturnsPass types then some () else none) = some () := by
  refine and_congr_right fun _ => ?_
  rw [Option.bind_eq_some_iff]
  refine exists_congr fun types => and_congr_right fun _ => ?_
  simp

/-- **A definition returns exactly when it is accepted**, and then its signature is added. -/
theorem typecheckFunctionDef_returns (f : FunctionDefinition) (σ : Typechecker) :
    (typecheckFunctionDef f σ).Returns (f.Accepted σ.context) (σ.register f) := by
  by_cases h : f.name ∈ σ.functionEnv
  · refine .of_error (fun hacc => ?_) (by rw [typecheckFunctionDef_of_mem h])
    exact absurd h (Finmap.lookup_eq_none.mp hacc.1)
  · obtain ⟨o, ho, hs⟩ := typecheckFunctionDef_of_notMem h
    rw [ho, accepted_iff]
    refine ⟨?_, fun hr => hs.restored () hr⟩
    rw [← toOption_eq_some_iff, hs.verdict]
    exact ⟨fun hr => ⟨Finmap.lookup_eq_none.mpr h, hr⟩, fun hr => hr.2⟩

/-! ## Balance of the scopes -/

theorem typecheckFunctionDef_visited {f : FunctionDefinition} {σ τ : Typechecker}
    (h : τ ∈ (typecheckFunctionDef f σ).visited) : σ.valueEnv <:+ τ.valueEnv := by
  by_cases hf : f.name ∈ σ.functionEnv
  · rw [typecheckFunctionDef_of_mem hf] at h
    exact absurd h List.not_mem_nil
  · obtain ⟨o, ho, hs⟩ := typecheckFunctionDef_of_notMem hf
    rw [ho] at h
    rcases List.mem_cons.mp h with rfl | h
    · exact List.suffix_rfl
    · exact (hs.passes τ h).1

theorem ne_nil_of_suffix {α : Type} {l m : List α} (h : l <:+ m) (hl : l ≠ []) : m ≠ [] := by
  rintro rfl
  exact hl (List.suffix_nil.mp h)

/-- **Scope discipline.** A statement check that returns leaves the state as it was, and a
definition that returns adds its own entry to the functions and nothing else. On the way the scopes
of the start are always at the bottom of the chain. -/
theorem scope_discipline (σ : Typechecker) :
    (∀ s types, (typecheckStatement s σ).result = .ok types → (typecheckStatement s σ).final = σ) ∧
    (∀ f, (typecheckFunctionDef f σ).result = .ok () →
      (typecheckFunctionDef f σ).final.valueEnv = σ.valueEnv ∧ f.name ∉ σ.functionEnv ∧
        (typecheckFunctionDef f σ).final.functionEnv =
          σ.functionEnv.insert f.name f.signature) ∧
    (∀ s, ∀ τ ∈ (typecheckStatement s σ).visited,
      σ.valueEnv <:+ τ.valueEnv ∧ (σ.valueEnv ≠ [] → τ.valueEnv ≠ [])) ∧
    (∀ f, ∀ τ ∈ (typecheckFunctionDef f σ).visited,
      σ.valueEnv <:+ τ.valueEnv ∧ (σ.valueEnv ≠ [] → τ.valueEnv ≠ [])) := by
  refine ⟨fun s types h => (typecheckStatement_settles s σ).restored types h, fun f h => ?_,
    fun s τ h => ?_, fun f τ h => ?_⟩
  · have hret := typecheckFunctionDef_returns f σ
    rw [hret.final h]
    exact ⟨rfl, Finmap.lookup_eq_none.mp (hret.iff.mp h).1, rfl⟩
  · have hs := ((typecheckStatement_settles s σ).passes τ h).1
    exact ⟨hs, ne_nil_of_suffix hs⟩
  · have hs := typecheckFunctionDef_visited h
    exact ⟨hs, ne_nil_of_suffix hs⟩

/-! ## Programs -/

/-- The context after a list of definitions. -/
def Context.defineAll (Γ : Context) (fs : List FunctionDefinition) : Context :=
  fs.foldl Context.define Γ

/-- The state after a list of accepted definitions. -/
def Typechecker.registerAll (tc : Typechecker) (fs : List FunctionDefinition) : Typechecker :=
  fs.foldl Typechecker.register tc

/-- Every definition is accepted in the context of those before it. -/
def DefsAccepted (Γ : Context) : List FunctionDefinition → Prop
  | [] => True
  | f :: fs => f.Accepted Γ ∧ DefsAccepted (Γ.define f) fs

theorem context_registerAll (σ : Typechecker) (fs : List FunctionDefinition) :
    (σ.registerAll fs).context = σ.context.defineAll fs := by
  induction fs generalizing σ with
  | nil => rfl
  | cons f fs ih =>
    change ((σ.register f).registerAll fs).context = (σ.context.define f).defineAll fs
    rw [ih, context_register]

theorem registerAll_valueEnv (fs : List FunctionDefinition) (σ : Typechecker) :
    (σ.registerAll fs).valueEnv = σ.valueEnv := by
  induction fs generalizing σ with
  | nil => rfl
  | cons f fs ih => exact ih (σ.register f)

theorem typecheckFunctionDefs_returns (fs : List FunctionDefinition) (σ : Typechecker) :
    (typecheckFunctionDefs fs σ).Returns (DefsAccepted σ.context fs) (σ.registerAll fs) := by
  induction fs generalizing σ with
  | nil => exact .of_ok trivial rfl rfl
  | cons f fs ih =>
    have htail := ih (σ.register f)
    rw [context_register] at htail
    exact (typecheckFunctionDef_returns f σ).seq fun _ => htail

/-- The context of the global declarations. -/
def Program.globals (P : Program) : Context := (⟨fun _ => none, fun _ => none⟩ : Context).declare
  P.declarations

/-- The verdict on a program. -/
def Program.Accepted (P : Program) : Prop :=
  (Declarations.names P.declarations).Nodup ∧ DefsAccepted P.globals P.functionDefs ∧
    (stmtTypes (P.globals.defineAll P.functionDefs) P.statement).isSome

/-- The state an accepted program ends with. -/
def Program.environments (P : Program) : Typechecker :=
  (⟨[Declarations.into P.declarations ∅], ∅⟩ : Typechecker).registerAll P.functionDefs

/-- **A program on a fresh typechecker returns exactly when it is accepted**, and then ends with its
environments. -/
theorem typecheckProgram_returns (P : Program) :
    (typecheckProgram P Typechecker.new).Returns P.Accepted P.environments := by
  let σ : Typechecker := ⟨[], ∅⟩
  have hdecls := addDeclarations_returns P.declarations σ ∅
  rw [freshIn_empty] at hdecls
  refine hdecls.seq fun hnd => ?_
  have hcontext : (σ.push [Declarations.into P.declarations ∅]).context = P.globals := by
    rw [context_push_into hnd]
    rfl
  have hdefs := typecheckFunctionDefs_returns P.functionDefs
    (σ.push [Declarations.into P.declarations ∅])
  have hstmt := Outcome.Returns.of_settles (typecheckStatement_settles P.statement
    ((σ.push [Declarations.into P.declarations ∅]).registerAll P.functionDefs))
  rw [context_registerAll, hcontext] at hstmt
  rw [hcontext] at hdefs
  exact hdefs.seq fun _ => hstmt

end ProgramAnalysis.Typecheck
