import ProgramAnalysis.Typecheck.Order

/-!
# The function environment

The functions of a typechecker only grow, and an accepted program ends with its own.

* `Typechecker.Keeps`: the functions of one state are functions of another, signatures included;
* `typecheckStatement_grows`, `typecheckFunctionDef_grows`, `typecheckProgram_grows`: no call alters
  an entry made before;
* **`function_environment_exact`**: the entries at the end are the definitions of the program.
-/

namespace ProgramAnalysis.Typecheck

open Lib

/-- Every function of `σ` is one of `τ`, with the same signature. -/
def Typechecker.Keeps (σ τ : Typechecker) : Prop :=
  ∀ g sig, σ.functionEnv.lookup g = some sig → τ.functionEnv.lookup g = some sig

namespace Typechecker.Keeps

variable {σ τ υ : Typechecker}

theorem refl (σ : Typechecker) : Keeps σ σ := fun _ _ h => h

theorem trans (h : Keeps σ τ) (h' : Keeps τ υ) : Keeps σ υ := fun g sig hg => h' g sig (h g sig hg)

theorem of_eq (h : τ.functionEnv = σ.functionEnv) : Keeps σ τ := fun g sig hg => by rw [h, hg]

/-- A new name takes no entry away. -/
theorem register {f : FunctionDefinition} (h : f.name ∉ σ.functionEnv) :
    Keeps σ (σ.register f) := by
  intro g sig hg
  have hne : g ≠ f.name := by
    rintro rfl
    exact h (Finmap.mem_iff.mpr ⟨sig, hg⟩)
  rw [Typechecker.register, Finmap.lookup_insert_of_ne _ hne, hg]

end Typechecker.Keeps

/-! ## Calls only add functions -/

/-- Every state of the call keeps the functions of those before it. -/
abbrev Grows {α : Type} (σ : Typechecker) (o : Outcome Exn Typechecker α) : Prop :=
  o.Grows Typechecker.Keeps σ

section Calls

variable {σ : Typechecker}

theorem grows_bind {α β : Type} {m : Check α} {k : α → Check β} (hm : Grows σ (m σ))
    (hk : ∀ a, Grows (m σ).final (k a (m σ).final)) : Grows σ ((m >>= k) σ) :=
  Outcome.Grows.bind (R := Typechecker.Keeps) (fun _ _ _ => Typechecker.Keeps.trans) hm hk

/-- A call that leaves the functions alone. -/
theorem grows_of_eq {α : Type} {o : Outcome Exn Typechecker α}
    (hv : ∀ t ∈ o.visited, t.functionEnv = σ.functionEnv)
    (hf : o.final.functionEnv = σ.functionEnv) : Grows σ o := by
  have hall : ∀ t ∈ σ :: o.visited ++ [o.final], t.functionEnv = σ.functionEnv := by
    intro t ht
    simp only [List.cons_append, List.mem_cons, List.mem_append, List.not_mem_nil, or_false] at ht
    rcases ht with rfl | ht | rfl
    · rfl
    · exact hv t ht
    · exact hf
  exact List.Pairwise.imp_of_mem (fun ht hu _ => .of_eq ((hall _ hu).trans (hall _ ht).symm))
    (List.pairwise_of_forall fun _ _ => trivial)

theorem grows_of_settles {α : Type} {Left : Typechecker → Prop} {v : Option α}
    {o : Outcome Exn Typechecker α} (h : Settles Left σ v o)
    (hleft : ∀ t, Left t → t.functionEnv = σ.functionEnv) : Grows σ o := by
  refine grows_of_eq (fun t ht => (h.passes t ht).2) ?_
  rcases hr : o.result with e | a
  · exact hleft _ (h.left e hr)
  · rw [h.restored a hr]

theorem addDeclarations_grows (ds : Declarations) : Grows σ (addDeclarations ds σ) := by
  induction ds generalizing σ with
  | nil => exact .of_still .refl
  | cons d ds ih =>
    rw [addDeclarations]
    refine grows_bind (.update .refl fun t ht => .of_eq ?_) fun _ => ih
    rcases hadd : σ.valueEnv.addMapping d.getVariable d.getType with e | env
    · rw [hadd] at ht
      cases ht
    · rw [hadd] at ht
      cases ht
      rfl

theorem typecheckStatement_grows (s : Statement) : Grows σ (typecheckStatement s σ) := by
  refine grows_of_settles (typecheckStatement_settles s σ) ?_
  intro t ht
  obtain ⟨p, rfl⟩ := ht.exists_push
  rfl

/-- **A definition adds its own entry and alters none.** -/
theorem typecheckFunctionDef_grows (f : FunctionDefinition) : Grows σ (typecheckFunctionDef f σ) := by
  by_cases hf : f.name ∈ σ.functionEnv
  · rw [typecheckFunctionDef_of_mem hf]
    exact .of_still .refl
  · have ha := addFunction_of_notMem hf
    rw [typecheckFunctionDef_eq]
    refine grows_bind ?_ fun _ => ?_
    · rw [ha]
      have hkeeps := Typechecker.Keeps.register hf
      simp [Grows, Outcome.Grows, hkeeps, Typechecker.Keeps.refl]
    · rw [ha]
      refine grows_of_settles (typecheckFunctionBody_settles f (σ.register f)) ?_
      intro t ht
      obtain ⟨p, -, rfl⟩ := ht.exists_push
      rfl

theorem typecheckFunctionDefs_grows (fs : List FunctionDefinition) :
    Grows σ (typecheckFunctionDefs fs σ) := by
  induction fs generalizing σ with
  | nil => exact .of_still .refl
  | cons f fs ih => exact grows_bind (typecheckFunctionDef_grows f) fun _ => ih

theorem typecheckProgram_grows (P : Program) : Grows σ (typecheckProgram P σ) :=
  grows_bind (addDeclarations_grows _) fun _ => grows_bind (typecheckFunctionDefs_grows _) fun _ =>
    grows_bind (typecheckStatement_grows _) fun _ => .of_still .refl

end Calls

/-! ## The entries at the end -/

section Entries

variable {P : Program}

theorem environments_lookup_of_mem {f : FunctionDefinition}
    (hnd : (definedNames P.functionDefs).Nodup) (hf : f ∈ P.functionDefs) :
    P.environments.functionEnv.lookup f.name = some f.signature := by
  have hcontext := context_registerAll ⟨[Declarations.into P.declarations ∅], ∅⟩ P.functionDefs
  have hfn := congrFun (congrArg Context.fn hcontext) f.name
  exact hfn.trans (defineAll_fn_of_mem hnd hf)

theorem mem_environments_iff (hnd : (definedNames P.functionDefs).Nodup) {g : String} :
    g ∈ P.environments.functionEnv ↔ g ∈ definedNames P.functionDefs := by
  constructor
  · intro h
    by_contra hg
    have hcontext := context_registerAll ⟨[Declarations.into P.declarations ∅], ∅⟩ P.functionDefs
    have hfn := congrFun (congrArg Context.fn hcontext) g
    rw [defineAll_fn_of_notMem hg] at hfn
    have hempty : (∅ : Table FunctionTypeSig).lookup g = none := Finmap.lookup_empty g
    exact Finmap.lookup_eq_none.mp (hfn.trans hempty) h
  · intro h
    obtain ⟨f, hf, rfl⟩ := List.mem_map.mp h
    exact Finmap.mem_iff.mpr ⟨f.signature, environments_lookup_of_mem hnd hf⟩

end Entries

/-- **The function environment is exactly the program's signatures.** After an accepted program, its
names are those of the definitions, all different, and every entry has the declared types. In every
program, accepted or not, an entry stays as it was made in all later states. -/
theorem function_environment_exact (P : Program) :
    ((typecheckProgram P Typechecker.new).result = .ok () →
      (definedNames P.functionDefs).Nodup ∧
      (∀ g, g ∈ (typecheckProgram P Typechecker.new).final.functionEnv ↔
        g ∈ definedNames P.functionDefs) ∧
      ∀ f ∈ P.functionDefs,
        (typecheckProgram P Typechecker.new).final.functionEnv.lookup f.name =
          some ⟨f.parameters.map Declaration.getType, f.returnType⟩) ∧
    (Typechecker.new :: (typecheckProgram P Typechecker.new).visited ++
      [(typecheckProgram P Typechecker.new).final]).Pairwise Typechecker.Keeps := by
  refine ⟨fun h => ?_, typecheckProgram_grows P⟩
  have hreturns := typecheckProgram_returns P
  have hnd := (defsAccepted_iff.mp (hreturns.iff.mp h).2.1).1
  rw [hreturns.final h]
  exact ⟨hnd, fun g => mem_environments_iff hnd, fun f hf => environments_lookup_of_mem hnd hf⟩

end ProgramAnalysis.Typecheck
