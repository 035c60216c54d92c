import ProgramAnalysis.Typecheck.Functions

/-!
# The names a verdict depends on

* `Expression.vars`, `Expression.calls`, `Statement.freeVars`, `Statement.calls`: the names used;
* `exprType_congr`, **`stmtTypes_congr`**, **`accepted_congr`**: contexts that agree on them give the
  same verdict;
* **`typecheckStatement_congr`**: so do states;
* `FunctionDefinition.Alike`, `Context.Carries`, **`defsAccepted_congr`**: lists of definitions that
  differ only inside get the same verdict in related contexts;
* **`program_congr`**, `outcome_congr`: so do programs made of them.
-/

namespace ProgramAnalysis.Typecheck

/-! ## Names -/

mutual

/-- The variables of an expression. -/
def Expression.vars : Expression → List String
  | .empty => []
  | .num _ => []
  | .var x => [x]
  | .binary _ l r => l.vars ++ r.vars
  | .functionCall _ args => argumentVars args

def argumentVars : List Expression → List String
  | [] => []
  | a :: args => a.vars ++ argumentVars args

end

mutual

/-- The functions called in an expression. -/
def Expression.calls : Expression → List String
  | .empty => []
  | .num _ => []
  | .var _ => []
  | .binary _ l r => l.calls ++ r.calls
  | .functionCall f args => f :: argumentCalls args

def argumentCalls : List Expression → List String
  | [] => []
  | a :: args => a.calls ++ argumentCalls args

end

mutual

/-- The variables of a statement that none of its blocks declares. -/
def Statement.freeVars : Statement → List String
  | .skip => []
  | .assignment x e => x :: e.vars
  | .branch c t e => c.vars ++ t.freeVars ++ e.freeVars
  | .loop c b => c.vars ++ b.freeVars
  | .sequence ss => sequenceFreeVars ss
  | .block ds s => s.freeVars.filter fun x => x ∉ Declarations.names ds
  | .ret e => e.vars

def sequenceFreeVars : List Statement → List String
  | [] => []
  | s :: ss => s.freeVars ++ sequenceFreeVars ss

end

mutual

/-- The functions called in a statement. -/
def Statement.calls : Statement → List String
  | .skip => []
  | .assignment _ e => e.calls
  | .branch c t e => c.calls ++ t.calls ++ e.calls
  | .loop c b => c.calls ++ b.calls
  | .sequence ss => sequenceCalls ss
  | .block _ s => s.calls
  | .ret e => e.calls

def sequenceCalls : List Statement → List String
  | [] => []
  | s :: ss => s.calls ++ sequenceCalls ss

end

theorem mem_argumentVars {args : List Expression} {x : String} :
    x ∈ argumentVars args ↔ ∃ a ∈ args, x ∈ a.vars := by
  induction args with
  | nil => simp [argumentVars]
  | cons a args ih => simp [argumentVars, ih]

theorem mem_argumentCalls {args : List Expression} {f : String} :
    f ∈ argumentCalls args ↔ ∃ a ∈ args, f ∈ a.calls := by
  induction args with
  | nil => simp [argumentCalls]
  | cons a args ih => simp [argumentCalls, ih]

theorem mem_sequenceFreeVars {ss : List Statement} {x : String} :
    x ∈ sequenceFreeVars ss ↔ ∃ s ∈ ss, x ∈ s.freeVars := by
  induction ss with
  | nil => simp [sequenceFreeVars]
  | cons s ss ih => simp [sequenceFreeVars, ih]

theorem mem_sequenceCalls {ss : List Statement} {f : String} :
    f ∈ sequenceCalls ss ↔ ∃ s ∈ ss, f ∈ s.calls := by
  induction ss with
  | nil => simp [sequenceCalls]
  | cons s ss ih => simp [sequenceCalls, ih]

/-! ## Agreement -/

/-- Two contexts agree on variables `vs` and functions `fs`. -/
structure Context.AgreeOn (Γ Δ : Context) (vs fs : List String) : Prop where
  var : ∀ x ∈ vs, Γ.var x = Δ.var x
  fn : ∀ f ∈ fs, Γ.fn f = Δ.fn f

namespace Context.AgreeOn

variable {Γ Δ : Context} {vs vs' fs fs' : List String}

theorem mono (h : Γ.AgreeOn Δ vs fs) (hv : vs' ⊆ vs) (hf : fs' ⊆ fs) : Γ.AgreeOn Δ vs' fs' :=
  ⟨fun x hx => h.var x (hv hx), fun f hf' => h.fn f (hf hf')⟩

/-- Declaring the same names makes contexts agree on them. -/
theorem declare {ds : Declarations}
    (h : Γ.AgreeOn Δ (vs.filter fun x => x ∉ Declarations.names ds) fs) :
    (Γ.declare ds).AgreeOn (Δ.declare ds) vs fs := by
  refine ⟨fun x hx => ?_, h.fn⟩
  rw [Context.declare_var, Context.declare_var]
  cases ht : Declarations.typeOf ds x with
  | some T => rfl
  | none =>
    rw [Option.none_or, Option.none_or]
    refine h.var x (List.mem_filter.mpr ⟨hx, ?_⟩)
    simpa using Declarations.typeOf_eq_none_iff.mp ht

end Context.AgreeOn

theorem exprType_congr {Γ Δ : Context} {e : Expression} (h : Γ.AgreeOn Δ e.vars e.calls) :
    exprType Γ e = exprType Δ e := by
  induction e using Expression.ind with
  | empty => rfl
  | num n => rfl
  | var x => exact h.var x (by simp [Expression.vars])
  | binary c l r ihl ihr =>
    rw [Expression.vars, Expression.calls] at h
    rw [exprType, exprType, ihl (h.mono (by simp) (by simp)), ihr (h.mono (by simp) (by simp))]
  | functionCall f args ih =>
    rw [Expression.vars, Expression.calls] at h
    have hargs : args.map (exprType Γ) = args.map (exprType Δ) := List.map_congr_left fun a ha =>
      ih a ha (h.mono (fun x hx => mem_argumentVars.mpr ⟨a, ha, hx⟩)
        (fun g hg => List.mem_cons_of_mem _ (mem_argumentCalls.mpr ⟨a, ha, hg⟩)))
    rw [exprType, exprType, h.fn f List.mem_cons_self, argTypes_eq_map, argTypes_eq_map, hargs]

theorem branchCondition_congr {Γ Δ : Context} {c : Expression} (h : Γ.AgreeOn Δ c.vars c.calls) :
    branchCondition Γ c = branchCondition Δ c := by
  cases c with
  | binary cls l r =>
    rw [Expression.vars, Expression.calls] at h
    rw [branchCondition, branchCondition, exprType_congr (h.mono (by simp) (by simp)),
      exprType_congr (e := r) (h.mono (by simp) (by simp))]
  | _ => rfl

theorem seqTypes_congr {Γ Δ : Context} {ss : List Statement}
    (h : ∀ s ∈ ss, stmtTypes Γ s = stmtTypes Δ s) : seqTypes Γ ss = seqTypes Δ ss := by
  induction ss with
  | nil => rfl
  | cons s ss ih =>
    rw [seqTypes, seqTypes, h s List.mem_cons_self, ih fun s hs => h s (List.mem_cons_of_mem _ hs)]

/-- **The verdict on a statement depends only on the names used in it.** -/
theorem stmtTypes_congr {Γ Δ : Context} {s : Statement} (h : Γ.AgreeOn Δ s.freeVars s.calls) :
    stmtTypes Γ s = stmtTypes Δ s := by
  induction s using Statement.ind generalizing Γ Δ with
  | skip => rfl
  | assignment x e =>
    rw [Statement.freeVars, Statement.calls] at h
    rw [stmtTypes, stmtTypes, h.var x List.mem_cons_self,
      exprType_congr (h.mono (List.subset_cons_self _ _) (List.Subset.refl _))]
  | branch c t e iht ihe =>
    rw [Statement.freeVars, Statement.calls] at h
    rw [stmtTypes, stmtTypes, branchCondition_congr (h.mono (by simp) (by simp)),
      iht (h.mono (by simp) (by simp)), ihe (h.mono (by simp) (by simp))]
  | loop c b ih =>
    rw [Statement.freeVars, Statement.calls] at h
    rw [stmtTypes, stmtTypes, exprType_congr (h.mono (by simp) (by simp)),
      ih (h.mono (by simp) (by simp))]
  | sequence ss ih =>
    rw [Statement.freeVars, Statement.calls] at h
    rw [stmtTypes, stmtTypes]
    exact seqTypes_congr fun s hs => ih s hs (h.mono
      (fun x hx => mem_sequenceFreeVars.mpr ⟨s, hs, hx⟩)
      (fun f hf => mem_sequenceCalls.mpr ⟨s, hs, hf⟩))
  | block ds s ih =>
    rw [Statement.freeVars, Statement.calls] at h
    rw [stmtTypes, stmtTypes, ih h.declare]
  | ret e =>
    rw [Statement.freeVars, Statement.calls] at h
    rw [stmtTypes, stmtTypes, exprType_congr h]

/-- **The outcome of a statement check depends only on the names used in it**, however the scopes and
the functions of the two states differ otherwise. -/
theorem typecheckStatement_congr {σ τ : Typechecker} {s : Statement}
    (hvar : ∀ x ∈ s.freeVars, (σ.valueEnv.get x).toOption = (τ.valueEnv.get x).toOption)
    (hfn : ∀ f ∈ s.calls, σ.functionEnv.lookup f = τ.functionEnv.lookup f) (types : Finset Ty) :
    (typecheckStatement s σ).result = .ok types ↔ (typecheckStatement s τ).result = .ok types := by
  have hagree : σ.context.AgreeOn τ.context s.freeVars s.calls := by
    refine ⟨fun x hx => ?_, hfn⟩
    have hx' := hvar x hx
    rw [Env.get_toOption, Env.get_toOption] at hx'
    exact hx'
  rw [← Lib.toOption_eq_some_iff, ← Lib.toOption_eq_some_iff, (typecheckStatement_settles s σ).verdict,
    (typecheckStatement_settles s τ).verdict, stmtTypes_congr hagree]

/-- The block redeclares `x`, and only `y` matters of the scopes around it. -/
theorem typecheckStatement_congr_block :
    let s : Statement := .block [⟨"x", .INT⟩] (.assignment "x" (.var "y"))
    let σ : Typechecker := ⟨[Declarations.into [⟨"x", .BOOL⟩, ⟨"y", .INT⟩] ∅], ∅⟩
    let τ : Typechecker := ⟨[∅, Declarations.into [⟨"y", .INT⟩] ∅], ∅⟩
    (typecheckStatement s σ).result = .ok {.NIL} ↔
      (typecheckStatement s τ).result = .ok {.NIL} :=
  typecheckStatement_congr (by decide) (by decide) {.NIL}

/-! ## Definitions -/

/-- The variables of a definition that neither its parameters nor its blocks declare. -/
def FunctionDefinition.freeVars (f : FunctionDefinition) : List String :=
  f.body.toStatement.freeVars.filter fun x => x ∉ Declarations.names f.parameters

/-- The functions called in a definition. -/
def FunctionDefinition.calls (f : FunctionDefinition) : List String := f.body.toStatement.calls

theorem agreeOn_define {Γ Δ : Context} {vs fs : List String} (f : FunctionDefinition)
    (h : Γ.AgreeOn Δ vs fs) : (Γ.define f).AgreeOn (Δ.define f) vs fs := by
  refine ⟨h.var, fun g hg => ?_⟩
  simp only [Context.define]
  split_ifs
  · rfl
  · exact h.fn g hg

theorem bodyTypes_congr {Γ Δ : Context} {f : FunctionDefinition}
    (h : Γ.AgreeOn Δ f.freeVars f.calls) : f.bodyTypes Γ = f.bodyTypes Δ := by
  unfold FunctionDefinition.bodyTypes
  rw [stmtTypes_congr (agreeOn_define f h).declare]

/-- **The verdict on a definition depends only on the names used in it and on its own name.** -/
theorem accepted_congr {Γ Δ : Context} {f : FunctionDefinition}
    (h : Γ.AgreeOn Δ f.freeVars (f.name :: f.calls)) : f.Accepted Γ ↔ f.Accepted Δ := by
  unfold FunctionDefinition.Accepted
  rw [h.fn f.name List.mem_cons_self,
    bodyTypes_congr (h.mono (List.Subset.refl _) (List.subset_cons_self _ _))]

/-! ## Lists of definitions -/

/-- Definitions with one interface, whose bodies have the same types in contexts related by `R`. -/
structure FunctionDefinition.Alike (R : Context → Context → Prop) (f f' : FunctionDefinition) :
    Prop where
  name : f'.name = f.name
  signature : f'.signature = f.signature
  bodyTypes : ∀ Γ Δ, R Γ Δ → f'.bodyTypes Δ = f.bodyTypes Γ

/-- A relation of contexts with the same functions, kept when both define a function alike. -/
structure Context.Carries (R : Context → Context → Prop) : Prop where
  fn : ∀ Γ Δ, R Γ Δ → Δ.fn = Γ.fn
  define : ∀ Γ Δ (f f' : FunctionDefinition), f'.name = f.name → f'.signature = f.signature →
    R Γ Δ → R (Γ.define f) (Δ.define f')

theorem define_fn_eq {Γ Δ : Context} {f f' : FunctionDefinition} (hn : f'.name = f.name)
    (hs : f'.signature = f.signature) (h : Δ.fn = Γ.fn) : (Δ.define f').fn = (Γ.define f).fn := by
  funext g
  simp only [Context.define, hn, hs, h]

section Alike

variable {R : Context → Context → Prop} {Γ Δ : Context}

theorem alike_accepted {f f' : FunctionDefinition} (hf : f.Alike R f') (hR : Context.Carries R)
    (h : R Γ Δ) : f'.Accepted Δ ↔ f.Accepted Γ := by
  have hret : f'.returnType = f.returnType := congrArg FunctionTypeSig.returnType hf.signature
  unfold FunctionDefinition.Accepted FunctionDefinition.ReturnsPass
  rw [hf.name, hf.bodyTypes Γ Δ h, hR.fn Γ Δ h, hret]

theorem defineAll_related {fs fs' : List FunctionDefinition}
    (hfs : List.Forall₂ (FunctionDefinition.Alike R) fs fs') (hR : Context.Carries R) (h : R Γ Δ) :
    R (Γ.defineAll fs) (Δ.defineAll fs') := by
  induction hfs generalizing Γ Δ with
  | nil => exact h
  | @cons f f' fs fs' hf _ ih => exact ih (hR.define Γ Δ f f' hf.name hf.signature h)

/-- **Lists of alike definitions get the same verdict.** -/
theorem defsAccepted_congr {fs fs' : List FunctionDefinition}
    (hfs : List.Forall₂ (FunctionDefinition.Alike R) fs fs') (hR : Context.Carries R) (h : R Γ Δ) :
    DefsAccepted Δ fs' ↔ DefsAccepted Γ fs := by
  induction hfs generalizing Γ Δ with
  | nil => exact Iff.rfl
  | @cons f f' fs fs' hf _ ih =>
    exact and_congr (alike_accepted hf hR h) (ih (hR.define Γ Δ f f' hf.name hf.signature h))

/-- Lists of alike definitions leave the same functions. -/
theorem registerAll_functionEnv_congr {fs fs' : List FunctionDefinition}
    (hfs : List.Forall₂ (FunctionDefinition.Alike R) fs fs') {σ τ : Typechecker}
    (h : τ.functionEnv = σ.functionEnv) :
    (τ.registerAll fs').functionEnv = (σ.registerAll fs).functionEnv := by
  induction hfs generalizing σ τ with
  | nil => exact h
  | @cons f f' fs fs' hf _ ih =>
    refine ih (σ := σ.register f) (τ := τ.register f') ?_
    simp only [Typechecker.register, hf.name, hf.signature, h]

end Alike

/-- **Programs made of alike parts** get the same verdict and the same functions. -/
theorem program_congr {R : Context → Context → Prop} {P P' : Program} (hR : Context.Carries R)
    (hnd : (Declarations.names P'.declarations).Nodup ↔ (Declarations.names P.declarations).Nodup)
    (hglobals : (Declarations.names P.declarations).Nodup → R P.globals P'.globals)
    (hfs : List.Forall₂ (FunctionDefinition.Alike R) P.functionDefs P'.functionDefs)
    (hs : ∀ Γ Δ, R Γ Δ → stmtTypes Δ P'.statement = stmtTypes Γ P.statement) :
    (P'.Accepted ↔ P.Accepted) ∧ P'.environments.functionEnv = P.environments.functionEnv := by
  refine ⟨?_, registerAll_functionEnv_congr hfs rfl⟩
  unfold Program.Accepted
  rw [hnd]
  refine and_congr_right fun h => ?_
  rw [defsAccepted_congr hfs hR (hglobals h), hs _ _ (defineAll_related hfs hR (hglobals h))]

/-- Programs with one verdict have one outcome, and end with their own environments. -/
theorem outcome_congr {P P' : Program} (h : P'.Accepted ↔ P.Accepted) :
    ((typecheckProgram P' Typechecker.new).result = .ok () ↔
      (typecheckProgram P Typechecker.new).result = .ok ()) ∧
    ((typecheckProgram P Typechecker.new).result = .ok () →
      (typecheckProgram P' Typechecker.new).final = P'.environments ∧
        (typecheckProgram P Typechecker.new).final = P.environments) := by
  have hP := typecheckProgram_returns P
  have hP' := typecheckProgram_returns P'
  have hiff := hP'.iff.trans (h.trans hP.iff.symm)
  exact ⟨hiff, fun hr => ⟨hP'.final (hiff.mpr hr), hP.final hr⟩⟩

end ProgramAnalysis.Typecheck
