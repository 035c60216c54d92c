import ProgramAnalysis.Typecheck.CallErrors

/-!
# A checker without a state

What the typechecker returns or throws, by recursion on the syntax in a context: no scopes are pushed
or popped, and nothing is written.

* `Context.variable`, `Declarations.repeated`: the errors of the environments;
* `Expression.verdict`, `Statement.verdict`, `FunctionDefinition.verdict`, `Program.verdict`: the
  results;
* `typecheckExpression_refines`, `typecheckStatement_yields`, `typecheckFunctionDef_gives`: the typechecker
  computes them;
* **`typecheckProgram_refines`**: on a program, down to the exception and the environments.
-/

namespace ProgramAnalysis.Typecheck

open Lib

/-! ## Verdicts -/

/-- The type of a variable, or the error of `Env::get`. -/
def Context.variable (Γ : Context) (x : String) : Except Exn Ty :=
  (Γ.var x).elim (.error (.string ("Variable " ++ x ++ " not found."))) .ok

/-- The error of `Env::addMapping`. -/
def repeatDeclaration (x : String) : Exn :=
  .string ("Env::addMapping : repeat declaration for name " ++ x ++ ".")

/-- The first name that is declared again, or was among those seen before. -/
def Declarations.repeated (seen : List String) : Declarations → Option String
  | [] => none
  | d :: ds =>
    if d.getVariable ∈ seen then some d.getVariable else repeated (d.getVariable :: seen) ds

/-- An error where the condition does not hold. -/
def require (c : Prop) [Decidable c] (e : Exn) : Except Exn Unit := if c then .ok () else .error e

def operandType : Exn :=
  .cstring "Typechecker::typecheckBinaryExpression : Incorrect operand type!"

mutual

/-- The result for an expression: its type, or the first fault in it. -/
def Expression.verdict (Γ : Context) : Expression → Except Exn Ty
  | .empty => .ok .VOID
  | .num _ => .ok .INT
  | .var x => Γ.variable x
  | .binary _ l r => do
    let S ← l.verdict Γ
    require (S = .INT) operandType
    let T ← r.verdict Γ
    require (T = .INT) operandType
    return .INT
  | .functionCall f args =>
    match Γ.fn f with
    | none => .error (undefinedFunction f)
    | some sig =>
      if sig.parameterTypes.length = args.length then do
        argumentsVerdict Γ f args sig.parameterTypes
        return sig.returnType
      else .error (undefinedFunction f)

/-- The first fault of arguments for parameters of these types. -/
def argumentsVerdict (Γ : Context) (f : String) : List Expression → List Ty → Except Exn Unit
  | a :: args, p :: ps =>
    match a.verdict Γ with
    | .ok T => if T = p then argumentsVerdict Γ f args ps else .error (undefinedFunction f)
    | .error e => .error (e.caught f)
  | _, _ => .ok ()

end

mutual

/-- The result for a statement: its types, or the first fault in it. -/
def Statement.verdict (Γ : Context) : Statement → Except Exn (Finset Ty)
  | .skip => .ok {.NIL}
  | .assignment x e => do
    let S ← Γ.variable x
    let T ← e.verdict Γ
    require (S = T) (.cstring "Typechecker::typecheckAssignmentStatement : type mismatch!")
    return {.NIL}
  | .branch (.binary _ l r) t e => do
    let S ← l.verdict Γ
    let T ← r.verdict Γ
    require (S = T) (.cstring "Typechecker::typecheckExpression: Operands must be of same Type!")
    let thenTypes ← t.verdict Γ
    let elseTypes ← e.verdict Γ
    return thenTypes ∪ elseTypes
  | .branch _ _ _ => .error .badCast
  | .loop c b => do
    let T ← c.verdict Γ
    require (T = .BOOL) (.cstring "Typechecker::typecheckLoop: Condition is not of type BOOL!")
    b.verdict Γ
  | .sequence ss => sequenceVerdict Γ ss
  | .block ds s =>
    match Declarations.repeated [] ds with
    | some x => .error (repeatDeclaration x)
    | none => s.verdict (Γ.declare ds)
  | .ret e => do
    let T ← e.verdict Γ
    return {T}

def sequenceVerdict (Γ : Context) : List Statement → Except Exn (Finset Ty)
  | [] => .ok ∅
  | s :: ss => do
    let types ← s.verdict Γ
    let rest ← sequenceVerdict Γ ss
    return types ∪ rest

end

/-- The result for the body of a definition, in the scope of its parameters. -/
def FunctionDefinition.bodyVerdict (Γ : Context) (f : FunctionDefinition) : Except Exn Unit := do
  let types ← f.body.toStatement.verdict Γ
  require (types.card ≤ 2) (.string
    ("Typechecker::typecheckFunctionDef : More than 2 Return type in function " ++ f.name))
  require (f.returnType ∈ types) (.string
    ("Typechecker::typecheckFunctionDef : Return type mismatch in function " ++ f.name))

/-- The result for a definition in the context before it. -/
def FunctionDefinition.verdict (Γ : Context) (f : FunctionDefinition) : Except Exn Unit :=
  if (Γ.fn f.name).isSome then .error (repeatDeclaration f.name)
  else
    match Declarations.repeated [] f.parameters with
    | some x => .error (repeatDeclaration x)
    | none => f.bodyVerdict ((Γ.define f).declare f.parameters)

def definitionsVerdict (Γ : Context) : List FunctionDefinition → Except Exn Unit
  | [] => .ok ()
  | f :: fs => do
    f.verdict Γ
    definitionsVerdict (Γ.define f) fs

/-- The result for a program. -/
def Program.verdict (P : Program) : Except Exn Unit :=
  match Declarations.repeated [] P.declarations with
  | some x => .error (repeatDeclaration x)
  | none => do
    definitionsVerdict P.globals P.functionDefs
    let _ ← P.statement.verdict (P.globals.defineAll P.functionDefs)

/-! ## Expressions -/

section Expressions

variable {σ : Typechecker}

theorem Env.get_eq_variable (h : σ.valueEnv ≠ []) (x : String) :
    σ.valueEnv.get x = σ.context.variable x := by
  have hget : ∀ env : Env Ty, env ≠ [] → env.get x = (resolve env x).elim
      (.error (.string ("Variable " ++ x ++ " not found."))) .ok := by
    intro env
    induction env with
    | nil => exact fun h => absurd rfl h
    | cons table parent ih =>
      intro _
      rw [Env.get, resolve_cons]
      cases table.lookup x with
      | some value => rfl
      | none =>
        by_cases hp : parent = []
        · subst hp
          rfl
        · simp only [ne_eq, hp, not_false_eq_true, if_true, Option.none_or]
          exact ih hp
  exact hget σ.valueEnv h

/-- The arguments of a call, with the handler of the call. -/
theorem checkArguments_caught (f : String) {args : List Expression}
    (h : ∀ a ∈ args, typecheckExpression σ a = a.verdict σ.context) (ps : List Ty) :
    (checkArguments f (argumentChecks σ args) ps).mapError (Exn.caught f) =
      argumentsVerdict σ.context f args ps := by
  induction args generalizing ps with
  | nil => cases ps <;> rfl
  | cons a args ih =>
    obtain ⟨ha, hargs⟩ := List.forall_mem_cons.mp h
    cases ps with
    | nil => rfl
    | cons p ps =>
      rw [argumentChecks, checkArguments, argumentsVerdict, ha]
      rcases a.verdict σ.context with e | T
      · rfl
      · by_cases hT : T = p
        · subst hT
          simpa [bind, Except.bind] using ih hargs ps
        · simp [bind, Except.bind, hT, throw, throwThe, MonadExceptOf.throw, Except.mapError,
            Exn.caught]

/-- **Expressions.** -/
theorem typecheckExpression_refines (h : σ.valueEnv ≠ []) (e : Expression) :
    typecheckExpression σ e = e.verdict σ.context := by
  induction e using Expression.ind with
  | empty => rfl
  | num n => rfl
  | var x => exact Env.get_eq_variable h x
  | binary c l r ihl ihr =>
    rw [typecheckExpression, ihl, ihr, Expression.verdict, typecheckBinaryExpression]
    rcases l.verdict σ.context with e | S
    · rfl
    · rcases r.verdict σ.context with e | T
      · cases S <;> rfl
      · cases S <;> cases T <;> rfl
  | functionCall f args ih =>
    rw [Expression.verdict]
    rcases hf : σ.context.fn f with - | sig
    · exact call_of_undefined hf
    · by_cases hcount : sig.parameterTypes.length = args.length
      · simp only [hcount, if_true]
        rw [← checkArguments_caught f ih, typecheckExpression, typecheckFunctionCall,
          tryFunctionCall_of_count hf hcount]
        rcases checkArguments f (argumentChecks σ args) sig.parameterTypes with e | u
        · cases e <;> rfl
        · rfl
      · simp only [if_neg hcount]
        exact call_of_count hf hcount

end Expressions

/-! ## Statements -/

section Statements

variable {σ : Typechecker}

theorem checkExpression_yields (h : σ.valueEnv ≠ []) (e : Expression) :
    (checkExpression e σ).Yields σ (e.verdict σ.context) :=
  .read (typecheckExpression_refines h e)

theorem throwIf_yields {c d : Prop} [Decidable c] [Decidable d] (h : c ↔ ¬ d) (e : Exn) :
    (throwIf c e σ).Yields σ (require d e) := by
  unfold throwIf require
  by_cases hd : d
  · rw [if_neg fun hc => h.mp hc hd, if_pos hd]
    exact .ret ()
  · rw [if_pos (h.mpr hd), if_neg hd]
    exact .fail e

theorem repeated_eq_none_iff {ds : Declarations} {seen : List String} :
    ds.repeated seen = none ↔
      (Declarations.names ds).Nodup ∧ ∀ x ∈ Declarations.names ds, x ∉ seen := by
  induction ds generalizing seen with
  | nil => simp [Declarations.repeated]
  | cons d ds ih =>
    rw [Declarations.repeated, Declarations.names_cons, List.nodup_cons, List.forall_mem_cons]
    split_ifs with hd
    · simp [hd]
    · rw [ih]
      constructor
      · rintro ⟨hnd, hout⟩
        refine ⟨⟨fun hmem => hout _ hmem List.mem_cons_self, hnd⟩, hd, fun x hx hseen => ?_⟩
        exact hout x hx (List.mem_cons_of_mem _ hseen)
      · rintro ⟨⟨hmem, hnd⟩, -, hout⟩
        refine ⟨hnd, fun x hx hcons => ?_⟩
        rcases List.mem_cons.mp hcons with rfl | hseen
        · exact hmem hx
        · exact hout x hx hseen

/-- Adding declarations to a scope throws at the first repeated name. -/
theorem addDeclarations_repeated {ds : Declarations} {seen : List String} {T : Table Ty} {x : String}
    (hT : ∀ y, y ∈ T ↔ y ∈ seen) (h : ds.repeated seen = some x) :
    (addDeclarations ds (σ.push [T])).result = .error (repeatDeclaration x) := by
  induction ds generalizing seen T with
  | nil => cases h
  | cons d ds ih =>
    rw [Declarations.repeated] at h
    rw [addDeclarations]
    split_ifs at h with hd
    · obtain rfl := Option.some.inj h
      have hv := addVariable_push_of_mem (σ := σ) d.getType ((hT _).mpr hd)
      rw [Call.bind_of_error (by rw [hv])]
      rfl
    · have hv := addVariable_push (σ := σ) d.getType (mt (hT _).mp hd)
      rw [Call.bind_of_ok (a := ()) (by rw [hv]), hv]
      refine ih (fun y => ?_) h
      rw [Finmap.mem_insert, List.mem_cons, hT]

/-- A call in a scope of its own. -/
theorem inScope_yields {α : Type} {ds : Declarations} {b : Check α} {r : Context → Except Exn α}
    (hb : ∀ τ : Typechecker, τ.valueEnv ≠ [] → (b τ).Yields τ (r τ.context)) :
    (inScope ds b σ).Yields σ (match ds.repeated [] with
      | some x => .error (repeatDeclaration x)
      | none => r (σ.context.declare ds)) := by
  unfold inScope
  rcases hrep : ds.repeated [] with - | x
  · obtain ⟨hnd, -⟩ := repeated_eq_none_iff.mp hrep
    obtain ⟨hr, hf, -⟩ := addDeclarations_of_fresh (σ := σ) (freshIn_empty.mpr hnd)
    have hresult : (openScope ds σ).result = .ok () := by rw [openScope_apply, hr]
    have hfinal : (openScope ds σ).final = σ.push [Declarations.into ds ∅] := by
      rw [openScope_apply, hf]
    have hinner := hb (σ.push [Declarations.into ds ∅]) (List.cons_ne_nil _ _)
    rw [context_push_into hnd] at hinner
    rw [Call.bind_of_ok hresult, hfinal]
    show Outcome.Yields σ (r (σ.context.declare ds)) _
    rcases hv : r (σ.context.declare ds) with e | a
    · rw [hv] at hinner
      rw [Call.bind_of_error hinner.result]
      exact ⟨rfl, nofun⟩
    · rw [hv] at hinner
      have hexit := exitScope_push σ (Declarations.into ds ∅)
      rw [Call.bind_of_ok hinner.result, hinner.restored a rfl, Call.bind_of_ok (a := ()) (by rw [hexit])]
      simp only [Call.pure_apply, hexit]
      exact ⟨rfl, fun _ _ => rfl⟩
  · have hresult : (openScope ds σ).result = .error (repeatDeclaration x) := by
      rw [openScope_apply]
      exact addDeclarations_repeated (fun y => by simp [Finmap.notMem_empty]) hrep
    rw [Call.bind_of_error hresult]
    exact ⟨rfl, nofun⟩

theorem typecheckSequence_yields {ss : List Statement}
    (h : ∀ s ∈ ss, (typecheckStatement s σ).Yields σ (s.verdict σ.context)) (acc : Finset Ty) :
    (typecheckSequence acc (statementChecks ss) σ).Yields σ
      (sequenceVerdict σ.context ss >>= fun types => .ok (acc ∪ types)) := by
  induction ss generalizing acc with
  | nil =>
    show Outcome.Yields σ (.ok (acc ∪ ∅)) _
    rw [Finset.union_empty]
    exact .ret acc
  | cons s ss ih =>
    obtain ⟨hs, hss⟩ := List.forall_mem_cons.mp h
    have hrest := Outcome.Yields.bind hs fun types _ => ih hss (setUnion acc types)
    rw [sequenceVerdict]
    simp only [bind_assoc, pure_bind, setUnion, Finset.union_assoc] at hrest ⊢
    exact hrest

/-- **Statements.** The check has the result of the verdict in its context, and puts its scope back. -/
theorem typecheckStatement_yields (s : Statement) (h : σ.valueEnv ≠ []) :
    (typecheckStatement s σ).Yields σ (s.verdict σ.context) := by
  induction s using Statement.ind generalizing σ with
  | skip => exact .ret _
  | assignment x e =>
    refine .bind (.read (Env.get_eq_variable h x)) fun S _ => ?_
    refine .bind (checkExpression_yields h e) fun T _ => ?_
    exact .bind (throwIf_yields Iff.rfl _) fun _ _ => .ret _
  | branch c t e iht ihe =>
    cases c with
    | binary cls l r =>
      refine .bind (checkExpression_yields h l) fun S _ => ?_
      refine .bind (checkExpression_yields h r) fun T _ => ?_
      refine .bind (throwIf_yields Iff.rfl _) fun _ _ => ?_
      exact .bind (iht h) fun _ _ => .bind (ihe h) fun _ _ => .ret _
    | _ => exact .fail _
  | loop c b ih =>
    refine .bind (checkExpression_yields h c) fun T _ => ?_
    exact .bind (throwIf_yields Iff.rfl _) fun _ _ => ih h
  | sequence ss ih =>
    rw [typecheckStatement, Statement.verdict]
    have hall := typecheckSequence_yields (fun s hs => ih s hs h) ∅
    simp only [Finset.empty_union] at hall
    exact (bind_pure (sequenceVerdict σ.context ss)) ▸ hall
  | block ds s ih =>
    rw [typecheckStatement, typecheckBlock_eq_inScope, Statement.verdict]
    exact inScope_yields (r := fun Δ => s.verdict Δ) fun τ hτ => ih hτ
  | ret e => exact .bind (checkExpression_yields h e) fun T _ => .ret _

end Statements

/-! ## Definitions and programs -/

section Programs

variable {σ : Typechecker}

theorem checkReturnTypes_yields (f : FunctionDefinition) (h : σ.valueEnv ≠ []) :
    (checkReturnTypes f σ).Yields σ (f.bodyVerdict σ.context) := by
  refine .bind (typecheckStatement_yields _ h) fun types _ => ?_
  exact .bind (throwIf_yields (not_le.symm) _) fun _ _ => throwIf_yields Iff.rfl _

/-- **Definitions.** The check of a definition has the result of its verdict, and adds the signature if
it returns. -/
theorem typecheckFunctionDef_gives (f : FunctionDefinition) :
    (typecheckFunctionDef f σ).result = f.verdict σ.context ∧
      (f.verdict σ.context = .ok () → (typecheckFunctionDef f σ).final = σ.register f) := by
  have hname : (σ.context.fn f.name).isSome ↔ f.name ∈ σ.functionEnv :=
    Finmap.lookup_isSome
  rw [FunctionDefinition.verdict]
  by_cases h : f.name ∈ σ.functionEnv
  · rw [if_pos (hname.mpr h), typecheckFunctionDef_of_mem h]
    exact ⟨rfl, nofun⟩
  · have ha := addFunction_of_notMem h
    have hbody : (inScope f.parameters (checkReturnTypes f) (σ.register f)).Yields _ _ :=
      inScope_yields (r := fun Δ => f.bodyVerdict Δ) fun τ hτ => checkReturnTypes_yields f hτ
    rw [context_register, ← typecheckFunctionBody_eq_inScope] at hbody
    rw [if_neg (mt hname.mp h), typecheckFunctionDef_eq, Call.bind_of_ok (a := ()) (by rw [ha]), ha]
    exact ⟨hbody.result, hbody.restored ()⟩

theorem typecheckFunctionDefs_gives (fs : List FunctionDefinition) (σ : Typechecker) :
    (typecheckFunctionDefs fs σ).result = definitionsVerdict σ.context fs ∧
      (definitionsVerdict σ.context fs = .ok () →
        (typecheckFunctionDefs fs σ).final = σ.registerAll fs) := by
  induction fs generalizing σ with
  | nil => exact ⟨rfl, fun _ => rfl⟩
  | cons f fs ih =>
    obtain ⟨hresult, hfinal⟩ := typecheckFunctionDef_gives (σ := σ) f
    rw [typecheckFunctionDefs, definitionsVerdict]
    rcases hf : f.verdict σ.context with e | u
    · rw [Call.bind_of_error (hresult.trans hf)]
      exact ⟨rfl, nofun⟩
    · have hrest := ih (σ.register f)
      rw [context_register] at hrest
      rw [Call.bind_of_ok (hresult.trans hf), hfinal hf]
      exact hrest

/-- **Programs.** The check of a program on a fresh typechecker has the result of its verdict, and ends
with its environments if it returns. -/
theorem typecheckProgram_gives (P : Program) :
    (typecheckProgram P Typechecker.new).result = P.verdict ∧
      (P.verdict = .ok () → (typecheckProgram P Typechecker.new).final = P.environments) := by
  let σ : Typechecker := ⟨[], ∅⟩
  show (typecheckProgram P (σ.push [∅])).result = _ ∧
    (_ → (typecheckProgram P (σ.push [∅])).final = _)
  rw [typecheckProgram, Program.verdict]
  rcases hrep : Declarations.repeated [] P.declarations with - | x
  · have hnd := (repeated_eq_none_iff.mp hrep).1
    obtain ⟨hr, hf, -⟩ := addDeclarations_of_fresh (σ := σ) (freshIn_empty.mpr hnd)
    have hcontext : (σ.push [Declarations.into P.declarations ∅]).context = P.globals := by
      rw [context_push_into hnd]
      rfl
    obtain ⟨hdefs, hregister⟩ := typecheckFunctionDefs_gives P.functionDefs
      (σ.push [Declarations.into P.declarations ∅])
    rw [hcontext] at hdefs hregister
    rw [Call.bind_of_ok hr, hf]
    simp only
    rcases hv : definitionsVerdict P.globals P.functionDefs with e | u
    · rw [Call.bind_of_error (hdefs.trans hv)]
      exact ⟨rfl, nofun⟩
    · have hscope : P.environments.valueEnv ≠ [] := by
        rw [Program.environments, registerAll_valueEnv]
        exact List.cons_ne_nil _ _
      have hstmt := typecheckStatement_yields P.statement hscope
      have hfull : P.environments.context = P.globals.defineAll P.functionDefs := by
        rw [Program.environments, context_registerAll, ← hcontext]
        rfl
      rw [hfull] at hstmt
      have hlast := Outcome.Yields.bind (k := fun _ => (pure () : Check Unit)) hstmt
        fun types _ => .ret ()
      rw [Call.bind_of_ok (hdefs.trans hv), hregister hv]
      exact ⟨hlast.result, hlast.restored ()⟩
  · have hthrow := addDeclarations_repeated (σ := σ) (T := ∅)
      (fun y => by simp [Finmap.notMem_empty]) hrep
    rw [Call.bind_of_error hthrow]
    exact ⟨rfl, nofun⟩

end Programs

/-- **The typechecker computes the verdict**, down to the exception. A statement check on a state with a
scope has the result of the verdict in the context of that state; the check of a program on a fresh
typechecker has the result of the verdict on the program, and ends with its environments if that is no
exception. Both look up the variable of an assignment before its expression, where C++ leaves the order
open. -/
theorem typecheckProgram_refines :
    (∀ (σ : Typechecker) (s : Statement), σ.valueEnv ≠ [] →
      (typecheckStatement s σ).result = s.verdict σ.context) ∧
    ∀ P : Program, (typecheckProgram P Typechecker.new).result = P.verdict ∧
      (P.verdict = .ok () → (typecheckProgram P Typechecker.new).final = P.environments) :=
  ⟨fun _ s h => (typecheckStatement_yields s h).result, typecheckProgram_gives⟩

/-- A program that assigns an undeclared variable inside a block. -/
theorem typecheckProgram_refines_undeclared :
    let s : Statement := .block [⟨"y", .INT⟩] (.assignment "x" (.var "y"))
    let P : Program := ⟨"P", [⟨"z", .INT⟩], [], s⟩
    (typecheckProgram P Typechecker.new).result = .error (.string "Variable x not found.") ∧
      (typecheckStatement s Typechecker.new).result = .error (.string "Variable x not found.") := by
  intro s P
  obtain ⟨hstatement, hprogram⟩ := typecheckProgram_refines
  refine ⟨(hprogram P).1.trans rfl, (hstatement _ s ?_).trans rfl⟩
  exact List.cons_ne_nil _ _

end ProgramAnalysis.Typecheck
