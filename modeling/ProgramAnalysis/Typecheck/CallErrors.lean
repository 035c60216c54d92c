import ProgramAnalysis.Typecheck.Conditions

/-!
# The errors of a call

`typecheckFunctionCall` has an error for each fault of a call, and catches the strings among them.

* `undefinedFunction`, `argumentCount`, `argumentType`: the errors; `FirstFault`: the first argument
  without the type of its parameter;
* `NamesFault`: a call fails with the error of its fault;
* `call_of_undefined`, `call_of_count`, `call_of_fit`, `call_of_type`, `call_of_error`: how a call ends;
* `Expression.Clashes`, **`clashes_iff`**: the expressions whose check fails other than by a string;
* `FaultPasses`, **`namesFault_iff`**: only the faults of these pass the handler.
-/

namespace ProgramAnalysis.Typecheck

open Lib

/-! ## Faults -/

def undefinedFunction (f : String) : Exn :=
  .string ("Typechecker::typecheckFunctionCall : Undefined function " ++ f)

def argumentCount (f : String) : Exn :=
  .string ("Typechecker::typecheckFunctionCall : Argument count mismatch in function call to " ++ f)

def argumentType (f : String) : Exn :=
  .string ("Typechecker::typecheckFunctionCall : Argument type mismatch in function call to " ++ f)

/-- The handler of the call. -/
def Exn.caught (f : String) : Exn → Exn
  | .string _ => undefinedFunction f
  | e => e

/-- `a`, passed for a parameter of type `p`, is the first argument that does not have its type. -/
structure FirstFault (σ : Typechecker) (args : List Expression) (ps : List Ty) (a : Expression)
    (p : Ty) : Prop where
  first : ∃ before after qs rs, args = before ++ a :: after ∧ ps = qs ++ p :: rs ∧
    ArgumentsFit σ before qs
  fault : typecheckExpression σ a ≠ .ok p

/-- The call of `f` fails with the error of its fault. -/
structure NamesFault (σ : Typechecker) (f : String) (args : List Expression) : Prop where
  undefined : typecheckExpression σ (.functionCall f args) = .error (undefinedFunction f) ↔
    σ.functionEnv.lookup f = none
  count : ∀ sig, σ.functionEnv.lookup f = some sig → sig.parameterTypes.length ≠ args.length →
    typecheckExpression σ (.functionCall f args) = .error (argumentCount f)
  type : ∀ sig a p T, σ.functionEnv.lookup f = some sig →
    sig.parameterTypes.length = args.length → FirstFault σ args sig.parameterTypes a p →
      typecheckExpression σ a = .ok T →
        typecheckExpression σ (.functionCall f args) = .error (argumentType f)
  argument : ∀ sig a p e, σ.functionEnv.lookup f = some sig →
    sig.parameterTypes.length = args.length → FirstFault σ args sig.parameterTypes a p →
      typecheckExpression σ a = .error e →
        typecheckExpression σ (.functionCall f args) = .error e

/-- The check of the expression comes to an operand that is no `INT`, or to a null scope. -/
inductive Expression.Clashes (σ : Typechecker) : Expression → Prop
  | null {x} : σ.valueEnv = [] → Clashes σ (.var x)
  | left {cls l r} : Clashes σ l → Clashes σ (.binary cls l r)
  | leftType {cls l r T} : typecheckExpression σ l = .ok T → T ≠ .INT → Clashes σ (.binary cls l r)
  | right {cls l r} : typecheckExpression σ l = .ok .INT → Clashes σ r →
      Clashes σ (.binary cls l r)
  | rightType {cls l r T} : typecheckExpression σ l = .ok .INT → typecheckExpression σ r = .ok T →
      T ≠ .INT → Clashes σ (.binary cls l r)
  | argument {f args sig a p} : σ.functionEnv.lookup f = some sig →
      sig.parameterTypes.length = args.length → FirstFault σ args sig.parameterTypes a p →
        Clashes σ a → Clashes σ (.functionCall f args)

/-- The function is undefined, or the counts agree and the first argument without the type of its
parameter, if there is one, clashes. -/
def FaultPasses (σ : Typechecker) (f : String) (args : List Expression) : Prop :=
  ∀ sig, σ.functionEnv.lookup f = some sig → sig.parameterTypes.length = args.length ∧
    ∀ a p, FirstFault σ args sig.parameterTypes a p → a.Clashes σ

/-! ## How a call ends -/

section Calls

variable {σ : Typechecker} {f : String} {args : List Expression} {sig : FunctionTypeSig}

theorem Env.get_single {T : Type} (table : Table T) (x : String) : Env.get [table] x =
    (table.lookup x).elim (.error (.string ("Variable " ++ x ++ " not found."))) .ok := by
  rw [Env.get]
  cases table.lookup x <;> rfl

/-- Lists that do not go together have a first pair that does not. -/
theorem forall₂_or_first {α β : Type} {R : α → β → Prop} {as : List α} {bs : List β}
    (h : bs.length = as.length) : List.Forall₂ R as bs ∨ ∃ before a after qs b rs,
      as = before ++ a :: after ∧ bs = qs ++ b :: rs ∧ List.Forall₂ R before qs ∧ ¬ R a b := by
  induction as generalizing bs with
  | nil => exact .inl (List.length_eq_zero_iff.mp h ▸ .nil)
  | cons a as ih =>
    obtain ⟨b, bs, rfl⟩ := List.exists_cons_of_length_eq_add_one h
    by_cases hab : R a b
    · rcases ih (Nat.succ_inj.mp h) with hall | ⟨before, c, after, qs, d, rs, rfl, rfl, hbefore, hcd⟩
      · exact .inl (.cons hab hall)
      · exact .inr ⟨a :: before, c, after, b :: qs, d, rs, rfl, rfl, .cons hab hbefore, hcd⟩
    · exact .inr ⟨[], a, as, [], b, bs, rfl, rfl, .nil, hab⟩

/-- A list of arguments fits, or it has a first fault. -/
theorem fit_or_firstFault {ps : List Ty} (h : ps.length = args.length) :
    ArgumentsFit σ args ps ∨ ∃ a p, FirstFault σ args ps a p := by
  refine (forall₂_or_first h).imp_right ?_
  rintro ⟨before, a, after, qs, p, rs, hargs, hps, hbefore, hfault⟩
  exact ⟨a, p, ⟨before, after, qs, rs, hargs, hps, hbefore⟩, hfault⟩

/-- The checks of arguments that fit are passed over. -/
theorem checkArguments_append {before : List Expression} {qs : List Ty}
    (h : ArgumentsFit σ before qs) (rest : List (Except Exn Ty)) (ps : List Ty) :
    checkArguments f (argumentChecks σ before ++ rest) (qs ++ ps) = checkArguments f rest ps := by
  induction h with
  | nil => rfl
  | @cons a p before qs ha _ ih =>
    simp only [argumentChecks, List.cons_append, checkArguments, ha]
    simpa [bind, Except.bind] using ih

/-- The check of the arguments goes as far as the first fault. -/
theorem checkArguments_of_firstFault {ps : List Ty} {a : Expression} {p : Ty}
    (h : FirstFault σ args ps a p) : checkArguments f (argumentChecks σ args) ps =
      (typecheckExpression σ a).bind fun _ => .error (argumentType f) := by
  obtain ⟨⟨before, after, qs, rs, rfl, rfl, hbefore⟩, hfault⟩ := h
  rw [argumentChecks_eq_map, List.map_append, List.map_cons, ← argumentChecks_eq_map,
    checkArguments_append hbefore]
  rcases ha : typecheckExpression σ a with e | T
  · simp [checkArguments, bind, Except.bind]
  · have hne : T ≠ p := fun hT => hfault (hT ▸ ha)
    simp [checkArguments, bind, Except.bind, hne, throw, throwThe, MonadExceptOf.throw, argumentType]

theorem checkArguments_of_fit {ps : List Ty} (h : ArgumentsFit σ args ps) :
    checkArguments f (argumentChecks σ args) ps = .ok () := by
  have hall := checkArguments_append (f := f) h [] []
  rwa [List.append_nil, List.append_nil] at hall

theorem call_of_undefined (h : σ.functionEnv.lookup f = none) :
    typecheckExpression σ (.functionCall f args) = .error (undefinedFunction f) := by
  rw [typecheckExpression, typecheckFunctionCall, tryFunctionCall, Env.get_single, h]
  rfl

/-- The error for the count is caught. -/
theorem call_of_count (h : σ.functionEnv.lookup f = some sig)
    (hcount : sig.parameterTypes.length ≠ args.length) :
    typecheckExpression σ (.functionCall f args) = .error (undefinedFunction f) := by
  have hchecks : sig.parameterTypes.length ≠ (argumentChecks σ args).length := by
    rwa [argumentChecks_eq_map, List.length_map]
  rw [typecheckExpression, typecheckFunctionCall, tryFunctionCall, Env.get_single, h]
  simp [bind, Except.bind, hchecks, throw, throwThe, MonadExceptOf.throw, undefinedFunction]

/-- With the counts equal, the arguments decide. -/
theorem tryFunctionCall_of_count (h : σ.functionEnv.lookup f = some sig)
    (hcount : sig.parameterTypes.length = args.length) :
    tryFunctionCall σ f (argumentChecks σ args) =
      (checkArguments f (argumentChecks σ args) sig.parameterTypes).bind fun _ =>
        .ok sig.returnType := by
  have hchecks : sig.parameterTypes.length = (argumentChecks σ args).length := by
    rwa [argumentChecks_eq_map, List.length_map]
  rw [tryFunctionCall, Env.get_single, h]
  simp [bind, Except.bind, hchecks, pure, Except.pure]

theorem call_of_fit (h : σ.functionEnv.lookup f = some sig)
    (hfit : ArgumentsFit σ args sig.parameterTypes) :
    typecheckExpression σ (.functionCall f args) = .ok sig.returnType := by
  rw [typecheckExpression, typecheckFunctionCall,
    tryFunctionCall_of_count h (List.Forall₂.length_eq hfit).symm, checkArguments_of_fit hfit]
  rfl

section FirstFault

variable {a : Expression} {p : Ty} (h : σ.functionEnv.lookup f = some sig)
  (hcount : sig.parameterTypes.length = args.length)
  (hfault : FirstFault σ args sig.parameterTypes a p)

include h hcount hfault

/-- The error for the type is caught. -/
theorem call_of_type {T : Ty} (ha : typecheckExpression σ a = .ok T) :
    typecheckExpression σ (.functionCall f args) = .error (undefinedFunction f) := by
  rw [typecheckExpression, typecheckFunctionCall, tryFunctionCall_of_count h hcount,
    checkArguments_of_firstFault hfault, ha]
  rfl

/-- So is a string of the argument; another error of it passes. -/
theorem call_of_error {e : Exn} (ha : typecheckExpression σ a = .error e) :
    typecheckExpression σ (.functionCall f args) = .error (e.caught f) := by
  rw [typecheckExpression, typecheckFunctionCall, tryFunctionCall_of_count h hcount,
    checkArguments_of_firstFault hfault, ha]
  cases e <;> rfl

end FirstFault

end Calls

/-! ## Errors that are no strings -/

section Clashes

variable {σ : Typechecker} {f : String} {args : List Expression}

theorem Exn.caught_of_not_string {e : Exn} (h : ∀ m, e ≠ .string m) (f : String) : e.caught f = e := by
  cases e with
  | string m => exact absurd rfl (h m)
  | cstring m => rfl
  | badCast => rfl
  | nullScope => rfl

/-- What the handler lets through is no string. -/
theorem Exn.not_string_of_caught {e : Exn} {f : String} (h : ∀ m, e.caught f ≠ .string m) (m : String) :
    e ≠ .string m := by
  rintro rfl
  exact h _ rfl

/-- A lookup fails by a string, or at a null scope. -/
theorem Env.get_error {T : Type} {env : Env T} {x : String} {e : Exn} (h : env.get x = .error e)
    (hstring : ∀ m, e ≠ .string m) : env = [] := by
  induction env with
  | nil => rfl
  | cons table parent ih =>
    rw [Env.get] at h
    rcases hlookup : table.lookup x with _ | value
    · rw [hlookup] at h
      simp only at h
      split_ifs at h with hparent
      · exact absurd (ih h) hparent
      · exact absurd (Except.error.inj h).symm (hstring _)
    · rw [hlookup] at h
      cases h

theorem typecheckExpression_binary_eq (cls : BinaryClass) (l r : Expression) :
    typecheckExpression σ (.binary cls l r) = (typecheckExpression σ l).bind fun S =>
      if S = .INT then (typecheckExpression σ r).bind fun T =>
        if T = .INT then .ok .INT
        else .error (.cstring "Typechecker::typecheckBinaryExpression : Incorrect operand type!")
      else .error (.cstring "Typechecker::typecheckBinaryExpression : Incorrect operand type!") := by
  rw [typecheckExpression]
  rcases typecheckExpression σ l with e | S
  · rfl
  · rcases typecheckExpression σ r with e | T
    · cases S <;> rfl
    · cases S <;> cases T <;> rfl

theorem FirstFault.mem {args : List Expression} {ps : List Ty} {a : Expression} {p : Ty}
    (h : FirstFault σ args ps a p) : a ∈ args := by
  obtain ⟨before, after, qs, rs, rfl, -, -⟩ := h.first
  exact List.mem_append_right _ List.mem_cons_self

variable {e : Expression}

/-- The check of the expression fails other than by a string. -/
def FailsUncaught (σ : Typechecker) (e : Expression) : Prop :=
  ∃ x, typecheckExpression σ e = .error x ∧ ∀ m, x ≠ .string m

theorem var_clashes_iff {x : String} :
    Expression.Clashes σ (.var x) ↔ FailsUncaught σ (.var x) := by
  constructor
  · intro h
    cases h with
    | null henv => exact ⟨.nullScope, by rw [typecheckExpression, typecheckVar, henv]; rfl, by simp⟩
  · rintro ⟨e, h, hstring⟩
    exact .null (Env.get_error h hstring)

/-- A binary expression clashes in its left operand or, when that is an `INT`, in its right one. -/
theorem binary_clashes_iff {cls : BinaryClass} {l r : Expression}
    (ihl : l.Clashes σ ↔ FailsUncaught σ l) (ihr : r.Clashes σ ↔ FailsUncaught σ r) :
    Expression.Clashes σ (.binary cls l r) ↔ FailsUncaught σ (.binary cls l r) := by
  rw [FailsUncaught, typecheckExpression_binary_eq]
  constructor
  · intro h
    cases h with
    | left h =>
      obtain ⟨x, hx, hstring⟩ := ihl.mp h
      exact ⟨x, by rw [hx]; rfl, hstring⟩
    | leftType hl hT => exact ⟨_, by rw [hl]; exact if_neg hT, by simp⟩
    | right hl h =>
      obtain ⟨x, hx, hstring⟩ := ihr.mp h
      exact ⟨x, by rw [hl, hx]; rfl, hstring⟩
    | rightType hl hr hT => exact ⟨_, by rw [hl, hr]; exact if_neg hT, by simp⟩
  · rintro ⟨x, h, hstring⟩
    rcases hl : typecheckExpression σ l with e | S
    · rw [hl] at h
      exact .left (ihl.mpr ⟨x, hl.trans h, hstring⟩)
    · rw [hl] at h
      by_cases hS : S = .INT
      · subst hS
        rcases hr : typecheckExpression σ r with e | T
        · rw [hr] at h
          exact .right hl (ihr.mpr ⟨x, hr.trans h, hstring⟩)
        · rw [hr] at h
          refine .rightType hl hr fun hT => ?_
          subst hT
          cases h
      · exact .leftType hl hS

/-- A call clashes where its first faulty argument does: the handler catches everything else. -/
theorem call_clashes_iff (ih : ∀ a ∈ args, a.Clashes σ ↔ FailsUncaught σ a) :
    Expression.Clashes σ (.functionCall f args) ↔ FailsUncaught σ (.functionCall f args) := by
  constructor
  · intro h
    cases h with
    | argument hf hcount hfault ha =>
      obtain ⟨x, hx, hstring⟩ := (ih _ hfault.mem).mp ha
      refine ⟨x, ?_, hstring⟩
      rw [call_of_error hf hcount hfault hx, Exn.caught_of_not_string hstring]
  · rintro ⟨x, h, hstring⟩
    rcases hf : σ.functionEnv.lookup f with _ | sig
    · rw [call_of_undefined hf] at h
      exact absurd (Except.error.inj h).symm (hstring _)
    by_cases hcount : sig.parameterTypes.length = args.length
    · rcases fit_or_firstFault (σ := σ) hcount with hfit | ⟨a, p, hfault⟩
      · rw [call_of_fit hf hfit] at h
        cases h
      rcases ha : typecheckExpression σ a with e | T
      · rw [call_of_error hf hcount hfault ha] at h
        have he := Exn.not_string_of_caught (Except.error.inj h ▸ hstring)
        exact .argument hf hcount hfault ((ih a hfault.mem).mpr ⟨e, ha, he⟩)
      · rw [call_of_type hf hcount hfault ha] at h
        exact absurd (Except.error.inj h).symm (hstring _)
    · rw [call_of_count hf hcount] at h
      exact absurd (Except.error.inj h).symm (hstring _)

/-- **An expression clashes exactly when its check fails other than by a string.** -/
theorem clashes_iff : e.Clashes σ ↔ FailsUncaught σ e := by
  induction e using Expression.ind with
  | empty =>
    refine iff_of_false (fun h => by cases h) ?_
    rintro ⟨x, h, -⟩
    cases h
  | num n =>
    refine iff_of_false (fun h => by cases h) ?_
    rintro ⟨x, h, -⟩
    cases h
  | var x => exact var_clashes_iff
  | binary cls l r ihl ihr => exact binary_clashes_iff ihl ihr
  | functionCall f args ih => exact call_clashes_iff ih

end Clashes

/-- **The errors of a call.** A call fails with the error of its fault exactly when the function is
undefined, or the counts agree and the first argument without the type of its parameter clashes: the
handler takes every other fault for an undefined function. -/
theorem namesFault_iff (σ : Typechecker) (f : String) (args : List Expression) :
    NamesFault σ f args ↔ FaultPasses σ f args := by
  constructor
  · intro h sig hf
    have hdefined : typecheckExpression σ (.functionCall f args) ≠ .error (undefinedFunction f) :=
      fun hundefined => by
        rw [h.undefined.mp hundefined] at hf
        cases hf
    have hcount : sig.parameterTypes.length = args.length := by
      by_contra hcount
      exact hdefined (call_of_count hf hcount)
    refine ⟨hcount, fun a p hfault => clashes_iff.mpr ?_⟩
    rcases ha : typecheckExpression σ a with e | T
    · refine ⟨e, ha, ?_⟩
      rintro m rfl
      exact hdefined (call_of_error hf hcount hfault ha)
    · exact absurd (call_of_type hf hcount hfault ha) hdefined
  · intro h
    refine ⟨⟨fun hundefined => ?_, call_of_undefined⟩, fun sig hf hcount => ?_,
      fun sig a p T hf _ hfault ha => ?_, fun sig a p e hf hcount hfault ha => ?_⟩
    · rcases hf : σ.functionEnv.lookup f with _ | sig
      · rfl
      obtain ⟨hcount, hclashes⟩ := h sig hf
      rcases fit_or_firstFault (σ := σ) hcount with hfit | ⟨a, p, hfault⟩
      · rw [call_of_fit hf hfit] at hundefined
        cases hundefined
      · obtain ⟨x, hx, hstring⟩ := clashes_iff.mp (hclashes a p hfault)
        rw [call_of_error hf hcount hfault hx, Exn.caught_of_not_string hstring] at hundefined
        exact absurd (Except.error.inj hundefined) (hstring _)
    · exact absurd (h sig hf).1 hcount
    · obtain ⟨x, hx, -⟩ := clashes_iff.mp ((h sig hf).2 a p hfault)
      rw [ha] at hx
      cases hx
    · obtain ⟨x, hx, hstring⟩ := clashes_iff.mp ((h sig hf).2 a p hfault)
      rw [ha] at hx
      rw [call_of_error hf hcount hfault ha, Except.error.inj hx, Exn.caught_of_not_string hstring]

/-- `int f(int)` is defined; a call without an argument, one with a `void` and one with an unknown name
are all reported as calls of an undefined function. -/
theorem every_fault_undefined :
    let σ : Typechecker := ⟨[∅], (∅ : Table FunctionTypeSig).insert "f" ⟨[.INT], .INT⟩⟩
    let call (args : List Expression) := typecheckExpression σ (.functionCall "f" args)
    call [.num 1] = .ok .INT ∧
      call [] = .error (undefinedFunction "f") ∧
      call [.empty] = .error (undefinedFunction "f") ∧
      typecheckExpression σ (.var "y") = .error (.string "Variable y not found.") ∧
      call [.var "y"] = .error (undefinedFunction "f") ∧
      ¬ NamesFault σ "f" [] ∧ ¬ NamesFault σ "f" [.empty] ∧ ¬ NamesFault σ "f" [.var "y"] := by
  have hdefined : ∀ args, typecheckExpression ⟨[∅], (∅ : Table FunctionTypeSig).insert "f"
      ⟨[.INT], .INT⟩⟩ (.functionCall "f" args) = .error (undefinedFunction "f") →
        ¬ NamesFault ⟨[∅], (∅ : Table FunctionTypeSig).insert "f" ⟨[.INT], .INT⟩⟩ "f" args := by
    intro args hcall h
    cases h.undefined.mp hcall
  exact ⟨rfl, rfl, rfl, rfl, rfl, hdefined _ rfl, hdefined _ rfl, hdefined _ rfl⟩

end ProgramAnalysis.Typecheck
