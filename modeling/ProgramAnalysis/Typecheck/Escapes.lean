import ProgramAnalysis.Typecheck.Returns

/-!
# Exceptions the driver does not catch

The driver catches strings. The one exception of another kind is the `std::bad_cast` of
`typecheckBranch`, which casts its condition before it looks at it.

* `Exn.Reportable`, `Raises`: what the driver catches; when a result is a failed cast;
* `Statement.Strands`, `DefsStrand`, `Program.Strands`: the check comes to a branch whose condition is
  not a binary expression, and has found no fault before;
* `typecheckExpression_raises`, **`typecheckStatement_raises`**: casts fail there and nowhere else;
* **`reported_iff`**: the programs whose rejections are all reported.
-/

namespace ProgramAnalysis.Typecheck

open Lib

/-- The driver catches `std::string` and `const char *`. -/
def Exn.Reportable : Exn → Prop
  | .string _ => True
  | .cstring _ => True
  | .badCast => False
  | .nullScope => False

/-- The result is a failed cast exactly when `p` holds, and never a null scope. -/
structure Raises {α : Type} (p : Prop) (r : Except Exn α) : Prop where
  badCast : r = .error .badCast ↔ p
  nonnull : r ≠ .error .nullScope

namespace Raises

variable {α β : Type} {p q : Prop}

theorem congr {r : Except Exn α} (h : Raises p r) (hpq : p ↔ q) : Raises q r :=
  ⟨h.badCast.trans hpq, h.nonnull⟩

theorem of_ok (a : α) : Raises False (.ok a : Except Exn α) :=
  ⟨iff_of_false (by simp) id, by simp⟩

theorem of_reportable {e : Exn} (h : e.Reportable) : Raises False (.error e : Except Exn α) := by
  cases e with
  | string m => exact ⟨iff_of_false (by simp) id, by simp⟩
  | cstring m => exact ⟨iff_of_false (by simp) id, by simp⟩
  | badCast => exact h.elim
  | nullScope => exact h.elim

theorem reportable_iff {r : Except Exn α} (h : Raises p r) :
    (∀ e, r = .error e → e.Reportable) ↔ ¬ p := by
  constructor
  · exact fun hr hp => hr _ (h.badCast.mpr hp)
  · intro hp e he
    cases e with
    | string m => trivial
    | cstring m => trivial
    | badCast => exact hp (h.badCast.mp he)
    | nullScope => exact h.nonnull he

theorem except_bind {r : Except Exn α} {f : α → Except Exn β} (hr : Raises False r)
    (hf : ∀ a, Raises False (f a)) : Raises False (r >>= f) := by
  cases r with
  | error e => exact ⟨⟨fun h => hr.badCast.mp (by cases h; rfl), False.elim⟩,
      fun h => hr.nonnull (by cases h; rfl)⟩
  | ok a => exact hf a

/-- **Sequencing.** A later call is only reached when the first one returns. -/
theorem bind {m : Check α} {k : α → Check β} {σ : Typechecker} (hm : Raises p (m σ).result)
    (hq : q → ∃ a, (m σ).result = .ok a)
    (hk : ∀ a, (m σ).result = .ok a → Raises q (k a (m σ).final).result) :
    Raises (p ∨ q) ((m >>= k) σ).result := by
  rcases hr : (m σ).result with e | a
  · have hnot : ¬ q := by
      intro h
      obtain ⟨a, ha⟩ := hq h
      rw [hr] at ha
      cases ha
    rw [Call.bind_of_error hr]
    rw [hr] at hm
    refine ⟨?_, fun h => hm.nonnull (by cases h; rfl)⟩
    rw [or_iff_left hnot, ← hm.badCast]
    exact ⟨fun h => by cases h; rfl, fun h => by cases h; rfl⟩
  · have hnot : ¬ p := by
      intro h
      rw [hm.badCast.mpr h] at hr
      cases hr
    rw [Call.bind_of_ok hr]
    exact (hk a hr).congr (or_iff_right hnot).symm

/-- A call after one that never fails a cast. -/
theorem after {m : Check α} {k : α → Check β} {σ : Typechecker} (hm : Raises False (m σ).result)
    (hq : q → ∃ a, (m σ).result = .ok a)
    (hk : ∀ a, (m σ).result = .ok a → Raises q (k a (m σ).final).result) :
    Raises q ((m >>= k) σ).result :=
  (bind hm hq hk).congr (Iff.of_eq (false_or q))

end Raises

/-! ## Expressions -/

theorem Env.get_raises {T : Type} {env : Env T} (h : env ≠ []) (x : String) :
    Raises False (env.get x) := by
  induction env with
  | nil => exact absurd rfl h
  | cons table parent ih =>
    rw [Env.get]
    cases table.lookup x with
    | some value => exact .of_ok value
    | none =>
      split_ifs with hp
      · exact ih hp
      · exact .of_reportable trivial

theorem checkArguments_raises (f : String) {args : List (Except Exn Ty)}
    (h : ∀ r ∈ args, Raises False r) (ps : List Ty) : Raises False (checkArguments f args ps) := by
  induction args generalizing ps with
  | nil => exact .of_ok ()
  | cons r args ih =>
    cases ps with
    | nil => exact .of_ok ()
    | cons p ps =>
      rw [List.forall_mem_cons] at h
      rw [checkArguments]
      refine .except_bind h.1 fun T => ?_
      by_cases hT : T = p
      · simpa [hT] using ih h.2 ps
      · simp only [ne_eq, hT, not_false_eq_true, if_true]
        exact .except_bind (.of_reportable trivial) fun _ => ih h.2 ps

theorem typecheckFunctionCall_raises (tc : Typechecker) (f : String) {args : List (Except Exn Ty)}
    (h : ∀ r ∈ args, Raises False r) : Raises False (typecheckFunctionCall tc f args) := by
  have htry : Raises False (tryFunctionCall tc f args) := by
    refine .except_bind (Env.get_raises (List.cons_ne_nil _ _) f) fun sig => ?_
    by_cases hlen : sig.parameterTypes.length = args.length
    · simp only [ne_eq, hlen, not_true_eq_false, if_false]
      exact .except_bind (checkArguments_raises f h _) fun _ => .of_ok _
    · simp only [ne_eq, hlen, not_false_eq_true, if_true]
      exact .except_bind (.of_reportable trivial) fun _ =>
        .except_bind (checkArguments_raises f h _) fun _ => .of_ok _
  rw [typecheckFunctionCall]
  split
  · exact .of_reportable trivial
  · exact htry

/-- **An expression check never fails a cast.** -/
theorem typecheckExpression_raises {σ : Typechecker} (h : σ.valueEnv ≠ []) (e : Expression) :
    Raises False (typecheckExpression σ e) := by
  induction e using Expression.ind with
  | empty => exact .of_ok _
  | num n => exact .of_ok _
  | var x => exact Env.get_raises h x
  | binary c l r ihl ihr =>
    rw [typecheckExpression]
    refine .except_bind ihl fun S => ?_
    by_cases hS : S = .INT
    · simp only [hS, if_true]
      refine .except_bind ihr fun T => ?_
      split_ifs
      · exact .of_ok _
      · exact .of_reportable trivial
    · simp only [hS, if_false]
      exact .of_reportable trivial
  | functionCall f args ih =>
    rw [typecheckExpression, argumentChecks_eq_map]
    refine typecheckFunctionCall_raises σ f fun r hr => ?_
    obtain ⟨a, ha, rfl⟩ := List.mem_map.mp hr
    exact ih a ha

/-! ## Where a cast fails -/

/-- A binary expression of any class. -/
def Expression.IsBinary : Expression → Prop
  | .binary _ _ _ => True
  | _ => False

/-- The check of a statement comes to a branch whose condition is no binary expression: everything
checked before it is well typed. -/
inductive Statement.Strands : Context → Statement → Prop
  | here {Γ c t e} : ¬ c.IsBinary → Strands Γ (.branch c t e)
  | thenStatement {Γ c t e} : branchCondition Γ c = true → Strands Γ t → Strands Γ (.branch c t e)
  | elseStatement {Γ c t e} : branchCondition Γ c = true → t.ConstraintsHold Γ → Strands Γ e →
      Strands Γ (.branch c t e)
  | body {Γ c b} : exprType Γ c = some .BOOL → Strands Γ b → Strands Γ (.loop c b)
  | element {Γ pre s post} : (∀ t ∈ pre, t.ConstraintsHold Γ) → Strands Γ s →
      Strands Γ (.sequence (pre ++ s :: post))
  | inside {Γ ds s} : (Declarations.names ds).Nodup → Strands (Γ.declare ds) s →
      Strands Γ (.block ds s)

theorem strands_branch_iff {Γ : Context} {cls : BinaryClass} {l r : Expression}
    {t e : Statement} : Statement.Strands Γ (.branch (.binary cls l r) t e) ↔
      branchCondition Γ (.binary cls l r) = true ∧
        (t.Strands Γ ∨ t.ConstraintsHold Γ ∧ e.Strands Γ) := by
  constructor
  · intro h
    cases h with
    | here h => exact absurd trivial h
    | thenStatement hc ht => exact ⟨hc, .inl ht⟩
    | elseStatement hc ht he => exact ⟨hc, .inr ⟨ht, he⟩⟩
  · rintro ⟨hc, ht | ⟨ht, he⟩⟩
    · exact .thenStatement hc ht
    · exact .elseStatement hc ht he

theorem strands_loop_iff {Γ : Context} {c : Expression} {b : Statement} :
    Statement.Strands Γ (.loop c b) ↔ exprType Γ c = some .BOOL ∧ b.Strands Γ := by
  constructor
  · intro h
    cases h with
    | body hc hb => exact ⟨hc, hb⟩
  · exact fun h => .body h.1 h.2

theorem strands_block_iff {Γ : Context} {ds : Declarations} {s : Statement} :
    Statement.Strands Γ (.block ds s) ↔
      (Declarations.names ds).Nodup ∧ s.Strands (Γ.declare ds) := by
  constructor
  · intro h
    cases h with
    | inside hnd hs => exact ⟨hnd, hs⟩
  · exact fun h => .inside h.1 h.2

theorem strands_nil {Γ : Context} : ¬ Statement.Strands Γ (.sequence []) := by
  intro h
  generalize hs : Statement.sequence [] = s at h
  cases h with
  | @element _ pre _ post => simp at hs
  | _ => cases hs

theorem strands_cons_iff {Γ : Context} {s : Statement} {ss : List Statement} :
    Statement.Strands Γ (.sequence (s :: ss)) ↔
      s.Strands Γ ∨ s.ConstraintsHold Γ ∧ Statement.Strands Γ (.sequence ss) := by
  constructor
  · intro h
    generalize hs : Statement.sequence (s :: ss) = t at h
    cases h with
    | @element _ pre u post hpre hu =>
      cases pre with
      | nil =>
        cases hs
        exact .inl hu
      | cons v pre =>
        cases hs
        rw [List.forall_mem_cons] at hpre
        exact .inr ⟨hpre.1, .element hpre.2 hu⟩
    | _ => cases hs
  · rintro (h | ⟨hs, h⟩)
    · exact @Statement.Strands.element Γ [] s ss (fun _ h => absurd h List.not_mem_nil) h
    · generalize ht : Statement.sequence ss = t at h
      cases h with
      | @element _ pre u post hpre hu =>
        cases ht
        exact @Statement.Strands.element Γ (s :: pre) u post (List.forall_mem_cons.mpr ⟨hs, hpre⟩) hu
      | _ => cases ht

/-! ## Statements -/

section Statements

variable {σ : Typechecker}

theorem checkExpression_ok_iff {e : Expression} {T : Ty} :
    (checkExpression e σ).result = .ok T ↔ exprType σ.context e = some T :=
  typecheckExpression_ok_iff

/-- What follows the check of an expression. -/
theorem checkExpression_then {α : Type} {e : Expression} {k : Ty → Check α} {q : Prop}
    (h : σ.valueEnv ≠ []) (hq : q → ∃ T, exprType σ.context e = some T)
    (hk : ∀ T, exprType σ.context e = some T → Raises q (k T σ).result) :
    Raises q ((do let T ← checkExpression e; k T) σ).result := by
  refine Raises.after (typecheckExpression_raises h e) (fun hp => ?_) fun T hT => ?_
  · obtain ⟨T, hT⟩ := hq hp
    exact ⟨T, checkExpression_ok_iff.mpr hT⟩
  · exact hk T (checkExpression_ok_iff.mp hT)

theorem throwIf_raises (c : Prop) [Decidable c] {e : Exn} (he : e.Reportable) :
    Raises False (throwIf c e σ).result := by
  unfold throwIf
  split_ifs
  · exact .of_reportable he
  · exact .of_ok ()

/-- What follows a test. -/
theorem throwIf_then {α : Type} {c : Prop} [Decidable c] {e : Exn} {k : Check α} {q : Prop}
    (he : e.Reportable) (hq : q → ¬ c) (hk : ¬ c → Raises q (k σ).result) :
    Raises q ((do throwIf c e; k) σ).result := by
  unfold throwIf
  split_ifs with hc
  · rw [Call.bind_of_error rfl]
    exact (Raises.of_reportable he).congr (iff_of_false id fun h => hq h hc)
  · rw [Call.bind_of_ok rfl]
    exact hk hc

theorem addVariable_raises (h : σ.valueEnv ≠ []) (x : String) (T : Ty) :
    Raises False (addVariable x T σ).result ∧ (addVariable x T σ).final.valueEnv ≠ [] := by
  obtain ⟨table, parent, hσ⟩ := List.exists_cons_of_ne_nil h
  have hpush : σ = (⟨parent, σ.functionEnv⟩ : Typechecker).push [table] := by
    cases σ
    simp only at hσ
    rw [hσ]
    rfl
  rw [hpush]
  by_cases hx : x ∈ table
  · rw [addVariable_push_of_mem T hx]
    exact ⟨.of_reportable trivial, List.cons_ne_nil _ _⟩
  · rw [addVariable_push T hx]
    exact ⟨.of_ok (), List.cons_ne_nil _ _⟩

theorem addDeclarations_raises (h : σ.valueEnv ≠ []) (ds : Declarations) :
    Raises False (addDeclarations ds σ).result := by
  induction ds generalizing σ with
  | nil => exact .of_ok ()
  | cons d ds ih =>
    obtain ⟨hr, hf⟩ := addVariable_raises h d.getVariable d.getType
    rw [addDeclarations]
    exact hr.after False.elim fun _ _ => ih hf

theorem constraintsHold_returns {s : Statement} (h : s.ConstraintsHold σ.context) :
    ∃ types, (typecheckStatement s σ).result = .ok types :=
  (typecheckStatement_accepts_iff σ s).mpr h

/-- A call in a scope of its own fails a cast when it does so inside. -/
theorem inScope_raises {α : Type} {ds : Declarations} {b : Check α} {p : Prop}
    (hb : (Declarations.names ds).Nodup →
      Raises p (b (σ.push [Declarations.into ds ∅])).result ∧
        (∀ a, (b (σ.push [Declarations.into ds ∅])).result = .ok a →
          (b (σ.push [Declarations.into ds ∅])).final = σ.push [Declarations.into ds ∅])) :
    Raises ((Declarations.names ds).Nodup ∧ p) (inScope ds b σ).result := by
  have hopen : Raises False (openScope ds σ).result := by
    rw [openScope_apply]
    exact addDeclarations_raises (List.cons_ne_nil _ _) ds
  have hreturns := addDeclarations_returns ds σ ∅
  rw [freshIn_empty] at hreturns
  unfold inScope
  refine hopen.after (fun h => ⟨(), ?_⟩) fun _ hr => ?_
  · rw [openScope_apply]
    exact hreturns.iff.mpr h.1
  · rw [openScope_apply] at hr ⊢
    have hnd := hreturns.iff.mp hr
    obtain ⟨hraises, hfinal⟩ := hb hnd
    rw [hreturns.final hr]
    refine (hraises.bind False.elim fun a ha => ?_).congr ?_
    · rw [hfinal a ha, Call.bind_of_ok (a := ()) (by rw [exitScope_push])]
      exact .of_ok a
    · rw [or_false]
      exact (and_iff_right hnd).symm

theorem typecheckSequence_raises {ss : List Statement} (acc : Finset Ty)
    (h : ∀ s ∈ ss, Raises (s.Strands σ.context) (typecheckStatement s σ).result) :
    Raises (Statement.Strands σ.context (.sequence ss))
      (typecheckSequence acc (statementChecks ss) σ).result := by
  induction ss generalizing acc with
  | nil => exact (Raises.of_ok acc).congr (iff_of_false id strands_nil)
  | cons s ss ih =>
    rw [List.forall_mem_cons] at h
    rw [statementChecks, typecheckSequence]
    refine Raises.congr (h.1.bind (fun hq => constraintsHold_returns hq.1) fun T hT => ?_)
      strands_cons_iff.symm
    have hok := (typecheckStatement_accepts_iff σ s).mp ⟨T, hT⟩
    rw [(typecheckStatement_settles s σ).restored T hT]
    exact (ih _ h.2).congr (and_iff_right hok).symm

/-- The arms of a branch, one after the other. -/
theorem arms_raise {t e : Statement}
    (ht : Raises (t.Strands σ.context) (typecheckStatement t σ).result)
    (he : Raises (e.Strands σ.context) (typecheckStatement e σ).result) :
    Raises (t.Strands σ.context ∨ t.ConstraintsHold σ.context ∧ e.Strands σ.context)
      ((do
        let thenTypes ← typecheckStatement t
        let elseTypes ← typecheckStatement e
        return setUnion thenTypes elseTypes : Check (Finset Ty)) σ).result := by
  refine ht.bind (fun hq => constraintsHold_returns hq.1) fun T hT => ?_
  have hok := (typecheckStatement_accepts_iff σ t).mp ⟨T, hT⟩
  rw [(typecheckStatement_settles t σ).restored T hT]
  refine (he.bind False.elim fun _ _ => .of_ok _).congr ?_
  rw [or_false]
  exact (and_iff_right hok).symm

/-- A branch on another condition fails its cast at once. -/
theorem branch_strands_of_not_binary {c : Expression} {t e : Statement} (hc : ¬ c.IsBinary) :
    Raises (Statement.Strands σ.context (.branch c t e))
      (typecheckStatement (.branch c t e) σ).result := by
  have hcast : typecheckStatement (.branch c t e) σ = ⟨.error .badCast, σ, []⟩ := by
    cases c with
    | binary cls l r => exact absurd trivial hc
    | _ => rfl
  rw [hcast]
  exact ⟨iff_of_true rfl (.here hc), by simp⟩

/-- The check of a branch on a binary expression: its operands, their types, and then its arms. -/
theorem branch_raises (h : σ.valueEnv ≠ []) {cls : BinaryClass} {l r : Expression} {t e : Statement}
    (ht : Raises (t.Strands σ.context) (typecheckStatement t σ).result)
    (he : Raises (e.Strands σ.context) (typecheckStatement e σ).result) :
    Raises (Statement.Strands σ.context (.branch (.binary cls l r) t e))
      (typecheckStatement (.branch (.binary cls l r) t e) σ).result := by
  rw [typecheckStatement, typecheckBranch]
  refine Raises.congr ?_ strands_branch_iff.symm
  have hcond : ∀ q : Prop, branchCondition σ.context (.binary cls l r) = true ∧ q →
      ∃ T, exprType σ.context l = some T ∧ exprType σ.context r = some T := by
    rintro q ⟨hq, -⟩
    obtain ⟨_, _, _, T, he, hl, hr⟩ := branchCondition_iff.mp hq
    cases he
    exact ⟨T, hl, hr⟩
  refine checkExpression_then h (fun hq => (hcond _ hq).imp fun T hT => hT.1) fun S hl => ?_
  refine checkExpression_then h (fun hq => (hcond _ hq).imp fun T hT => hT.2) fun U hr => ?_
  refine throwIf_then trivial (fun hq hSU => ?_) fun hSU => ?_
  · obtain ⟨T, hl', hr'⟩ := hcond _ hq
    exact hSU (Option.some.inj (hl.symm.trans (hl'.trans (hr'.symm.trans hr))))
  · have hok : branchCondition σ.context (.binary cls l r) = true :=
      branchCondition_iff.mpr ⟨cls, l, r, S, rfl, hl, (not_not.mp hSU) ▸ hr⟩
    exact (arms_raise ht he).congr (and_iff_right hok).symm

/-- **A statement check fails a cast exactly where it strands.** -/
theorem typecheckStatement_raises (h : σ.valueEnv ≠ []) (s : Statement) :
    Raises (s.Strands σ.context) (typecheckStatement s σ).result := by
  induction s using Statement.ind generalizing σ with
  | skip => exact (Raises.of_ok _).congr (iff_of_false id fun h => by cases h)
  | assignment x e =>
    rw [typecheckStatement, typecheckAssignment]
    refine Raises.congr (Raises.after (Env.get_raises h x) False.elim fun _ _ => ?_)
      (iff_of_false id fun h => by cases h)
    refine checkExpression_then h False.elim fun _ _ => ?_
    exact throwIf_then trivial False.elim fun _ => .of_ok _
  | branch c t e iht ihe =>
    by_cases hc : c.IsBinary
    · cases c with
      | binary cls l r => exact branch_raises h (iht h) (ihe h)
      | _ => exact hc.elim
    · exact branch_strands_of_not_binary hc
  | loop c b ih =>
    rw [typecheckStatement, typecheckLoop]
    refine Raises.congr ?_ strands_loop_iff.symm
    refine checkExpression_then h (fun hq => ⟨.BOOL, hq.1⟩) fun T hT => ?_
    refine throwIf_then trivial (fun hq hB => ?_) fun hB => ?_
    · exact hB (Option.some.inj (hT.symm.trans hq.1))
    · exact (ih h).congr (and_iff_right ((not_not.mp hB) ▸ hT)).symm
  | sequence ss ih =>
    exact typecheckSequence_raises ∅ fun s hs => ih s hs h
  | block ds s ih =>
    rw [typecheckStatement, typecheckBlock_eq_inScope]
    refine Raises.congr (inScope_raises fun hnd => ⟨ih (List.cons_ne_nil _ _), fun a ha => ?_⟩) ?_
    · exact (typecheckStatement_settles s _).restored a ha
    · rw [strands_block_iff]
      refine and_congr_right fun hnd => ?_
      rw [context_push_into hnd]
  | ret e =>
    rw [typecheckStatement, typecheckReturn]
    exact Raises.congr (checkExpression_then h False.elim fun _ _ => .of_ok _)
      (iff_of_false id fun h => by cases h)

end Statements

/-! ## Definitions and programs -/

/-- The check of a definition gets into its body and strands there. -/
def FunctionDefinition.Strands (Γ : Context) (f : FunctionDefinition) : Prop :=
  Γ.fn f.name = none ∧ (Declarations.names f.parameters).Nodup ∧
    f.body.toStatement.Strands (f.inside Γ)

/-- One of the definitions strands, and those before it are accepted. -/
inductive DefsStrand : Context → List FunctionDefinition → Prop
  | here {Γ f fs} : f.Strands Γ → DefsStrand Γ (f :: fs)
  | later {Γ f fs} : f.Accepted Γ → DefsStrand (Γ.define f) fs → DefsStrand Γ (f :: fs)

/-- The check of a program strands, in a definition or after all of them. -/
def Program.Strands (P : Program) : Prop :=
  (Declarations.names P.declarations).Nodup ∧
    (DefsStrand P.globals P.functionDefs ∨ DefsAccepted P.globals P.functionDefs ∧
      P.statement.Strands (P.globals.defineAll P.functionDefs))

theorem defsStrand_cons_iff {Γ : Context} {f : FunctionDefinition} {fs : List FunctionDefinition} :
    DefsStrand Γ (f :: fs) ↔ f.Strands Γ ∨ f.Accepted Γ ∧ DefsStrand (Γ.define f) fs := by
  constructor
  · intro h
    cases h with
    | here h => exact .inl h
    | later hf h => exact .inr ⟨hf, h⟩
  · rintro (h | ⟨hf, h⟩)
    · exact .here h
    · exact .later hf h

section Programs

variable {σ : Typechecker}

theorem checkReturnTypes_raises (h : σ.valueEnv ≠ []) (f : FunctionDefinition) :
    Raises (f.body.toStatement.Strands σ.context) (checkReturnTypes f σ).result := by
  have htests : ∀ types : Finset Ty, Raises False ((do
      throwIf (types.card > 2) (.string
        ("Typechecker::typecheckFunctionDef : More than 2 Return type in function " ++ f.name))
      throwIf (f.returnType ∉ types) (.string
        ("Typechecker::typecheckFunctionDef : Return type mismatch in function " ++ f.name))
      : Check Unit) σ).result := by
    intro types
    refine throwIf_then ?_ False.elim fun _ => throwIf_raises _ ?_
    · exact trivial
    · exact trivial
  unfold checkReturnTypes
  refine ((typecheckStatement_raises h _).bind False.elim fun types htypes => ?_).congr
    (Iff.of_eq (or_false _))
  rw [(typecheckStatement_settles _ σ).restored types htypes]
  exact htests types

theorem typecheckFunctionDef_raises (f : FunctionDefinition) :
    Raises (f.Strands σ.context) (typecheckFunctionDef f σ).result := by
  by_cases hf : f.name ∈ σ.functionEnv
  · rw [typecheckFunctionDef_of_mem hf]
    refine Raises.congr (.of_reportable trivial) (iff_of_false id fun hs => ?_)
    exact Finmap.lookup_eq_none.mp hs.1 hf
  · have ha := addFunction_of_notMem hf
    rw [typecheckFunctionDef_eq, Call.bind_of_ok (by rw [ha]), ha, typecheckFunctionBody_eq_inScope]
    refine (inScope_raises fun hnd => ⟨checkReturnTypes_raises (List.cons_ne_nil _ _) f,
      fun a ha => (checkReturnTypes_settles f _).restored a ha⟩).congr ?_
    have hnew : σ.context.fn f.name = none := Finmap.lookup_eq_none.mpr hf
    unfold FunctionDefinition.Strands
    rw [and_iff_right hnew]
    refine and_congr_right fun hnd => ?_
    rw [context_push_into hnd, context_register]
    rfl

theorem typecheckFunctionDefs_raises (h : σ.valueEnv ≠ []) (fs : List FunctionDefinition) :
    Raises (DefsStrand σ.context fs) (typecheckFunctionDefs fs σ).result := by
  induction fs generalizing σ with
  | nil => exact (Raises.of_ok ()).congr (iff_of_false id fun h => by cases h)
  | cons f fs ih =>
    have hreturns := typecheckFunctionDef_returns f σ
    rw [typecheckFunctionDefs]
    refine ((typecheckFunctionDef_raises f).bind
      (fun hq => ⟨(), hreturns.iff.mpr hq.1⟩) fun _ hr => ?_).congr defsStrand_cons_iff.symm
    have htail := ih (σ := σ.register f) h
    rw [hreturns.final hr]
    rw [context_register] at htail
    exact htail.congr (and_iff_right (hreturns.iff.mp hr)).symm

/-- Definitions and the statement after them. -/
theorem definitions_raise (h : σ.valueEnv ≠ []) (fs : List FunctionDefinition) (s : Statement) :
    Raises (DefsStrand σ.context fs ∨
      DefsAccepted σ.context fs ∧ s.Strands (σ.context.defineAll fs))
      ((do
        typecheckFunctionDefs fs
        let _ ← typecheckStatement s : Check Unit) σ).result := by
  have hreturns := typecheckFunctionDefs_returns fs σ
  refine (typecheckFunctionDefs_raises h fs).bind (fun hq => ⟨(), hreturns.iff.mpr hq.1⟩)
    fun _ hr => ?_
  have hne : (σ.registerAll fs).valueEnv ≠ [] := by rwa [registerAll_valueEnv]
  have hs := (typecheckStatement_raises hne s).bind (k := fun _ => pure ()) False.elim
    fun _ _ => .of_ok ()
  rw [hreturns.final hr]
  rw [context_registerAll, or_false] at hs
  exact hs.congr (and_iff_right (hreturns.iff.mp hr)).symm

/-- **A program fails a cast exactly where it strands.** -/
theorem typecheckProgram_raises (P : Program) :
    Raises P.Strands (typecheckProgram P Typechecker.new).result := by
  have hdecls := addDeclarations_returns P.declarations ⟨[], ∅⟩ ∅
  rw [freshIn_empty] at hdecls
  have hraises : Raises False (addDeclarations P.declarations Typechecker.new).result :=
    addDeclarations_raises (List.cons_ne_nil _ _) _
  refine hraises.after (fun hq => ⟨(), hdecls.iff.mpr hq.1⟩) fun _ hr => ?_
  have hnd := hdecls.iff.mp hr
  have hcontext := context_push_into hnd ⟨[], ∅⟩
  have hrest := definitions_raise (List.cons_ne_nil _ _)
    (σ := (⟨[], ∅⟩ : Typechecker).push [Declarations.into P.declarations ∅])
    P.functionDefs P.statement
  rw [hcontext] at hrest
  have hfinal : (addDeclarations P.declarations Typechecker.new).final = _ := hdecls.final hr
  rw [hfinal]
  exact hrest.congr (and_iff_right hnd).symm

end Programs

/-- **Rejections the driver reports.** On a fresh typechecker a program returns or throws a string,
exactly when its check does not strand at a branch whose condition is no binary expression. -/
theorem reported_iff (P : Program) :
    (∀ e, (typecheckProgram P Typechecker.new).result = .error e → e.Reportable) ↔ ¬ P.Strands :=
  (typecheckProgram_raises P).reportable_iff

/-- `BOOL b; if (b) skip; else skip;` ends in a failed cast. -/
theorem variable_condition_escapes :
    let P : Program := ⟨"P", [⟨"b", .BOOL⟩], [], .branch (.var "b") .skip .skip⟩
    (typecheckProgram P Typechecker.new).result = .error .badCast ∧ ¬ Exn.badCast.Reportable :=
  ⟨rfl, id⟩

end ProgramAnalysis.Typecheck
