import ProgramAnalysis.Typecheck.Constraints

/-!
# Scope discipline

The typechecker moves a pointer through a chain of scopes; `stmtTypes` passes a context. This file
connects the two: a statement check puts its scope back when it returns, only ever works above the
scope it started in, and has the verdict of `stmtTypes`.

* `Typechecker.push`, `Typechecker.Above`: scopes on top of a state;
* `Statement.FirstViolated`, `Statement.LeavesAt`: the node whose check throws, and the state it leaves;
* **`typecheckStatement_settles`**: the statement checker settles with verdict `stmtTypes`;
* **`typecheckStatement_accepts_iff`**: it accepts exactly when the local constraints hold.
-/

namespace ProgramAnalysis.Typecheck

open Lib

/-! ## Pushed scopes -/

/-- A state with more scopes on top. -/
def Typechecker.push (tc : Typechecker) (pushed : Env Ty) : Typechecker :=
  { tc with valueEnv := pushed ++ tc.valueEnv }

/-- `τ` stands on `σ`: the scopes of `σ` are at the bottom of its chain, and the functions are
those of `σ`. -/
def Typechecker.Above (σ τ : Typechecker) : Prop :=
  σ.valueEnv <:+ τ.valueEnv ∧ τ.functionEnv = σ.functionEnv

namespace Typechecker

variable {σ τ : Typechecker}

@[simp] theorem push_nil (σ : Typechecker) : σ.push [] = σ := rfl

@[simp] theorem push_functionEnv (σ : Typechecker) (p : Env Ty) :
    (σ.push p).functionEnv = σ.functionEnv := rfl

theorem push_push (σ : Typechecker) (p q : Env Ty) : (σ.push p).push q = σ.push (q ++ p) := by
  simp [push]

theorem above_refl (σ : Typechecker) : Above σ σ := ⟨List.suffix_rfl, rfl⟩

theorem above_push (σ : Typechecker) (p : Env Ty) : Above σ (σ.push p) :=
  ⟨List.suffix_append _ _, rfl⟩

theorem Above.trans {υ : Typechecker} (h : Above σ τ) (h' : Above τ υ) : Above σ υ :=
  ⟨h.1.trans h'.1, h'.2.trans h.2⟩

end Typechecker

/-! ## Entering a scope -/

/-- The table after a list of declarations was added. -/
def Declarations.into (ds : Declarations) (T : Table Ty) : Table Ty :=
  ds.foldl (fun T d => T.insert d.getVariable d.getType) T

/-- The declared names are distinct and new to the table. -/
def Declarations.FreshIn (ds : Declarations) (T : Table Ty) : Prop :=
  (Declarations.names ds).Nodup ∧ ∀ x ∈ Declarations.names ds, x ∉ T

theorem freshIn_cons {d : Declaration} {ds : Declarations} {T : Table Ty} :
    Declarations.FreshIn (d :: ds) T ↔
      d.getVariable ∉ T ∧ Declarations.FreshIn ds (T.insert d.getVariable d.getType) := by
  simp only [Declarations.FreshIn, Declarations.names_cons, List.nodup_cons, List.forall_mem_cons,
    Finmap.mem_insert, not_or]
  constructor
  · rintro ⟨⟨hd, hnd⟩, hdT, h⟩
    exact ⟨hdT, hnd, fun x hx => ⟨fun hxd => hd (hxd ▸ hx), h x hx⟩⟩
  · rintro ⟨hdT, hnd, h⟩
    exact ⟨⟨fun hd => (h _ hd).1 rfl, hnd⟩, hdT, fun x hx => (h x hx).2⟩

theorem freshIn_empty {ds : Declarations} :
    Declarations.FreshIn ds ∅ ↔ (Declarations.names ds).Nodup := by
  simp [Declarations.FreshIn, Finmap.notMem_empty]

theorem lookup_into {ds : Declarations} {T : Table Ty} (h : Declarations.FreshIn ds T)
    (x : String) : (Declarations.into ds T).lookup x = (Declarations.typeOf ds x).or (T.lookup x) := by
  induction ds generalizing T with
  | nil => rfl
  | cons d ds ih =>
    have hc := freshIn_cons.mp h
    change (Declarations.into ds _).lookup x = _
    rw [ih hc.2, Declarations.typeOf_cons]
    by_cases hx : d.getVariable = x
    · subst hx
      have hnone : Declarations.typeOf ds d.getVariable = none :=
        Declarations.typeOf_eq_none_iff.mpr (List.nodup_cons.mp h.1).1
      rw [hnone, if_pos rfl, Finmap.lookup_insert]
      rfl
    · rw [if_neg hx, Finmap.lookup_insert_of_ne _ (Ne.symm hx)]

theorem addVariable_push {σ : Typechecker} {T : Table Ty} {x : String} (type : Ty) (h : x ∉ T) :
    addVariable x type (σ.push [T]) =
      ⟨.ok (), σ.push [T.insert x type], [σ.push [T.insert x type]]⟩ := by
  refine Call.update_of_ok ?_
  simp only [Typechecker.push, List.singleton_append, Env.addMapping, Table.addMapping,
    Finmap.lookup_eq_none.mpr h, Except.map, Mapped.assign]

theorem addVariable_push_of_mem {σ : Typechecker} {T : Table Ty} {x : String} (type : Ty)
    (h : x ∈ T) : addVariable x type (σ.push [T]) = ⟨.error
      (.string ("Env::addMapping : repeat declaration for name " ++ x ++ ".")), σ.push [T], []⟩ := by
  obtain ⟨U, hU⟩ := Finmap.mem_iff.mp h
  refine Call.update_of_error ?_
  simp only [Typechecker.push, List.singleton_append, Env.addMapping, Table.addMapping, hU,
    Except.map]

/-- Adding declarations to a scope that has none of them. -/
theorem addDeclarations_of_fresh {ds : Declarations} {σ : Typechecker} {T : Table Ty}
    (h : Declarations.FreshIn ds T) :
    (addDeclarations ds (σ.push [T])).result = .ok () ∧
      (addDeclarations ds (σ.push [T])).final = σ.push [Declarations.into ds T] ∧
        ∀ t ∈ (addDeclarations ds (σ.push [T])).visited, ∃ U, t = σ.push [U] := by
  induction ds generalizing T with
  | nil => exact ⟨rfl, rfl, fun t ht => absurd ht List.not_mem_nil⟩
  | cons d ds ih =>
    have hc := freshIn_cons.mp h
    have hv := addVariable_push (σ := σ) d.getType hc.1
    obtain ⟨hr, hf, hvis⟩ := ih hc.2
    rw [addDeclarations, Call.bind_of_ok (a := ()) (by rw [hv]), hv]
    refine ⟨hr, hf, fun t ht => ?_⟩
    rcases List.mem_append.mp ht with ht | ht
    · exact ⟨_, List.mem_singleton.mp ht⟩
    · exact hvis t ht

/-- `done` is what a list of declarations has before the first one whose name the scope already has. -/
def Declarations.StopsAfter (ds : Declarations) (T : Table Ty) (done : Declarations) : Prop :=
  ∃ d rest, ds = done ++ d :: rest ∧ Declarations.FreshIn done T ∧
    d.getVariable ∈ Declarations.into done T

/-- Adding declarations throws at the first one the scope already has, and leaves those before it. -/
theorem addDeclarations_of_not_fresh {ds : Declarations} {σ : Typechecker} {T : Table Ty}
    (h : ¬ Declarations.FreshIn ds T) :
    (∃ e, (addDeclarations ds (σ.push [T])).result = .error e) ∧
      (∃ done, Declarations.StopsAfter ds T done ∧
        (addDeclarations ds (σ.push [T])).final = σ.push [Declarations.into done T]) ∧
        ∀ t ∈ (addDeclarations ds (σ.push [T])).visited, ∃ U, t = σ.push [U] := by
  induction ds generalizing T with
  | nil => exact absurd ⟨List.nodup_nil, fun x hx => absurd hx List.not_mem_nil⟩ h
  | cons d ds ih =>
    rw [freshIn_cons, not_and_or, not_not] at h
    rw [addDeclarations]
    by_cases hd : d.getVariable ∈ T
    · have hv := addVariable_push_of_mem (σ := σ) d.getType hd
      rw [Call.bind_of_error (by rw [hv]), hv]
      have hnil : Declarations.FreshIn [] T :=
        ⟨List.nodup_nil, fun x hx => absurd hx List.not_mem_nil⟩
      exact ⟨⟨_, rfl⟩, ⟨[], ⟨d, ds, rfl, hnil, hd⟩, rfl⟩, fun t ht => absurd ht List.not_mem_nil⟩
    · have hv := addVariable_push (σ := σ) d.getType hd
      obtain ⟨hr, ⟨done, ⟨d', rest, rfl, hdone, hd'⟩, hf⟩, hvis⟩ := ih (h.resolve_left hd)
      rw [Call.bind_of_ok (a := ()) (by rw [hv]), hv]
      refine ⟨hr, ⟨d :: done, ⟨d', rest, rfl, freshIn_cons.mpr ⟨hd, hdone⟩, hd'⟩, hf⟩, fun t ht => ?_⟩
      rcases List.mem_append.mp ht with ht | ht
      · exact ⟨_, List.mem_singleton.mp ht⟩
      · exact hvis t ht

theorem addDeclarations_returns (ds : Declarations) (σ : Typechecker) (T : Table Ty) :
    (addDeclarations ds (σ.push [T])).Returns (Declarations.FreshIn ds T)
      (σ.push [Declarations.into ds T]) := by
  by_cases h : Declarations.FreshIn ds T
  · obtain ⟨hr, hf, -⟩ := addDeclarations_of_fresh (σ := σ) h
    exact .of_ok h hr hf
  · obtain ⟨⟨e, he⟩, -⟩ := addDeclarations_of_not_fresh (σ := σ) h
    exact .of_error h he

/-- Push a scope and add its declarations. -/
def openScope (ds : Declarations) : Check Unit := do
  enterScope
  addDeclarations ds

theorem openScope_apply (ds : Declarations) (σ : Typechecker) :
    openScope ds σ = ⟨(addDeclarations ds (σ.push [∅])).result,
      (addDeclarations ds (σ.push [∅])).final,
        σ.push [∅] :: (addDeclarations ds (σ.push [∅])).visited⟩ := by
  rw [openScope, Call.bind_of_ok (a := ()) rfl]
  rfl

theorem exitScope_push (σ : Typechecker) (T : Table Ty) :
    exitScope (σ.push [T]) = ⟨.ok (), σ, [σ]⟩ := Call.update_of_ok rfl

theorem openScope_visited {ds : Declarations} {σ t : Typechecker}
    (ht : t ∈ (openScope ds σ).visited) : Typechecker.Above σ t := by
  rw [openScope_apply] at ht
  have hvis : ∀ t ∈ (addDeclarations ds (σ.push [∅])).visited, ∃ U, t = σ.push [U] := by
    by_cases h : Declarations.FreshIn ds ∅
    · exact (addDeclarations_of_fresh h).2.2
    · exact (addDeclarations_of_not_fresh h).2.2
  rcases List.mem_cons.mp ht with rfl | ht
  · exact Typechecker.above_push σ _
  · obtain ⟨U, rfl⟩ := hvis t ht
    exact Typechecker.above_push σ _

theorem context_push_into {ds : Declarations} (h : (Declarations.names ds).Nodup)
    (σ : Typechecker) :
    (σ.push [Declarations.into ds ∅]).context = σ.context.declare ds := by
  refine Context.ext (funext fun x => ?_) rfl
  change resolve (Declarations.into ds ∅ :: σ.valueEnv) x = _
  rw [resolve_cons, lookup_into (freshIn_empty.mpr h), Finmap.lookup_empty, Option.or_none]
  rfl

/-! ## Statements settle -/

/-- `s.FirstViolated Γ B t`: in the context `Γ`, `t` is the first node of `s` to be checked that violates
its condition. It stands in the blocks with the declarations `B`, innermost first. -/
inductive Statement.FirstViolated : Statement → Context → List Declarations → Statement → Prop
  | self {Γ s} : ¬ Okay Γ s → FirstViolated s Γ [] s
  | thenStatement {Γ c t e B u} : Okay Γ (.branch c t e) → FirstViolated t Γ B u →
    FirstViolated (.branch c t e) Γ B u
  | elseStatement {Γ c t e B u} : Okay Γ (.branch c t e) → t.ConstraintsHold Γ →
    FirstViolated e Γ B u → FirstViolated (.branch c t e) Γ B u
  | body {Γ c b B u} : Okay Γ (.loop c b) → FirstViolated b Γ B u → FirstViolated (.loop c b) Γ B u
  | element {Γ done s rest B u} : (∀ t ∈ done, t.ConstraintsHold Γ) → FirstViolated s Γ B u →
    FirstViolated (.sequence (done ++ s :: rest)) Γ B u
  | inside {Γ ds s B u} : Okay Γ (.block ds s) → FirstViolated s (Γ.declare ds) B u →
    FirstViolated (.block ds s) Γ (B ++ [ds]) u

/-- The scopes that a violated node has pushed itself: that of a block, with the declarations before the
one that repeats a name. -/
def Statement.OwnScopes : Statement → Env Ty → Prop
  | .block ds _, own => ∃ done, Declarations.StopsAfter ds ∅ done ∧ own = [Declarations.into done ∅]
  | _, own => own = []

/-- `s.LeavesAt σ τ`: the first violated node of `s` leaves `τ`, which is `σ` with the scopes of the blocks
around that node pushed, and those of the node itself. -/
def Statement.LeavesAt (s : Statement) (σ τ : Typechecker) : Prop :=
  ∃ B t own, s.FirstViolated σ.context B t ∧ t.OwnScopes own ∧
    τ = σ.push (own ++ B.map fun ds => Declarations.into ds ∅)

namespace Statement.LeavesAt

variable {σ τ : Typechecker}

theorem self {s : Statement} (h : ¬ s.Okay σ.context) (ho : s.OwnScopes []) : s.LeavesAt σ σ :=
  ⟨[], s, [], .self h, ho, rfl⟩

theorem repeated {ds done : Declarations} {s : Statement} (hds : ¬ (Declarations.names ds).Nodup)
    (h : Declarations.StopsAfter ds ∅ done) :
    (Statement.block ds s).LeavesAt σ (σ.push [Declarations.into done ∅]) :=
  ⟨[], _, _, .self fun hok => hds (okay_block_iff.mp hok), ⟨done, h, rfl⟩, rfl⟩

theorem thenStatement {c : Expression} {t e : Statement} (hc : branchCondition σ.context c = true) :
    t.LeavesAt σ τ → (Statement.branch c t e).LeavesAt σ τ :=
  fun ⟨B, u, p, hu, h⟩ => ⟨B, u, p, .thenStatement (okay_branch_iff.mpr hc) hu, h⟩

theorem elseStatement {c : Expression} {t e : Statement} (hc : branchCondition σ.context c = true)
    (ht : (stmtTypes σ.context t).isSome) : e.LeavesAt σ τ → (Statement.branch c t e).LeavesAt σ τ :=
  fun ⟨B, u, p, hu, h⟩ =>
    ⟨B, u, p, .elseStatement (okay_branch_iff.mpr hc) (stmtTypes_isSome_iff.mp ht) hu, h⟩

theorem body {c : Expression} {b : Statement} (hc : exprType σ.context c = some .BOOL) :
    b.LeavesAt σ τ → (Statement.loop c b).LeavesAt σ τ :=
  fun ⟨B, u, p, hu, h⟩ => ⟨B, u, p, .body (okay_loop_iff.mpr hc) hu, h⟩

theorem element {done rest : List Statement} {s : Statement}
    (hdone : ∀ t ∈ done, (stmtTypes σ.context t).isSome) :
    s.LeavesAt σ τ → (Statement.sequence (done ++ s :: rest)).LeavesAt σ τ :=
  fun ⟨B, u, p, hu, h⟩ =>
    ⟨B, u, p, .element (fun t ht => stmtTypes_isSome_iff.mp (hdone t ht)) hu, h⟩

theorem inside {ds : Declarations} {s : Statement} (hds : (Declarations.names ds).Nodup) :
    s.LeavesAt (σ.push [Declarations.into ds ∅]) τ → (Statement.block ds s).LeavesAt σ τ := by
  rintro ⟨B, u, p, hu, hp, rfl⟩
  rw [context_push_into hds] at hu
  refine ⟨B ++ [ds], u, p, .inside (okay_block_iff.mpr hds) hu, hp, ?_⟩
  rw [Typechecker.push_push, List.map_append, List.append_assoc]
  rfl

/-- Only scopes are pushed. -/
theorem exists_push {s : Statement} (h : s.LeavesAt σ τ) : ∃ p, τ = σ.push p := by
  obtain ⟨B, u, p, -, -, rfl⟩ := h
  exact ⟨_, rfl⟩

end Statement.LeavesAt

/-- What it is for a call to settle on a typechecker. -/
abbrev Settles {α : Type} (Left : Typechecker → Prop) (σ : Typechecker) (v : Option α)
    (o : Outcome Exn Typechecker α) : Prop := o.Settles Typechecker.Above Left σ v

section Parts

variable {σ : Typechecker} {Left : Typechecker → Prop}

theorem checkExpression_settles (e : Expression) :
    Settles (fun t => t = σ) σ (exprType σ.context e) (checkExpression e σ) :=
  Outcome.Settles.read (typecheckExpression_toOption σ e)

theorem throwIf_settles (c : Prop) [Decidable c] (e : Exn) :
    Settles (fun t => t = σ) σ (if c then none else some ()) (throwIf c e σ) := by
  unfold throwIf
  split_ifs
  · exact ⟨rfl, fun _ h => (by cases h), fun _ _ => rfl, fun _ h => absurd h List.not_mem_nil⟩
  · exact Outcome.Settles.ret

theorem typecheckAssignment_settles (x : String) (e : Expression) :
    Settles ((Statement.assignment x e).LeavesAt σ) σ (stmtTypes σ.context (.assignment x e))
      (typecheckAssignment x e σ) := by
  have hverdict : stmtTypes σ.context (.assignment x e) = (σ.context.var x).bind fun S =>
      (exprType σ.context e).bind fun T =>
        (if S ≠ T then none else some ()).bind fun _ => some {Ty.NIL} := by
    rw [stmtTypes]
    cases σ.context.var x with
    | none => simp
    | some S =>
      cases exprType σ.context e with
      | none => simp
      | some T => by_cases h : S = T <;> simp [h]
  have hleft : stmtTypes σ.context (.assignment x e) = none → ∀ t, t = σ →
      (Statement.assignment x e).LeavesAt σ t := by
    rintro h t rfl
    refine .self (fun hok => ?_) rfl
    have hverdict := stmtTypes_isSome_iff.mpr (everywhere_assignment.mpr hok)
    rw [h] at hverdict
    cases hverdict
  refine Outcome.Settles.mono ?_ hleft
  rw [hverdict]
  refine Outcome.Settles.bind (Outcome.Settles.read (Env.get_toOption σ.valueEnv x)) fun S _ => ?_
  refine Outcome.Settles.bind (checkExpression_settles e) fun T _ => ?_
  exact Outcome.Settles.bind (throwIf_settles _ _) fun _ _ => Outcome.Settles.ret

/-- The part of `typecheckBranch` before its arms. -/
theorem typecheckBranch_settles {c : Expression} {t e : Check (Finset Ty)} {v w : Option (Finset Ty)}
    (hc : branchCondition σ.context c = false → Left σ)
    (ht : branchCondition σ.context c = true → Settles Left σ v (t σ))
    (he : branchCondition σ.context c = true → v.isSome → Settles Left σ w (e σ)) :
    Settles Left σ (if branchCondition σ.context c then v.bind fun T => w.map fun E => T ∪ E
      else none) (typecheckBranch c t e σ) := by
  cases c with
  | binary cls l r =>
    have hverdict : (if branchCondition σ.context (.binary cls l r) then
        v.bind fun T => w.map fun E => T ∪ E else none) =
          (exprType σ.context l).bind fun S => (exprType σ.context r).bind fun T =>
            (if S ≠ T then none else some ()).bind fun _ =>
              v.bind fun T => w.bind fun E => some (setUnion T E) := by
      simp only [branchCondition, setUnion, Option.map_eq_bind]
      cases exprType σ.context l with
      | none => simp
      | some S =>
        cases exprType σ.context r with
        | none => simp
        | some T => by_cases h : S = T <;> simp [h]
    rw [hverdict]
    refine Outcome.Settles.bind ((checkExpression_settles l).mono fun h u hu => ?_) fun S hS => ?_
    · subst hu
      exact hc (by simp [branchCondition, h])
    refine Outcome.Settles.bind ((checkExpression_settles r).mono fun h u hu => ?_) fun T hT => ?_
    · subst hu
      exact hc (by simp [branchCondition, h, hS])
    refine Outcome.Settles.bind ((throwIf_settles _ _).mono fun h u hu => ?_) fun _ hpass => ?_
    · subst hu
      refine hc ?_
      have hne : S ≠ T := fun hST => by simp [hST] at h
      simp [branchCondition, hS, hT, hne]
    have hST : S = T := by simpa using hpass
    have hcond : branchCondition σ.context (.binary cls l r) = true := by
      simp [branchCondition, hS, hT, hST]
    refine Outcome.Settles.bind (ht hcond) fun T hv => ?_
    exact Outcome.Settles.bind (he hcond (by rw [hv]; rfl)) fun E _ => Outcome.Settles.ret
  | _ =>
    exact ⟨rfl, fun _ h => (by cases h), fun _ _ => hc rfl, fun _ h => absurd h List.not_mem_nil⟩

theorem typecheckLoop_settles {c : Expression} {b : Check (Finset Ty)} {v : Option (Finset Ty)}
    (hc : exprType σ.context c ≠ some .BOOL → Left σ)
    (hb : exprType σ.context c = some .BOOL → Settles Left σ v (b σ)) :
    Settles Left σ (if exprType σ.context c = some .BOOL then v else none)
      (typecheckLoop c b σ) := by
  have hverdict : (if exprType σ.context c = some .BOOL then v else none) =
      (exprType σ.context c).bind fun T => (if T ≠ .BOOL then none else some ()).bind fun _ => v := by
    cases exprType σ.context c with
    | none => simp
    | some T => by_cases h : T = .BOOL <;> simp [h]
  rw [hverdict]
  refine Outcome.Settles.bind ((checkExpression_settles c).mono fun h u hu => ?_) fun T hT => ?_
  · subst hu
    exact hc (by simp [h])
  refine Outcome.Settles.bind ((throwIf_settles _ _).mono fun h u hu => ?_) fun _ hpass => hb ?_
  · subst hu
    refine hc fun hB => ?_
    rw [hT] at hB
    simp [Option.some.inj hB] at h
  · have hTB : T = .BOOL := by simpa using hpass
    rw [hT, hTB]

/-- The elements of a sequence settle, each after those before it were accepted. -/
theorem typecheckSequence_settles {ss : List Statement}
    (h : ∀ done s rest, ss = done ++ s :: rest → (∀ t ∈ done, (stmtTypes σ.context t).isSome) →
      Settles Left σ (stmtTypes σ.context s) (typecheckStatement s σ))
    (acc : Finset Ty) : Settles Left σ ((seqTypes σ.context ss).map fun U => acc ∪ U)
      (typecheckSequence acc (statementChecks ss) σ) := by
  induction ss generalizing acc with
  | nil =>
    simp only [seqTypes, Option.map_some, Finset.union_empty]
    exact Outcome.Settles.ret
  | cons s ss ih =>
    have hverdict : (seqTypes σ.context (s :: ss)).map (fun U => acc ∪ U) =
        (stmtTypes σ.context s).bind fun T =>
          (seqTypes σ.context ss).map fun U => setUnion acc T ∪ U := by
      rw [seqTypes]
      cases stmtTypes σ.context s <;> cases seqTypes σ.context ss <;>
        simp [setUnion, Finset.union_assoc]
    rw [hverdict, statementChecks]
    have hfirst := h [] s ss rfl fun t ht => absurd ht List.not_mem_nil
    refine Outcome.Settles.bind hfirst fun T hT => ih (fun done t rest hss hdone => ?_) _
    refine h (s :: done) t rest (congrArg (s :: ·) hss) (List.forall_mem_cons.mpr ⟨?_, hdone⟩)
    rw [hT]
    rfl

/-- A call inside a scope of its own. -/
def inScope {α : Type} (ds : Declarations) (b : Check α) : Check α := do
  openScope ds
  let a ← b
  exitScope
  return a

theorem typecheckBlock_eq_inScope (ds : Declarations) (b : Check (Finset Ty)) :
    typecheckBlock ds b = inScope ds b := by
  rw [typecheckBlock, inScope, openScope, bind_assoc]

/-- A call in a scope of its own pushes the scope, settles there, and pops it again. -/
theorem inScope_settles {α : Type} {ds : Declarations} {b : Check α} {v : Option α}
    (hrep : ¬ (Declarations.names ds).Nodup → ∀ done, Declarations.StopsAfter ds ∅ done →
      Left (σ.push [Declarations.into done ∅]))
    (hb : (Declarations.names ds).Nodup → Settles Left (σ.push [Declarations.into ds ∅]) v
      (b (σ.push [Declarations.into ds ∅]))) :
    Settles Left σ (if (Declarations.names ds).Nodup then v else none) (inScope ds b σ) := by
  unfold inScope
  by_cases hnd : (Declarations.names ds).Nodup
  · rw [if_pos hnd]
    obtain ⟨hr, hf, -⟩ := addDeclarations_of_fresh (σ := σ) (freshIn_empty.mpr hnd)
    have hfinal : (openScope ds σ).final = σ.push [Declarations.into ds ∅] := by
      rw [openScope_apply, hf]
    refine Outcome.Settles.bracket (by rw [openScope_apply, hr]) (fun t => openScope_visited)
      (fun t ht => ?_) (Typechecker.above_refl σ) ?_ ?_
    · rw [hfinal] at ht
      exact (Typechecker.above_push σ _).trans ht
    · rw [hfinal]
      exact hb hnd
    · rw [hfinal]
      exact exitScope_push σ _
  · rw [if_neg hnd]
    obtain ⟨⟨e, he⟩, ⟨done, hdone, hstop⟩, -⟩ :=
      addDeclarations_of_not_fresh (σ := σ) (fun h => hnd (freshIn_empty.mp h))
    have hres : (openScope ds σ).result = .error e := by rw [openScope_apply, he]
    have hfinal : (openScope ds σ).final = σ.push [Declarations.into done ∅] := by
      rw [openScope_apply, hstop]
    rw [Call.bind_of_error hres]
    exact ⟨rfl, fun _ h => (by cases h), fun _ _ => hfinal ▸ hrep hnd done hdone,
      fun t => openScope_visited⟩

end Parts

/-- **The statement checker settles**: it has the verdict of `stmtTypes`, puts its scope back when
it returns, and when it throws leaves a scope for every block around the first violated node. -/
theorem typecheckStatement_settles (s : Statement) (σ : Typechecker) :
    Settles (s.LeavesAt σ) σ (stmtTypes σ.context s) (typecheckStatement s σ) := by
  induction s using Statement.ind generalizing σ with
  | skip => exact Outcome.Settles.ret
  | assignment x e => exact typecheckAssignment_settles x e
  | branch c t e iht ihe =>
    rw [typecheckStatement, stmtTypes]
    refine typecheckBranch_settles (fun h => .self (fun hok => ?_) rfl)
      (fun hc => (iht σ).mono fun _ _ => .thenStatement hc)
      (fun hc ht => (ihe σ).mono fun _ _ => .elseStatement hc ht)
    rw [okay_branch_iff, h] at hok
    cases hok
  | loop c b ih =>
    rw [typecheckStatement, stmtTypes]
    exact typecheckLoop_settles (fun h => .self (fun hok => h (okay_loop_iff.mp hok)) rfl)
      fun hc => (ih σ).mono fun _ _ => .body hc
  | sequence ss ih =>
    rw [typecheckStatement, stmtTypes]
    have hss : ∀ done s rest, ss = done ++ s :: rest →
        (∀ t ∈ done, (stmtTypes σ.context t).isSome) →
          Settles ((Statement.sequence ss).LeavesAt σ) σ (stmtTypes σ.context s)
            (typecheckStatement s σ) := by
      rintro done s rest rfl hdone
      exact (ih s (by simp) σ).mono fun _ _ => .element hdone
    simpa only [Finset.empty_union, Option.map_id'] using typecheckSequence_settles hss ∅
  | block ds s ih =>
    rw [typecheckStatement, stmtTypes, typecheckBlock_eq_inScope]
    refine inScope_settles (fun hnd done hdone => .repeated hnd hdone) fun hnd => ?_
    rw [← context_push_into hnd]
    exact (ih _).mono fun _ _ => .inside hnd
  | ret e =>
    rw [typecheckStatement, stmtTypes, Option.map_eq_bind]
    refine Outcome.Settles.bind ((checkExpression_settles e).mono fun h u hu => ?_) fun T _ =>
      Outcome.Settles.ret
    subst hu
    refine .self (fun hok => ?_) rfl
    rw [okay_ret_iff, h] at hok
    cases hok

theorem typecheckStatement_ok_iff {σ : Typechecker} {s : Statement} {types : Finset Ty} :
    (typecheckStatement s σ).result = .ok types ↔ stmtTypes σ.context s = some types := by
  rw [← (typecheckStatement_settles s σ).verdict, toOption_eq_some_iff]

/-- **A statement check returns exactly when the local typing constraints hold everywhere.** -/
theorem typecheckStatement_accepts_iff (σ : Typechecker) (s : Statement) :
    (∃ types, (typecheckStatement s σ).result = .ok types) ↔ s.ConstraintsHold σ.context := by
  rw [← stmtTypes_isSome_iff, Option.isSome_iff_exists]
  exact exists_congr fun types => typecheckStatement_ok_iff

end ProgramAnalysis.Typecheck
