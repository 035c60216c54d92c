import ProgramAnalysis.Typecheck.Names

/-!
# Renaming a declared variable

* `Statement.rename y z`: `z` for the free occurrences of `y`;
* `Statement.RenamesAt`, `Program.RenamesAt`: one declaration list of a program, and the occurrences
  that belong to it, renamed;
* `Context.Renames`: what `y` meant is what `z` means, and nothing else changed;
* **`stmtTypes_rename`**, **`Statement.RenamesAt.stmtTypes_eq`**: the types stay the same;
* **`rename_invariant`**: so does the outcome of a program.
-/

namespace ProgramAnalysis.Typecheck

open Lib

/-! ## The renaming -/

/-- `z` for `y`. -/
def renameName (y z x : String) : String := if x = y then z else x

mutual

/-- `z` for `y` in an expression. -/
def Expression.rename (y z : String) : Expression → Expression
  | .empty => .empty
  | .num n => .num n
  | .var x => .var (renameName y z x)
  | .binary c l r => .binary c (l.rename y z) (r.rename y z)
  | .functionCall f args => .functionCall f (renameArguments y z args)

def renameArguments (y z : String) : List Expression → List Expression
  | [] => []
  | a :: args => a.rename y z :: renameArguments y z args

end

/-- `z` for `y` in the declared names. -/
def Declarations.rename (y z : String) (ds : Declarations) : Declarations :=
  ds.map fun d => { d with getVariable := renameName y z d.getVariable }

mutual

/-- `z` for the occurrences of `y` that no block of the statement declares. -/
def Statement.rename (y z : String) : Statement → Statement
  | .skip => .skip
  | .assignment x e => .assignment (renameName y z x) (e.rename y z)
  | .branch c t e => .branch (c.rename y z) (t.rename y z) (e.rename y z)
  | .loop c b => .loop (c.rename y z) (b.rename y z)
  | .sequence ss => .sequence (renameSequence y z ss)
  | .block ds s => .block ds (if y ∈ Declarations.names ds then s else s.rename y z)
  | .ret e => .ret (e.rename y z)

def renameSequence (y z : String) : List Statement → List Statement
  | [] => []
  | s :: ss => s.rename y z :: renameSequence y z ss

end

/-- `z` for `y` in a function body. -/
def BlockStatement.rename (y z : String) (b : BlockStatement) : BlockStatement :=
  ⟨b.declarations,
    if y ∈ Declarations.names b.declarations then b.statement else b.statement.rename y z⟩

/-- `z` for a global `y` in a definition; a parameter `y` hides the global one. -/
def FunctionDefinition.rename (y z : String) (f : FunctionDefinition) : FunctionDefinition :=
  if y ∈ Declarations.names f.parameters then f else { f with body := f.body.rename y z }

/-- `z` for a parameter `y` of a definition. -/
def FunctionDefinition.renameParameter (y z : String) (f : FunctionDefinition) :
    FunctionDefinition :=
  { f with parameters := Declarations.rename y z f.parameters, body := f.body.rename y z }

/-- One block that declares `y`, at any depth, now declares `z` in its place. -/
inductive Statement.RenamesAt (y z : String) : Statement → Statement → Prop
  | here (ds s) (h : y ∈ Declarations.names ds) :
    RenamesAt y z (.block ds s) (.block (Declarations.rename y z ds) (s.rename y z))
  | thenStatement (c e) {t t'} (h : RenamesAt y z t t') :
    RenamesAt y z (.branch c t e) (.branch c t' e)
  | elseStatement (c t) {e e'} (h : RenamesAt y z e e') :
    RenamesAt y z (.branch c t e) (.branch c t e')
  | body (c) {b b'} (h : RenamesAt y z b b') : RenamesAt y z (.loop c b) (.loop c b')
  | element (ss rest) {s s'} (h : RenamesAt y z s s') :
    RenamesAt y z (.sequence (ss ++ s :: rest)) (.sequence (ss ++ s' :: rest))
  | inside (ds) {s s'} (h : RenamesAt y z s s') : RenamesAt y z (.block ds s) (.block ds s')

/-- One declaration list of a program that declares `y` now declares `z` in its place. -/
inductive Program.RenamesAt (y z : String) : Program → Program → Prop
  | globals (n ds fs s) (h : y ∈ Declarations.names ds) :
    RenamesAt y z ⟨n, ds, fs, s⟩
      ⟨n, Declarations.rename y z ds, fs.map (FunctionDefinition.rename y z), s.rename y z⟩
  | parameters (n ds fs f rest s) (h : y ∈ Declarations.names f.parameters) :
    RenamesAt y z ⟨n, ds, fs ++ f :: rest, s⟩ ⟨n, ds, fs ++ f.renameParameter y z :: rest, s⟩
  | body (n ds fs f rest s b) (h : f.body.toStatement.RenamesAt y z b.toStatement) :
    RenamesAt y z ⟨n, ds, fs ++ f :: rest, s⟩ ⟨n, ds, fs ++ { f with body := b } :: rest, s⟩
  | statement (n ds fs) {s s'} (h : s.RenamesAt y z s') :
    RenamesAt y z ⟨n, ds, fs, s⟩ ⟨n, ds, fs, s'⟩

/-! ## The variables of a program -/

mutual

/-- The variables of a statement, declared ones included. -/
def Statement.vars : Statement → List String
  | .skip => []
  | .assignment x e => x :: e.vars
  | .branch c t e => c.vars ++ t.vars ++ e.vars
  | .loop c b => c.vars ++ b.vars
  | .sequence ss => sequenceVars ss
  | .block ds s => Declarations.names ds ++ s.vars
  | .ret e => e.vars

def sequenceVars : List Statement → List String
  | [] => []
  | s :: ss => s.vars ++ sequenceVars ss

end

/-- The variables of a definition. -/
def FunctionDefinition.vars (f : FunctionDefinition) : List String :=
  Declarations.names f.parameters ++ f.body.toStatement.vars

/-- The variables of a program. -/
def Program.vars (P : Program) : List String :=
  Declarations.names P.declarations ++ P.functionDefs.flatMap FunctionDefinition.vars ++
    P.statement.vars

theorem mem_sequenceVars {ss : List Statement} {x : String} :
    x ∈ sequenceVars ss ↔ ∃ s ∈ ss, x ∈ s.vars := by
  induction ss with
  | nil => simp [sequenceVars]
  | cons s ss ih => simp [sequenceVars, ih]

theorem freeVars_subset_vars (s : Statement) : s.freeVars ⊆ s.vars := by
  induction s using Statement.ind with
  | skip => exact List.Subset.refl _
  | assignment x e => exact List.Subset.refl _
  | branch c t e iht ihe =>
    intro x hx
    rw [Statement.freeVars, List.mem_append, List.mem_append] at hx
    rw [Statement.vars, List.mem_append, List.mem_append]
    rcases hx with (hx | hx) | hx
    · exact .inl (.inl hx)
    · exact .inl (.inr (iht hx))
    · exact .inr (ihe hx)
  | loop c b ih =>
    intro x hx
    rw [Statement.freeVars, List.mem_append] at hx
    rw [Statement.vars, List.mem_append]
    rcases hx with hx | hx
    · exact .inl hx
    · exact .inr (ih hx)
  | sequence ss ih =>
    rw [Statement.freeVars, Statement.vars]
    intro x hx
    obtain ⟨s, hs, hx⟩ := mem_sequenceFreeVars.mp hx
    exact mem_sequenceVars.mpr ⟨s, hs, ih s hs hx⟩
  | block ds s ih =>
    rw [Statement.freeVars, Statement.vars]
    intro x hx
    exact List.mem_append_right _ (ih (List.mem_of_mem_filter hx))
  | ret e => exact List.Subset.refl _

/-! ## Declaration lists -/

namespace Declarations

variable {y z : String} {ds : Declarations}

theorem names_rename (y z : String) (ds : Declarations) :
    names (rename y z ds) = (names ds).map (renameName y z) := by
  simp [names, rename]

theorem nodup_rename (hz : z ∉ names ds) : (names (rename y z ds)).Nodup ↔ (names ds).Nodup := by
  rw [names_rename]
  refine ⟨List.Nodup.of_map _, fun h => h.map_on fun x hx x' hx' he => ?_⟩
  have hxz : x ≠ z := fun h => hz (h ▸ hx)
  have hxz' : x' ≠ z := fun h => hz (h ▸ hx')
  simp only [renameName] at he
  grind

/-- The new name has the type of the old one. -/
theorem typeOf_rename_self (hz : z ∉ names ds) : typeOf (rename y z ds) z = typeOf ds y := by
  induction ds with
  | nil => rfl
  | cons d ds ih =>
    rw [names_cons, List.mem_cons, not_or] at hz
    have htail := ih hz.2
    rw [rename, List.map_cons, typeOf_cons, typeOf_cons]
    by_cases hd : d.getVariable = y
    · simp [renameName, hd]
    · have hdz : d.getVariable ≠ z := Ne.symm hz.1
      simp only [renameName, hd, hdz, if_false]
      exact htail

/-- Every other name keeps its type. -/
theorem typeOf_rename_of_ne {x : String} (hy : x ≠ y) (hz : x ≠ z) :
    typeOf (rename y z ds) x = typeOf ds x := by
  induction ds with
  | nil => rfl
  | cons d ds ih =>
    rw [rename, List.map_cons, typeOf_cons, typeOf_cons]
    by_cases hd : d.getVariable = y
    · have hyx : y ≠ x := hy.symm
      have hzx : z ≠ x := hz.symm
      simp only [renameName, hd, hyx, hzx, if_true, if_false]
      exact ih
    · simp only [renameName, hd, if_false]
      by_cases hx : d.getVariable = x
      · simp [hx]
      · simp only [hx, if_false]
        exact ih

end Declarations

/-! ## Contexts -/

/-- What `y` means in `Γ`, `z` means in `Δ`; the other names mean the same. -/
structure Context.Renames (y z : String) (Γ Δ : Context) : Prop where
  renamed : Δ.var z = Γ.var y
  kept : ∀ x, x ≠ y → x ≠ z → Δ.var x = Γ.var x
  fn : Δ.fn = Γ.fn

namespace Context.Renames

variable {y z : String} {Γ Δ : Context} {ds : Declarations}

theorem var_renameName (h : Γ.Renames y z Δ) {x : String} (hx : x ≠ z) :
    Δ.var (renameName y z x) = Γ.var x := by
  unfold renameName
  by_cases hy : x = y
  · rw [if_pos hy, hy, h.renamed]
  · rw [if_neg hy, h.kept x hy hx]

/-- Under a block that declares neither name. -/
theorem declare (h : Γ.Renames y z Δ) (hy : y ∉ Declarations.names ds)
    (hz : z ∉ Declarations.names ds) : (Γ.declare ds).Renames y z (Δ.declare ds) := by
  refine ⟨?_, fun x hxy hxz => ?_, h.fn⟩
  · rw [declare_var, declare_var, Declarations.typeOf_eq_none_iff.mpr hy,
      Declarations.typeOf_eq_none_iff.mpr hz, Option.none_or, Option.none_or, h.renamed]
  · rw [declare_var, declare_var, h.kept x hxy hxz]

/-- Under a block that declares `y`, nothing has changed. -/
theorem agreeOn (h : Γ.Renames y z Δ) (hy : y ∈ Declarations.names ds) {vs fs : List String}
    (hz : z ∉ vs) : (Δ.declare ds).AgreeOn (Γ.declare ds) vs fs := by
  refine Context.AgreeOn.declare ⟨fun x hx => ?_, fun f _ => congrFun h.fn f⟩
  have hmem := List.mem_filter.mp hx
  have hxds : x ∉ Declarations.names ds := by simpa using hmem.2
  exact h.kept x (fun hxy => hxds (hxy ▸ hy)) (fun hxz => hz (hxz ▸ hmem.1))

/-- Where the renaming starts. -/
theorem of_declare (Γ : Context) (hy : y ∈ Declarations.names ds)
    (hz : z ∉ Declarations.names ds) :
    (Γ.declare ds).Renames y z (Γ.declare (Declarations.rename y z ds)) := by
  have hy' : Declarations.typeOf ds y ≠ none := fun h => Declarations.typeOf_eq_none_iff.mp h hy
  obtain ⟨T, hT⟩ := Option.ne_none_iff_exists'.mp hy'
  refine ⟨?_, fun x hxy hxz => ?_, rfl⟩
  · rw [declare_var, declare_var, Declarations.typeOf_rename_self hz, hT, Option.some_or,
      Option.some_or]
  · rw [declare_var, declare_var, Declarations.typeOf_rename_of_ne hxy hxz]

end Context.Renames

/-- The relation of renamed contexts goes along a list of definitions. -/
theorem carries_renames (y z : String) : Context.Carries (Context.Renames y z) :=
  ⟨fun _ _ h => h.fn, fun _ _ _ _ hn hs h => ⟨h.renamed, h.kept, define_fn_eq hn hs h.fn⟩⟩

/-! ## Types -/

section Types

variable {y z : String} {Γ Δ : Context}

theorem renameArguments_eq_map (y z : String) (args : List Expression) :
    renameArguments y z args = args.map (Expression.rename y z) := by
  induction args with
  | nil => rfl
  | cons a args ih => rw [renameArguments, ih, List.map_cons]

theorem exprType_rename {e : Expression} (h : Γ.Renames y z Δ) (hz : z ∉ e.vars) :
    exprType Δ (e.rename y z) = exprType Γ e := by
  induction e using Expression.ind with
  | empty => rfl
  | num n => rfl
  | var x =>
    have hx : x ≠ z := by
      intro he
      simp [Expression.vars, he] at hz
    exact h.var_renameName hx
  | binary c l r ihl ihr =>
    rw [Expression.vars, List.mem_append, not_or] at hz
    rw [Expression.rename, exprType, exprType, ihl hz.1, ihr hz.2]
  | functionCall f args ih =>
    rw [Expression.vars] at hz
    have hargs : (args.map (Expression.rename y z)).map (exprType Δ) = args.map (exprType Γ) := by
      rw [List.map_map]
      exact List.map_congr_left fun a ha => ih a ha fun hza => hz (mem_argumentVars.mpr ⟨a, ha, hza⟩)
    rw [Expression.rename, exprType, exprType, renameArguments_eq_map, argTypes_eq_map,
      argTypes_eq_map, hargs, h.fn]

theorem branchCondition_rename {c : Expression} (h : Γ.Renames y z Δ) (hz : z ∉ c.vars) :
    branchCondition Δ (c.rename y z) = branchCondition Γ c := by
  cases c with
  | binary cls l r =>
    rw [Expression.vars, List.mem_append, not_or] at hz
    rw [Expression.rename, branchCondition, branchCondition, exprType_rename h hz.1,
      exprType_rename h hz.2]
  | _ => rfl

theorem seqTypes_rename {ss : List Statement}
    (h : ∀ s ∈ ss, stmtTypes Δ (s.rename y z) = stmtTypes Γ s) :
    seqTypes Δ (renameSequence y z ss) = seqTypes Γ ss := by
  induction ss with
  | nil => rfl
  | cons s ss ih =>
    rw [renameSequence, seqTypes, seqTypes, h s List.mem_cons_self,
      ih fun s hs => h s (List.mem_cons_of_mem _ hs)]

/-- **A renamed statement has the same types** where `z` means what `y` meant. -/
theorem stmtTypes_rename {s : Statement} (h : Γ.Renames y z Δ) (hz : z ∉ s.vars) :
    stmtTypes Δ (s.rename y z) = stmtTypes Γ s := by
  induction s using Statement.ind generalizing Γ Δ with
  | skip => rfl
  | assignment x e =>
    rw [Statement.vars, List.mem_cons, not_or] at hz
    rw [Statement.rename, stmtTypes, stmtTypes, h.var_renameName (Ne.symm hz.1),
      exprType_rename h hz.2]
  | branch c t e iht ihe =>
    rw [Statement.vars, List.mem_append, List.mem_append, not_or, not_or] at hz
    rw [Statement.rename, stmtTypes, stmtTypes, branchCondition_rename h hz.1.1, iht h hz.1.2,
      ihe h hz.2]
  | loop c b ih =>
    rw [Statement.vars, List.mem_append, not_or] at hz
    rw [Statement.rename, stmtTypes, stmtTypes, exprType_rename h hz.1, ih h hz.2]
  | sequence ss ih =>
    rw [Statement.vars] at hz
    rw [Statement.rename, stmtTypes, stmtTypes]
    exact seqTypes_rename fun s hs => ih s hs h fun hzs => hz (mem_sequenceVars.mpr ⟨s, hs, hzs⟩)
  | block ds s ih =>
    rw [Statement.vars, List.mem_append, not_or] at hz
    have hbody : stmtTypes (Δ.declare ds)
        (if y ∈ Declarations.names ds then s else s.rename y z) = stmtTypes (Γ.declare ds) s := by
      by_cases hy : y ∈ Declarations.names ds
      · -- the block hides the renamed variable
        rw [if_pos hy]
        exact stmtTypes_congr (h.agreeOn hy fun hzs => hz.2 (freeVars_subset_vars s hzs))
      · rw [if_neg hy]
        exact ih (h.declare hy hz.1) hz.2
    rw [Statement.rename, stmtTypes, stmtTypes, hbody]
  | ret e => rw [Statement.rename, stmtTypes, stmtTypes, exprType_rename h hz]

theorem block_renamed_types (Γ : Context) {ds : Declarations} {s : Statement}
    (hy : y ∈ Declarations.names ds) (hz : z ∉ (Statement.block ds s).vars) :
    stmtTypes Γ (.block (Declarations.rename y z ds) (s.rename y z)) =
      stmtTypes Γ (.block ds s) := by
  rw [Statement.vars, List.mem_append, not_or] at hz
  rw [stmtTypes, stmtTypes, stmtTypes_rename (.of_declare Γ hy hz.1) hz.2]
  simp only [Declarations.nodup_rename hz.1]

theorem seqTypes_replace {ss rest : List Statement} {s s' : Statement}
    (h : stmtTypes Γ s' = stmtTypes Γ s) :
    seqTypes Γ (ss ++ s' :: rest) = seqTypes Γ (ss ++ s :: rest) := by
  induction ss with
  | nil => simp only [List.nil_append, seqTypes, h]
  | cons t ss ih => simp only [List.cons_append, seqTypes, ih]

/-- **Renaming in one block keeps the types of every statement around it.** -/
theorem Statement.RenamesAt.stmtTypes_eq {s s' : Statement} (hr : s.RenamesAt y z s')
    (hz : z ∉ s.vars) : stmtTypes Γ s' = stmtTypes Γ s := by
  induction hr generalizing Γ with
  | here ds s hy => exact block_renamed_types Γ hy hz
  | thenStatement c e _ ih =>
    rw [Statement.vars, List.mem_append, List.mem_append, not_or, not_or] at hz
    rw [stmtTypes, stmtTypes, ih hz.1.2]
  | elseStatement c t _ ih =>
    rw [Statement.vars, List.mem_append, not_or] at hz
    rw [stmtTypes, stmtTypes, ih hz.2]
  | body c _ ih =>
    rw [Statement.vars, List.mem_append, not_or] at hz
    rw [stmtTypes, stmtTypes, ih hz.2]
  | @element ss rest s s' _ ih =>
    rw [Statement.vars] at hz
    have hzs : z ∉ s.vars := fun h => hz (mem_sequenceVars.mpr ⟨s, by simp, h⟩)
    rw [stmtTypes, stmtTypes, seqTypes_replace (ih hzs)]
  | inside ds _ ih =>
    rw [Statement.vars, List.mem_append, not_or] at hz
    rw [stmtTypes, stmtTypes, ih hz.2]

end Types

/-! ## Definitions -/

section Definitions

variable {y z : String} {Γ Δ : Context} {f : FunctionDefinition}

theorem toStatement_rename (y z : String) (b : BlockStatement) :
    (b.rename y z).toStatement = b.toStatement.rename y z := rfl

/-- A definition below a renamed global variable. -/
theorem rename_alike (hz : z ∉ f.vars) : f.Alike (Context.Renames y z) (f.rename y z) := by
  rw [FunctionDefinition.vars, List.mem_append, not_or] at hz
  unfold FunctionDefinition.rename
  by_cases hy : y ∈ Declarations.names f.parameters
  · rw [if_pos hy]
    refine ⟨rfl, rfl, fun Γ Δ h => ?_⟩
    have hdef := (carries_renames y z).define Γ Δ f f rfl rfl h
    unfold FunctionDefinition.bodyTypes
    rw [stmtTypes_congr (hdef.agreeOn hy fun hzf => hz.2 (freeVars_subset_vars _ hzf))]
  · rw [if_neg hy]
    refine ⟨rfl, rfl, fun Γ Δ h => ?_⟩
    have hdef := (carries_renames y z).define Γ Δ f { f with body := f.body.rename y z } rfl rfl h
    unfold FunctionDefinition.bodyTypes
    rw [toStatement_rename, stmtTypes_rename (hdef.declare hy hz.1) hz.2]

/-- A definition with a renamed parameter. -/
theorem renameParameter_alike (hy : y ∈ Declarations.names f.parameters) (hz : z ∉ f.vars) :
    f.Alike (· = ·) (f.renameParameter y z) := by
  rw [FunctionDefinition.vars, List.mem_append, not_or] at hz
  have hsig : (f.renameParameter y z).signature = f.signature := by
    simp [FunctionDefinition.signature, FunctionDefinition.renameParameter, Declarations.rename]
  refine ⟨rfl, hsig, ?_⟩
  rintro Γ _ rfl
  have hdef : Γ.define (f.renameParameter y z) = Γ.define f :=
    Context.ext rfl (define_fn_eq rfl hsig rfl)
  unfold FunctionDefinition.bodyTypes
  rw [hdef]
  change (if (Declarations.names (Declarations.rename y z f.parameters)).Nodup then
    stmtTypes ((Γ.define f).declare (Declarations.rename y z f.parameters))
      (f.body.toStatement.rename y z) else none) = _
  rw [stmtTypes_rename (.of_declare _ hy hz.1) hz.2]
  simp only [Declarations.nodup_rename hz.1]

/-- A definition with a renaming inside its body. -/
theorem body_alike {b : BlockStatement} (h : f.body.toStatement.RenamesAt y z b.toStatement)
    (hz : z ∉ f.vars) : f.Alike (· = ·) { f with body := b } := by
  rw [FunctionDefinition.vars, List.mem_append, not_or] at hz
  refine ⟨rfl, rfl, ?_⟩
  rintro Γ _ rfl
  unfold FunctionDefinition.bodyTypes
  rw [h.stmtTypes_eq hz.2]
  rfl

theorem alike_refl (f : FunctionDefinition) : f.Alike (· = ·) f :=
  ⟨rfl, rfl, by rintro Γ _ rfl; rfl⟩

theorem carries_eq : Context.Carries (· = ·) := by
  refine ⟨fun Γ Δ h => h ▸ rfl, ?_⟩
  rintro Γ _ f f' hn hs rfl
  have h : Γ.define f' = Γ.define f := Context.ext rfl (define_fn_eq hn hs rfl)
  exact h.symm

/-- One definition of a list replaced. -/
theorem forall₂_replace (fs rest : List FunctionDefinition) {f' : FunctionDefinition}
    (h : f.Alike (· = ·) f') :
    List.Forall₂ (FunctionDefinition.Alike (· = ·)) (fs ++ f :: rest) (fs ++ f' :: rest) :=
  List.rel_append (List.forall₂_same.mpr fun g _ => alike_refl g)
    (.cons h (List.forall₂_same.mpr fun g _ => alike_refl g))

end Definitions

/-! ## Programs -/

theorem mem_vars_of_mem {P : Program} {f : FunctionDefinition} (hf : f ∈ P.functionDefs)
    {x : String} (hx : x ∈ f.vars) : x ∈ P.vars := by
  have h : x ∈ P.functionDefs.flatMap FunctionDefinition.vars := List.mem_flatMap.mpr ⟨f, hf, hx⟩
  simp [Program.vars, h]

/-- A program with one definition replaced by one alike. -/
theorem replace_congr (n : String) (ds : Declarations) (fs rest : List FunctionDefinition)
    {f f' : FunctionDefinition} (s : Statement) (h : f.Alike (· = ·) f') :
    (Program.Accepted ⟨n, ds, fs ++ f' :: rest, s⟩ ↔ Program.Accepted ⟨n, ds, fs ++ f :: rest, s⟩) ∧
      (Program.environments ⟨n, ds, fs ++ f' :: rest, s⟩).functionEnv =
        (Program.environments ⟨n, ds, fs ++ f :: rest, s⟩).functionEnv :=
  program_congr carries_eq Iff.rfl (fun _ => rfl) (forall₂_replace fs rest h)
    (by rintro Γ _ rfl; rfl)

/-- **A renaming keeps the verdict and the functions of a program.** -/
theorem Program.RenamesAt.congr {y z : String} {P P' : Program} (hr : P.RenamesAt y z P')
    (hz : z ∉ P.vars) :
    (P'.Accepted ↔ P.Accepted) ∧ P'.environments.functionEnv = P.environments.functionEnv := by
  have hdefs : ∀ f ∈ P.functionDefs, z ∉ f.vars := fun f hf h => hz (mem_vars_of_mem hf h)
  have hglobals : z ∉ Declarations.names P.declarations := fun h => hz (by simp [Program.vars, h])
  have hstatement : z ∉ P.statement.vars := fun h => hz (by simp [Program.vars, h])
  cases hr with
  | globals n ds fs s hy =>
    refine program_congr (carries_renames y z) (Declarations.nodup_rename hglobals)
      (fun _ => .of_declare _ hy hglobals) ?_ fun Γ Δ h => stmtTypes_rename h hstatement
    exact List.forall₂_map_right_iff.mpr (List.forall₂_same.mpr fun f hf => rename_alike (hdefs f hf))
  | parameters n ds fs f rest s hy =>
    exact replace_congr n ds fs rest s (renameParameter_alike hy (hdefs f (by simp)))
  | body n ds fs f rest s b hb =>
    exact replace_congr n ds fs rest s (body_alike hb (hdefs f (by simp)))
  | statement n ds fs hs =>
    refine program_congr carries_eq Iff.rfl (fun _ => rfl)
      (List.forall₂_same.mpr fun f _ => alike_refl f) ?_
    rintro Γ _ rfl
    exact hs.stmtTypes_eq hstatement

/-- **Renaming a declared variable to a new name** does not change whether a program is accepted, nor
the functions it ends with. -/
theorem rename_invariant {y z : String} {P P' : Program} (hr : P.RenamesAt y z P')
    (hz : z ∉ P.vars) :
    ((typecheckProgram P' Typechecker.new).result = .ok () ↔
      (typecheckProgram P Typechecker.new).result = .ok ()) ∧
    ((typecheckProgram P Typechecker.new).result = .ok () →
      (typecheckProgram P' Typechecker.new).final.functionEnv =
        (typecheckProgram P Typechecker.new).final.functionEnv) := by
  obtain ⟨hacc, henv⟩ := hr.congr hz
  have hout := outcome_congr hacc
  refine ⟨hout.1, fun h => ?_⟩
  obtain ⟨hP', hP⟩ := hout.2 h
  rw [hP', hP, henv]

/-- A global `x`, used by a function and hidden by a block. -/
theorem rename_invariant_shadowed :
    let f (x : String) : FunctionDefinition := ⟨"f", .INT, [], ⟨[], .ret (.var x)⟩⟩
    let inner : Statement := .block [⟨"x", .BOOL⟩] (.assignment "x" (.var "x"))
    let P (x : String) : Program :=
      ⟨"p", [⟨x, .INT⟩], [f x], .sequence [.assignment x (.functionCall "f" []), inner]⟩
    (typecheckProgram (P "z") Typechecker.new).result = .ok () ∧
      (typecheckProgram (P "z") Typechecker.new).final.functionEnv =
        (typecheckProgram (P "x") Typechecker.new).final.functionEnv := by
  intro f inner P
  have hr : (P "x").RenamesAt "x" "z" (P "z") :=
    .globals "p" [⟨"x", .INT⟩] [f "x"] (P "x").statement (by decide)
  have h := rename_invariant hr (by decide)
  exact ⟨h.1.mpr rfl, h.2 rfl⟩

end ProgramAnalysis.Typecheck
