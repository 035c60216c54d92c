import ProgramAnalysis.Typecheck.Lexical

/-!
# Local typing constraints

A second account of typing, with no recursion over the checker: every node of a statement puts a
condition on its own children, in the context of the blocks around it.

* `Expression.Occurs`, `Statement.Occurs`: the nodes, the latter with the blocks around them;
* `Expression.type`: the type the head of an expression gives it;
* `Expression.LocalOk`, `Statement.LocalOk`, `Statement.Okay`: the condition at one node;
* `Statement.Everywhere`, `Statement.Somewhere`: a property at all nodes or at one of them;
* `Statement.ConstraintsHold`: the conditions at all nodes;
* `exprType_eq_some_iff`, **`stmtTypes_isSome_iff`**: a statement has a verdict exactly when the
  conditions hold at all its nodes.
-/

namespace ProgramAnalysis.Typecheck

/-! ## Expressions -/

/-- `e.Occurs e'`: the node `e'` occurs in `e`. -/
inductive Expression.Occurs : Expression → Expression → Prop
  | refl (e : Expression) : Occurs e e
  | left {c l r e'} : Occurs l e' → Occurs (.binary c l r) e'
  | right {c l r e'} : Occurs r e' → Occurs (.binary c l r) e'
  | argument {f args a e'} : a ∈ args → Occurs a e' → Occurs (.functionCall f args) e'

/-- The type the head of an expression gives it. -/
def Expression.type (Γ : Context) : Expression → Option Ty
  | .empty => some .VOID
  | .num _ => some .INT
  | .var x => Γ.var x
  | .binary _ _ _ => some .INT
  | .functionCall f _ => (Γ.fn f).map FunctionTypeSig.returnType

/-- The condition an expression node puts on its children. -/
def Expression.LocalOk (Γ : Context) : Expression → Prop
  | .empty => True
  | .num _ => True
  | .var x => (Γ.var x).isSome
  | .binary _ l r => l.type Γ = some .INT ∧ r.type Γ = some .INT
  | .functionCall f args => ∃ sig, Γ.fn f = some sig ∧
      List.Forall₂ (fun a T => a.type Γ = some T) args sig.parameterTypes

theorem Expression.LocalOk.type_isSome {Γ : Context} {e : Expression} (h : e.LocalOk Γ) :
    (e.type Γ).isSome := by
  cases e with
  | var x => exact h
  | functionCall f args =>
    obtain ⟨sig, hf, -⟩ := h
    rw [Expression.type, hf]
    rfl
  | _ => rfl

/-- The condition holds at every node of an expression. -/
def Expression.WellFormed (Γ : Context) (e : Expression) : Prop :=
  ∀ e', e.Occurs e' → e'.LocalOk Γ

theorem Expression.wellFormed_empty (Γ : Context) : Expression.WellFormed Γ .empty := by
  intro e' h
  cases h
  trivial

theorem Expression.wellFormed_num (Γ : Context) (n : Int32) : Expression.WellFormed Γ (.num n) := by
  intro e' h
  cases h
  trivial

theorem Expression.wellFormed_var {Γ : Context} {x : String} :
    Expression.WellFormed Γ (.var x) ↔ (Γ.var x).isSome := by
  constructor
  · exact fun h => h _ (.refl _)
  · intro h e' ho
    cases ho
    exact h

theorem Expression.wellFormed_binary {Γ : Context} {c : BinaryClass} {l r : Expression} :
    Expression.WellFormed Γ (.binary c l r) ↔
      (l.type Γ = some .INT ∧ r.type Γ = some .INT) ∧ l.WellFormed Γ ∧ r.WellFormed Γ := by
  constructor
  · exact fun h => ⟨h _ (.refl _), fun e' ho => h e' (.left ho), fun e' ho => h e' (.right ho)⟩
  · rintro ⟨h, hl, hr⟩ e' ho
    cases ho with
    | refl => exact h
    | left ho => exact hl e' ho
    | right ho => exact hr e' ho

theorem Expression.wellFormed_functionCall {Γ : Context} {f : String} {args : List Expression} :
    Expression.WellFormed Γ (.functionCall f args) ↔
      Expression.LocalOk Γ (.functionCall f args) ∧ ∀ a ∈ args, a.WellFormed Γ := by
  constructor
  · exact fun h => ⟨h _ (.refl _), fun a ha e' ho => h e' (.argument ha ho)⟩
  · rintro ⟨h, hargs⟩ e' ho
    cases ho with
    | refl => exact h
    | argument ha ho => exact hargs _ ha e' ho

theorem map_eq_map_some_iff {α β : Type} {f : α → Option β} {l : List α} {m : List β} :
    l.map f = m.map some ↔ List.Forall₂ (fun a b => f a = some b) l m := by
  rw [← List.forall₂_eq_eq_eq, List.forall₂_map_left_iff, List.forall₂_map_right_iff]

theorem forall₂_congr_mem {α β : Type} {p q : α → β → Prop} {l : List α} {m : List β}
    (h : ∀ a ∈ l, ∀ b, p a b ↔ q a b) : List.Forall₂ p l m ↔ List.Forall₂ q l m := by
  induction l generalizing m with
  | nil => simp
  | cons a l ih =>
    cases m with
    | nil => simp
    | cons b m =>
      rw [List.forall₂_cons, List.forall₂_cons, h a List.mem_cons_self,
        ih fun a ha => h a (List.mem_cons_of_mem _ ha)]

/-- **An expression has a type exactly when the conditions hold at all its nodes.** -/
theorem exprType_eq_some_iff {Γ : Context} {e : Expression} {T : Ty} :
    exprType Γ e = some T ↔ e.WellFormed Γ ∧ e.type Γ = some T := by
  induction e using Expression.ind generalizing T with
  | empty => simp [exprType, Expression.type, Expression.wellFormed_empty]
  | num n => simp [exprType, Expression.type, Expression.wellFormed_num]
  | var x =>
    rw [Expression.wellFormed_var, exprType, Expression.type]
    exact ⟨fun h => ⟨by rw [h]; rfl, h⟩, fun h => h.2⟩
  | binary c l r ihl ihr =>
    rw [Expression.wellFormed_binary, exprType, Expression.type, Option.ite_none_right_eq_some]
    constructor
    · rintro ⟨⟨hl, hr⟩, h⟩
      rw [ihl] at hl
      rw [ihr] at hr
      exact ⟨⟨⟨hl.2, hr.2⟩, hl.1, hr.1⟩, h⟩
    · rintro ⟨⟨⟨hl, hr⟩, hwl, hwr⟩, h⟩
      exact ⟨⟨ihl.mpr ⟨hwl, hl⟩, ihr.mpr ⟨hwr, hr⟩⟩, h⟩
  | functionCall f args ih =>
    have hargs : ∀ ps : List Ty, args.map (exprType Γ) = ps.map some ↔
        (∀ a ∈ args, a.WellFormed Γ) ∧ List.Forall₂ (fun a T => a.type Γ = some T) args ps := by
      intro ps
      rw [map_eq_map_some_iff, ← List.forall₂_and_left]
      exact forall₂_congr_mem fun a ha T => ih a ha
    rw [Expression.wellFormed_functionCall, exprType, Expression.type, argTypes_eq_map,
      Expression.LocalOk]
    cases Γ.fn f with
    | none => simp
    | some sig =>
      rw [Option.bind_some, Option.map_some, Option.ite_none_right_eq_some, hargs]
      simp only [Option.some.injEq, exists_eq_left']
      tauto

/-! ## Statements -/

/-- `s.Occurs B t`: the statement `t` occurs in `s`, inside the blocks whose declarations are `B`,
innermost first. -/
inductive Statement.Occurs : Statement → List Declarations → Statement → Prop
  | refl (s : Statement) : Occurs s [] s
  | thenStatement {c t e B u} : Occurs t B u → Occurs (.branch c t e) B u
  | elseStatement {c t e B u} : Occurs e B u → Occurs (.branch c t e) B u
  | body {c b B u} : Occurs b B u → Occurs (.loop c b) B u
  | element {ss s B u} : s ∈ ss → Occurs s B u → Occurs (.sequence ss) B u
  | inside {ds s B u} : Occurs s B u → Occurs (.block ds s) (B ++ [ds]) u

/-- The expressions standing directly in a statement. The condition of a branch is not one of them;
its two operands are. -/
def Statement.expressions : Statement → List Expression
  | .assignment _ e => [e]
  | .branch (.binary _ l r) _ _ => [l, r]
  | .loop c _ => [c]
  | .ret e => [e]
  | _ => []

/-- The condition a statement node puts on its own parts. -/
def Statement.LocalOk (Γ : Context) : Statement → Prop
  | .assignment x e => ∃ T, Γ.var x = some T ∧ e.type Γ = some T
  | .branch c _ _ => ∃ cls l r T, c = .binary cls l r ∧ l.type Γ = some T ∧ r.type Γ = some T
  | .loop c _ => c.type Γ = some .BOOL
  | .block ds _ => (Declarations.names ds).Nodup
  | _ => True

/-- The conditions at a statement node and at all nodes of its own expressions. -/
def Statement.Okay (Γ : Context) (s : Statement) : Prop :=
  s.LocalOk Γ ∧ ∀ e ∈ s.expressions, e.WellFormed Γ

/-- `P` holds at every statement of `s`, in the context of the blocks around it. -/
def Statement.Everywhere (P : Context → Statement → Prop) (Γ : Context) (s : Statement) : Prop :=
  ∀ B t, s.Occurs B t → P (Γ.within B) t

/-- `P` holds at some statement of `s`, in the context of the blocks around it. -/
def Statement.Somewhere (P : Context → Statement → Prop) (Γ : Context) (s : Statement) : Prop :=
  ∃ B t, s.Occurs B t ∧ P (Γ.within B) t

/-- **The local typing constraints hold everywhere in `s`.** -/
def Statement.ConstraintsHold (Γ : Context) (s : Statement) : Prop :=
  s.Everywhere Statement.Okay Γ

section Everywhere

variable {P : Context → Statement → Prop} {Γ : Context}

/-- In a statement without statements below it, there is only itself. -/
theorem everywhere_leaf {s : Statement} (hs : ∀ B t, s.Occurs B t → B = [] ∧ t = s) :
    s.Everywhere P Γ ↔ P Γ s := by
  constructor
  · exact fun h => h [] s (.refl s)
  · intro h B t ho
    obtain ⟨rfl, rfl⟩ := hs B t ho
    exact h

theorem everywhere_skip : Statement.Everywhere P Γ .skip ↔ P Γ .skip :=
  everywhere_leaf fun _ _ ho => by cases ho; exact ⟨rfl, rfl⟩

theorem everywhere_assignment {x : String} {e : Expression} :
    Statement.Everywhere P Γ (.assignment x e) ↔ P Γ (.assignment x e) :=
  everywhere_leaf fun _ _ ho => by cases ho; exact ⟨rfl, rfl⟩

theorem everywhere_ret {e : Expression} : Statement.Everywhere P Γ (.ret e) ↔ P Γ (.ret e) :=
  everywhere_leaf fun _ _ ho => by cases ho; exact ⟨rfl, rfl⟩

theorem everywhere_branch {c : Expression} {t e : Statement} :
    Statement.Everywhere P Γ (.branch c t e) ↔
      P Γ (.branch c t e) ∧ t.Everywhere P Γ ∧ e.Everywhere P Γ := by
  constructor
  · exact fun h => ⟨h _ _ (.refl _), fun B u ho => h B u (.thenStatement ho),
      fun B u ho => h B u (.elseStatement ho)⟩
  · rintro ⟨h, ht, he⟩ B u ho
    cases ho with
    | refl => exact h
    | thenStatement ho => exact ht B u ho
    | elseStatement ho => exact he B u ho

theorem everywhere_loop {c : Expression} {b : Statement} :
    Statement.Everywhere P Γ (.loop c b) ↔ P Γ (.loop c b) ∧ b.Everywhere P Γ := by
  constructor
  · exact fun h => ⟨h _ _ (.refl _), fun B u ho => h B u (.body ho)⟩
  · rintro ⟨h, hb⟩ B u ho
    cases ho with
    | refl => exact h
    | body ho => exact hb B u ho

theorem everywhere_sequence {ss : List Statement} :
    Statement.Everywhere P Γ (.sequence ss) ↔
      P Γ (.sequence ss) ∧ ∀ s ∈ ss, s.Everywhere P Γ := by
  constructor
  · exact fun h => ⟨h _ _ (.refl _), fun s hs B u ho => h B u (.element hs ho)⟩
  · rintro ⟨h, hss⟩ B u ho
    cases ho with
    | refl => exact h
    | element hs ho => exact hss _ hs B u ho

theorem everywhere_block {ds : Declarations} {s : Statement} :
    Statement.Everywhere P Γ (.block ds s) ↔
      P Γ (.block ds s) ∧ s.Everywhere P (Γ.declare ds) := by
  constructor
  · refine fun h => ⟨h _ _ (.refl _), fun B u ho => ?_⟩
    rw [← Context.within_concat]
    exact h _ _ (.inside ho)
  · rintro ⟨h, hs⟩ B u ho
    cases ho with
    | refl => exact h
    | inside ho =>
      rw [Context.within_concat]
      exact hs _ _ ho

theorem somewhere_iff_not_everywhere {s : Statement} :
    s.Somewhere P Γ ↔ ¬ s.Everywhere (fun Δ t => ¬ P Δ t) Γ := by
  simp [Statement.Somewhere, Statement.Everywhere]

theorem somewhere_skip : Statement.Somewhere P Γ .skip ↔ P Γ .skip := by
  rw [somewhere_iff_not_everywhere, everywhere_skip, not_not]

theorem somewhere_assignment {x : String} {e : Expression} :
    Statement.Somewhere P Γ (.assignment x e) ↔ P Γ (.assignment x e) := by
  rw [somewhere_iff_not_everywhere, everywhere_assignment, not_not]

theorem somewhere_ret {e : Expression} : Statement.Somewhere P Γ (.ret e) ↔ P Γ (.ret e) := by
  rw [somewhere_iff_not_everywhere, everywhere_ret, not_not]

theorem somewhere_branch {c : Expression} {t e : Statement} :
    Statement.Somewhere P Γ (.branch c t e) ↔
      P Γ (.branch c t e) ∨ t.Somewhere P Γ ∨ e.Somewhere P Γ := by
  simp only [somewhere_iff_not_everywhere, everywhere_branch]
  tauto

theorem somewhere_loop {c : Expression} {b : Statement} :
    Statement.Somewhere P Γ (.loop c b) ↔ P Γ (.loop c b) ∨ b.Somewhere P Γ := by
  simp only [somewhere_iff_not_everywhere, everywhere_loop]
  tauto

theorem somewhere_sequence {ss : List Statement} :
    Statement.Somewhere P Γ (.sequence ss) ↔
      P Γ (.sequence ss) ∨ ∃ s ∈ ss, s.Somewhere P Γ := by
  simp only [somewhere_iff_not_everywhere, everywhere_sequence, not_and_or, not_not, not_forall,
    exists_prop]

theorem somewhere_block {ds : Declarations} {s : Statement} :
    Statement.Somewhere P Γ (.block ds s) ↔
      P Γ (.block ds s) ∨ s.Somewhere P (Γ.declare ds) := by
  simp only [somewhere_iff_not_everywhere, everywhere_block]
  tauto

end Everywhere

/-! ## The verdict of a statement -/

theorem okay_assignment_iff {Γ : Context} {x : String} {e : Expression} :
    Statement.Okay Γ (.assignment x e) ↔ (Γ.var x).isSome ∧ Γ.var x = exprType Γ e := by
  simp only [Statement.Okay, Statement.LocalOk, Statement.expressions, List.mem_singleton,
    forall_eq, Option.isSome_iff_exists]
  constructor
  · rintro ⟨⟨T, hx, he⟩, hw⟩
    exact ⟨⟨T, hx⟩, by rw [hx, exprType_eq_some_iff.mpr ⟨hw, he⟩]⟩
  · rintro ⟨⟨T, hx⟩, he⟩
    have h := exprType_eq_some_iff.mp (he.symm.trans hx)
    exact ⟨⟨T, hx, h.2⟩, h.1⟩

theorem okay_branch_iff {Γ : Context} {c : Expression} {t e : Statement} :
    Statement.Okay Γ (.branch c t e) ↔ branchCondition Γ c = true := by
  rw [branchCondition_iff, Statement.Okay, Statement.LocalOk]
  constructor
  · rintro ⟨⟨cls, l, r, T, rfl, hl, hr⟩, hw⟩
    exact ⟨cls, l, r, T, rfl, exprType_eq_some_iff.mpr ⟨hw l (by simp [Statement.expressions]), hl⟩,
      exprType_eq_some_iff.mpr ⟨hw r (by simp [Statement.expressions]), hr⟩⟩
  · rintro ⟨cls, l, r, T, rfl, hl, hr⟩
    have hl := exprType_eq_some_iff.mp hl
    have hr := exprType_eq_some_iff.mp hr
    refine ⟨⟨cls, l, r, T, rfl, hl.2, hr.2⟩, fun a ha => ?_⟩
    simp only [Statement.expressions, List.mem_cons, List.not_mem_nil, or_false] at ha
    rcases ha with rfl | rfl
    · exact hl.1
    · exact hr.1

theorem okay_loop_iff {Γ : Context} {c : Expression} {b : Statement} :
    Statement.Okay Γ (.loop c b) ↔ exprType Γ c = some .BOOL := by
  rw [exprType_eq_some_iff]
  simp only [Statement.Okay, Statement.LocalOk, Statement.expressions, List.mem_singleton,
    forall_eq]
  exact And.comm

theorem okay_ret_iff {Γ : Context} {e : Expression} :
    Statement.Okay Γ (.ret e) ↔ (exprType Γ e).isSome := by
  simp only [Statement.Okay, Statement.LocalOk, Statement.expressions, List.mem_singleton,
    forall_eq, true_and, Option.isSome_iff_exists]
  constructor
  · intro h
    obtain ⟨T, hT⟩ := Option.isSome_iff_exists.mp (h e (.refl e)).type_isSome
    exact ⟨T, exprType_eq_some_iff.mpr ⟨h, hT⟩⟩
  · rintro ⟨T, hT⟩
    exact (exprType_eq_some_iff.mp hT).1

theorem okay_block_iff {Γ : Context} {ds : Declarations} {s : Statement} :
    Statement.Okay Γ (.block ds s) ↔ (Declarations.names ds).Nodup := by
  simp [Statement.Okay, Statement.LocalOk, Statement.expressions]

theorem okay_skip (Γ : Context) : Statement.Okay Γ .skip := by
  simp [Statement.Okay, Statement.LocalOk, Statement.expressions]

theorem okay_sequence (Γ : Context) (ss : List Statement) : Statement.Okay Γ (.sequence ss) := by
  simp [Statement.Okay, Statement.LocalOk, Statement.expressions]

theorem seqTypes_isSome_iff {Γ : Context} {ss : List Statement} :
    (seqTypes Γ ss).isSome ↔ ∀ s ∈ ss, (stmtTypes Γ s).isSome := by
  induction ss with
  | nil => simp [seqTypes]
  | cons s ss ih =>
    rw [seqTypes, List.forall_mem_cons, ← ih]
    cases stmtTypes Γ s <;> cases seqTypes Γ ss <;> simp

/-- **A statement has a verdict exactly when the constraints hold everywhere in it.** -/
theorem stmtTypes_isSome_iff {Γ : Context} {s : Statement} :
    (stmtTypes Γ s).isSome ↔ s.ConstraintsHold Γ := by
  unfold Statement.ConstraintsHold
  induction s using Statement.ind generalizing Γ with
  | skip => simp [everywhere_skip, stmtTypes, okay_skip]
  | assignment x e =>
    rw [everywhere_assignment, okay_assignment_iff, stmtTypes]
    split_ifs with h
    · exact iff_of_true rfl h
    · exact iff_of_false (by simp) h
  | branch c t e iht ihe =>
    rw [everywhere_branch, okay_branch_iff, ← iht, ← ihe, stmtTypes]
    split_ifs with h
    · cases stmtTypes Γ t <;> cases stmtTypes Γ e <;> simp [h]
    · simp [h]
  | loop c b ih =>
    rw [everywhere_loop, okay_loop_iff, ← ih, stmtTypes]
    split_ifs with h <;> simp [h]
  | sequence ss ih =>
    rw [everywhere_sequence, stmtTypes, seqTypes_isSome_iff]
    simp only [okay_sequence, true_and]
    exact forall₂_congr fun s hs => ih s hs
  | block ds s ih =>
    rw [everywhere_block, okay_block_iff, ← ih, stmtTypes]
    split_ifs with h <;> simp [h]
  | ret e => rw [everywhere_ret, okay_ret_iff, stmtTypes, Option.isSome_map]

end ProgramAnalysis.Typecheck
