import ProgramAnalysis.Mycalc.Global

/-!
# Reads after definite assignment

* `Expression.vars`, `Statement.safeFrom`: the names an expression reads; the names assigned after a
  statement that only reads assigned ones;
* `Expression.value_not_thrown`, `exec_safe`: a safe statement looks up no missing name;
* **`safe_run_never_throws`**: the same of a whole program.
-/

namespace ProgramAnalysis.Mycalc

open Lib

mutual

/-- The names that are assigned after the statement, where it is safe from the names `V`. -/
def Statement.safeFrom (V : Finset String) : Statement → Option (Finset String)
  | .assignment vname expression => if expression.vars ⊆ V then some (insert vname V) else none
  | .sequence statements => safeInTurn V statements
  | .ifStatement condition thenBranch elseBranch =>
    if condition.vars ⊆ V then do
      let thenNames ← thenBranch.safeFrom V
      let elseNames ← elseBranch.safeFrom V
      return thenNames ∩ elseNames
    else none
  | .whileStatement condition body =>
    if condition.vars ⊆ V then do
      let _ ← safeInTurn V body
      return V
    else none

def safeInTurn (V : Finset String) : List Statement → Option (Finset String)
  | [] => some V
  | s :: ss => do
    let names ← s.safeFrom V
    safeInTurn names ss

end

/-- Every name of `V` has a value. -/
def Defines (V : Finset String) (T : SymbolTable) : Prop := ∀ x ∈ V, x ∈ T

/-- Not the error of a lookup. -/
def Stop.NotThrown (e : Stop) : Prop := ∀ message, e ≠ .thrown message

section Safe

variable {leftFirst : BinaryClass → Bool} {n : ℕ} {T : SymbolTable} {V W : Finset String}

theorem Expression.value_not_thrown {c : Expression} (hvars : c.vars ⊆ V) (hT : Defines V T)
    {e : Stop} (h : c.value leftFirst T = .error e) : e.NotThrown := by
  rcases Expression.value_error h with rfl | ⟨x, hx, hout, -⟩
  · exact fun _ => Stop.noConfusion
  · exact absurd (hT x (hvars hx)) hout

theorem safeInTurn_cons {s : Statement} {ss : List Statement} : safeInTurn V (s :: ss) = some W ↔
    ∃ U, s.safeFrom V = some U ∧ safeInTurn U ss = some W := by
  rw [safeInTurn]
  exact Option.bind_eq_some_iff

theorem safeFrom_if {c : Expression} {t e : Statement}
    (h : (Statement.ifStatement c t e).safeFrom V = some W) : c.vars ⊆ V ∧
      ∃ A B, t.safeFrom V = some A ∧ e.safeFrom V = some B ∧ W = A ∩ B := by
  rw [Statement.safeFrom] at h
  split_ifs at h with hvars
  obtain ⟨A, hA, h⟩ := Option.bind_eq_some_iff.mp h
  obtain ⟨B, hB, h⟩ := Option.bind_eq_some_iff.mp h
  exact ⟨hvars, A, B, hA, hB, (Option.some.inj h).symm⟩

theorem safeFrom_while {c : Expression} {body : List Statement}
    (h : (Statement.whileStatement c body).safeFrom V = some W) :
    c.vars ⊆ V ∧ W = V ∧ ∃ U, safeInTurn V body = some U := by
  rw [Statement.safeFrom] at h
  split_ifs at h with hvars
  obtain ⟨U, hU, h⟩ := Option.bind_eq_some_iff.mp h
  exact ⟨hvars, (Option.some.inj h).symm, U, hU⟩

/-- Names that are assigned stay assigned. -/
theorem safeInTurn_subset {ss : List Statement}
    (hss : ∀ s ∈ ss, ∀ V W, s.safeFrom V = some W → V ⊆ W) (h : safeInTurn V ss = some W) :
    V ⊆ W := by
  induction ss generalizing V with
  | nil => exact Option.some.inj h ▸ Finset.Subset.refl V
  | cons s ss ih =>
    obtain ⟨hs, hss⟩ := List.forall_mem_cons.mp hss
    obtain ⟨U, hU, hW⟩ := safeInTurn_cons.mp h
    exact (hs V U hU).trans (ih hss hW)

theorem safeFrom_subset (s : Statement) (V W : Finset String) (h : s.safeFrom V = some W) :
    V ⊆ W := by
  induction s using Statement.ind generalizing V W with
  | assignment x e =>
    rw [Statement.safeFrom] at h
    split_ifs at h
    exact Option.some.inj h ▸ Finset.subset_insert x V
  | sequence ss ih => exact safeInTurn_subset ih h
  | ifStatement c t e iht ihe =>
    obtain ⟨-, A, B, hA, hB, rfl⟩ := safeFrom_if h
    exact Finset.subset_inter (iht V A hA) (ihe V B hB)
  | whileStatement c body ih =>
    obtain ⟨-, rfl, -⟩ := safeFrom_while h
    exact Finset.Subset.refl _

/-! ## Safe runs -/

/-- Where `safe` gives the names `W` from `V`, the call looks up no missing name in a table that
defines `V`, and leaves one that defines `W`. -/
def RunsSafely (safe : Finset String → Option (Finset String)) (m : Call Stop SymbolTable Unit) :
    Prop :=
  ∀ V W T, safe V = some W → Defines V T →
    (m T).Ensures (fun _ U => Defines W U) fun e _ => e.NotThrown

/-- A condition that only reads names with values. -/
theorem test_safe {c : Expression} (hvars : c.vars ⊆ V) (hT : Defines V T) :
    (c.test leftFirst T).Ensures (fun _ U => U = T) fun e _ => e.NotThrown := by
  refine .bind (Q := fun _ U => U = T) ⟨fun _ _ => rfl, fun e he => ?_⟩ fun v U hU => .ret hU
  exact Expression.value_not_thrown hvars hT he

theorem inTurn_safe {ss : List Statement}
    (hss : ∀ s ∈ ss, RunsSafely (fun V => s.safeFrom V) (s.exec leftFirst n)) :
    RunsSafely (fun V => safeInTurn V ss) (Call.inTurn (execs leftFirst n ss)) := by
  induction ss with
  | nil => exact fun V W T h hT => .ret (Option.some.inj h ▸ hT)
  | cons s ss ih =>
    intro V W T h hT
    obtain ⟨hs, hss⟩ := List.forall_mem_cons.mp hss
    obtain ⟨U, hU, hW⟩ := safeInTurn_cons.mp h
    exact .bind (hs V U T hU hT) fun _ T' hT' => ih hss U W T' hW hT'

/-- **A safe statement looks up no missing name**, and leaves values for the names it promises. -/
theorem exec_safe (s : Statement) : RunsSafely (fun V => s.safeFrom V) (s.exec leftFirst n) := by
  induction s using Statement.ind with
  | assignment x e =>
    intro V W T h hT
    dsimp only [Statement.safeFrom] at h
    split_ifs at h with hvars
    refine .bind (Q := fun _ U => U = T) ⟨fun _ _ => rfl, fun e he => ?_⟩ fun v U hU => ?_
    · exact Expression.value_not_thrown hvars hT he
    · subst hU
      refine ⟨fun _ _ y hy => ?_, fun e he => by cases he⟩
      rw [← Option.some.inj h] at hy
      rcases Finset.mem_insert.mp hy with rfl | hy
      · exact Finmap.mem_insert.mpr (.inl rfl)
      · exact Finmap.mem_insert.mpr (.inr (hT y hy))
  | sequence ss ih => exact inTurn_safe ih
  | ifStatement c t e iht ihe =>
    intro V W T h hT
    obtain ⟨hvars, A, B, hA, hB, rfl⟩ := safeFrom_if h
    refine .bind (test_safe hvars hT) fun b U hU => ?_
    subst hU
    cases b
    · exact (ihe V B U hB hT).mono fun _ T' hT' x hx => hT' x (Finset.mem_of_mem_inter_right hx)
    · exact (iht V A U hA hT).mono fun _ T' hT' x hx => hT' x (Finset.mem_of_mem_inter_left hx)
  | whileStatement c body ih =>
    intro V W T h hT
    obtain ⟨hvars, rfl, U, hU⟩ := safeFrom_while h
    have hsub : W ⊆ U := safeInTurn_subset (fun s _ => safeFrom_subset s) hU
    refine .loop (I := Defines W) (fun T' hT' => ?_) (fun T' hT' => ?_) (fun _ _ _ => ?_) n hT
    · exact (test_safe hvars hT').mono fun _ T'' hT'' => hT'' ▸ hT'
    · exact (inTurn_safe ih W U T' hU hT').mono fun _ T'' hT'' x hx => hT'' x (hsub hx)
    · exact Stop.noConfusion

end Safe

/-- **Reads after definite assignment never fail.** The run of a program whose statement is safe from no
names, on the empty table or any other, is never stopped by the lookup of a variable; and if it
completes, every name the statement promises has a value. -/
theorem safe_run_never_throws (leftFirst : BinaryClass → Bool) (n : ℕ) {w : World} {p q : ℕ}
    {P Q : Program} {W : Finset String} (hP : w.programs[p]? = some P) (hq : w.PointsTo q Q)
    (hsafe : P.statement.safeFrom ∅ = some W) :
    (∀ message, (Program.run leftFirst n p w).result ≠ .error (.thrown message)) ∧
    ((Program.run leftFirst n p w).result = .ok () →
      ∃ T, (Program.run leftFirst n p w).final.current = some T ∧ ∀ x ∈ W, x ∈ T) := by
  have hrelated : (Program.run leftFirst n p w).Related (fun v T => v = w.withTable q T)
      (P.statement.exec leftFirst n Q.symbolTable) := Program.run_related hP hq
  have hempty : Defines ∅ Q.symbolTable := fun x hx => absurd hx (Finset.notMem_empty x)
  obtain ⟨hreturned, hthrown⟩ := exec_safe P.statement ∅ W Q.symbolTable hsafe hempty
  rw [← hrelated.result] at hreturned hthrown
  refine ⟨fun message h => hthrown _ h message rfl, fun h => ⟨_, ?_, hreturned () h⟩⟩
  rw [hrelated.final]
  exact current_of_pointsTo (withTable_pointsTo hq _)

/-- A loop that reads what was assigned before it. -/
theorem safe_run_never_throws_loop :
    let less : Expression := .binary .LessThanExpression (.var "x") (.num 2)
    let next : Expression := .binary .AddExpression (.var "x") (.num 1)
    let s : Statement :=
      .sequence [.assignment "x" (.num 1), .whileStatement less [.assignment "x" next]]
    (Program.run (fun _ => true) 3 0 ⟨[⟨"P", s, ∅⟩], some 0⟩).result ≠
      .error (.thrown "SymbolTable::get : Variable x not found.") :=
  (safe_run_never_throws _ 3 rfl ⟨rfl, rfl⟩ (W := {"x"}) rfl).1 _

end ProgramAnalysis.Mycalc
