import ProgramAnalysis.Lib.Alike
import ProgramAnalysis.Mycalc.Natural

/-!
# Renaming variables

* `Expression.rename`, `Statement.rename`: other names for the variables;
* `Renamed`, `StopRenamed`: a table, and an exception, under other names;
* `exec_renamed`: the meaning of a statement under other names;
* **`run_renamed`**: a run under other names is the run with its names changed.
-/

namespace ProgramAnalysis.Mycalc

open Lib

/-! ## Renaming -/

def Expression.rename (f : String → String) : Expression → Expression
  | .num value => .num value
  | .var name => .var (f name)
  | .binary cls left right => .binary cls (left.rename f) (right.rename f)

mutual

def Statement.rename (f : String → String) : Statement → Statement
  | .assignment vname expression => .assignment (f vname) (expression.rename f)
  | .sequence statements => .sequence (renameAll f statements)
  | .ifStatement condition thenBranch elseBranch =>
    .ifStatement (condition.rename f) (thenBranch.rename f) (elseBranch.rename f)
  | .whileStatement condition body => .whileStatement (condition.rename f) (renameAll f body)

def renameAll (f : String → String) : List Statement → List Statement
  | [] => []
  | s :: ss => s.rename f :: renameAll f ss

end

/-- Under the new names `U` has the values of `T`, and under other names those of `U₀`. -/
structure Renamed (f : String → String) (U₀ T U : SymbolTable) : Prop where
  new : ∀ x, U.lookup (f x) = T.lookup x
  other : ∀ y ∉ Set.range f, U.lookup y = U₀.lookup y

/-- The same stop, or the same missing variable. -/
def StopRenamed (f : String → String) (e d : Stop) : Prop :=
  (∃ x, e = SymbolTable.notFound x ∧ d = SymbolTable.notFound (f x)) ∨
    e = d ∧ ∀ message, e ≠ .thrown message

theorem Renamed.insert {f : String → String} (hf : f.Injective) {U₀ T U : SymbolTable}
    (h : Renamed f U₀ T U) (x : String) (value : Int32) :
    Renamed f U₀ (T.insert x value) (U.insert (f x) value) where
  new y := by
    by_cases hyx : y = x
    · subst hyx
      rw [Finmap.lookup_insert, Finmap.lookup_insert]
    · rw [Finmap.lookup_insert_of_ne _ hyx, Finmap.lookup_insert_of_ne _ (hf.ne hyx)]
      exact h.new y
  other y hy := by
    have hne : y ≠ f x := fun heq => hy ⟨x, heq.symm⟩
    rw [Finmap.lookup_insert_of_ne _ hne]
    exact h.other y hy

/-! ## Meaning under other names -/

section Meaning

variable {leftFirst : BinaryClass → Bool} {n : ℕ} {f : String → String} {U₀ T U : SymbolTable}

theorem BinaryClass.apply_renamed (cls : BinaryClass) (l r : Int32) :
    Except.Alike (StopRenamed f) (cls.apply l r) (cls.apply l r) := by
  rcases h : cls.apply l r with e | v
  · cases BinaryClass.apply_error h
    exact .error (.inr ⟨rfl, fun _ => Stop.noConfusion⟩)
  · exact .ok v

theorem value_renamed (h : Renamed f U₀ T U) (e : Expression) : Except.Alike (StopRenamed f)
    (e.value leftFirst T) ((e.rename f).value leftFirst U) := by
  induction e with
  | num value => exact .ok value
  | var name =>
    rw [Expression.rename, Expression.value, Expression.value, h.new name]
    rcases T.lookup name with - | value
    · exact .error (.inl ⟨name, rfl, rfl⟩)
    · exact .ok value
  | binary cls left right ihl ihr =>
    rw [Expression.rename, Expression.value, Expression.value]
    split_ifs
    · exact ihl.bind fun l => ihr.bind fun r => cls.apply_renamed l r
    · exact ihr.bind fun r => ihl.bind fun l => cls.apply_renamed l r

theorem test_renamed (c : Expression) : Call.Matches (StopRenamed f) (Renamed f U₀)
    (c.test leftFirst) ((c.rename f).test leftFirst) :=
  .bind (.read fun _ _ h => value_renamed h c) fun value => .ret (value != 0)

/-- **A statement under other names.** -/
theorem exec_renamed (hf : f.Injective) (s : Statement) : Call.Matches (StopRenamed f) (Renamed f U₀)
    (s.exec leftFirst n) ((s.rename f).exec leftFirst n) := by
  have hlist : ∀ ss : List Statement, (∀ s ∈ ss, Call.Matches (StopRenamed f) (Renamed f U₀)
      (s.exec leftFirst n) ((s.rename f).exec leftFirst n)) →
        List.Forall₂ (Call.Matches (StopRenamed f) (Renamed f U₀)) (execs leftFirst n ss)
          (execs leftFirst n (renameAll f ss)) := by
    intro ss hss
    induction ss with
    | nil => exact .nil
    | cons s ss ih =>
      obtain ⟨hs, hss⟩ := List.forall_mem_cons.mp hss
      exact .cons hs (ih hss)
  induction s using Statement.ind with
  | assignment x e =>
    refine .bind (.read fun _ _ h => value_renamed h e) fun value => ?_
    exact .write fun _ _ h => h.insert hf x value
  | sequence ss ih => exact .inTurn (hlist ss ih)
  | ifStatement c t e iht ihe => exact (test_renamed c).bind fun _ => .ite iht ihe
  | whileStatement c body ih =>
    exact .loop (.inr ⟨rfl, fun _ => Stop.noConfusion⟩) (test_renamed c) (.inTurn (hlist body ih)) n

end Meaning

/-- **Renaming variables changes names and nothing else.** `f` takes different names to different names,
and the table of `Q'` has under the new names what that of `Q` has. The run of the renamed statement
goes as that of the statement: after each write its table has under the new names what the other one has,
and under every name that is no new one what it had before; it returns when the other one does, and
throws the same exception, with the new name where that is about a variable. -/
theorem run_renamed (leftFirst : BinaryClass → Bool) (n : ℕ) {f : String → String} (hf : f.Injective)
    {w w' : World} {q q' : ℕ} {Q Q' : Program} (hq : w.PointsTo q Q) (hq' : w'.PointsTo q' Q')
    (htable : ∀ x, Q'.symbolTable.lookup (f x) = Q.symbolTable.lookup x) (s : Statement) :
    (s.run leftFirst n w).Alike (StopRenamed f) (fun v v' => ∃ T U, v = w.withTable q T ∧
      v' = w'.withTable q' U ∧ Renamed f Q'.symbolTable T U) ((s.rename f).run leftFirst n w') := by
  have hrun : (s.run leftFirst n w).Related _ _ :=
    run_actsAs hq s w Q.symbolTable (withTable_self hq).symm
  have hrun' : ((s.rename f).run leftFirst n w').Related _ _ :=
    run_actsAs hq' (s.rename f) w' Q'.symbolTable (withTable_self hq').symm
  exact .of_images hrun hrun' (exec_renamed hf s _ _ ⟨htable, fun _ _ => rfl⟩)

/-- `x` and `y` swapped, in a program that reads a variable without a value. -/
theorem run_renamed_missing :
    let swap : String → String := fun z => if z = "x" then "y" else if z = "y" then "x" else z
    let s : Statement := .sequence [.assignment "x" (.num 1), .assignment "z" (.var "y")]
    let w : World := ⟨[⟨"P", s, ∅⟩], some 0⟩
    ∃ U, ((s.rename swap).run (fun _ => true) 0 w).final = w.withTable 0 U ∧
      U.lookup "y" = some 1 ∧ Except.Alike (StopRenamed swap)
        (.error (SymbolTable.notFound "y") : Except Stop Unit)
        ((s.rename swap).run (fun _ => true) 0 w).result := by
  intro swap s w
  have hswap : swap.Injective := by
    have htwice : ∀ z, swap (swap z) = z := by
      intro z
      simp only [swap]
      split_ifs <;> simp_all
    exact Function.LeftInverse.injective htwice
  have hq : w.PointsTo 0 ⟨"P", s, ∅⟩ := ⟨rfl, rfl⟩
  obtain ⟨hresult, ⟨T, U, hT, hU, hrenamed⟩, -⟩ := run_renamed (fun _ => true) 0 hswap hq hq
    (fun x => by rw [Finmap.lookup_empty, Finmap.lookup_empty]) s
  have htable : T = (∅ : SymbolTable).insert "x" 1 := by
    refine withTable_injective hq (hT.symm.trans ?_)
    rfl
  refine ⟨U, hU, ?_, hresult⟩
  rw [htable] at hrenamed
  exact (hrenamed.new "x").trans (Finmap.lookup_insert _)

end ProgramAnalysis.Mycalc
