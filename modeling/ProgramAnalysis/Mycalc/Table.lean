import ProgramAnalysis.Mycalc.Model

/-!
# Runs as functions of a table

* `Expression.value`, `Statement.exec`: the meaning of expressions and statements on one table;
* `value_binary_error`, **`Expression.value_error`**: why an expression has no value;
* `World.PointsTo`, `World.current`: the program `theProgram` points to, and its table;
* `evaluate_actsAs`, **`run_actsAs`**: the interpreter does to that table what `exec` does, and nothing
  else.
-/

namespace ProgramAnalysis.Mycalc

open Lib

/-! ## Meaning -/

section Meaning

variable (leftFirst : BinaryClass → Bool)

/-- The value of an expression, or why it has none. -/
def Expression.value (table : SymbolTable) : Expression → Except Stop Int32
  | .num value => .ok value
  | .var name => (table.lookup name).elim (.error (SymbolTable.notFound name)) .ok
  | .binary cls left right =>
    if leftFirst cls then do
      let l ← left.value table
      let r ← right.value table
      cls.apply l r
    else do
      let r ← right.value table
      let l ← left.value table
      cls.apply l r

/-- The operands of a node in the order of their evaluation. -/
def BinaryClass.operands (cls : BinaryClass) (left right : Expression) : Expression × Expression :=
  if leftFirst cls then (left, right) else (right, left)

/-- Does a condition hold. -/
def Expression.test (condition : Expression) : Call Stop SymbolTable Bool := do
  return (← Call.read (condition.value leftFirst)) != 0

variable (n : ℕ)

mutual

/-- What a statement does to a table. -/
def Statement.exec : Statement → Call Stop SymbolTable Unit
  | .assignment vname expression => do
    let value ← Call.read (expression.value leftFirst)
    SymbolTable.set vname value
  | .sequence statements => Call.inTurn (execs statements)
  | .ifStatement condition thenBranch elseBranch => do
    if ← condition.test leftFirst then thenBranch.exec else elseBranch.exec
  | .whileStatement condition body =>
    Call.loop .cut (condition.test leftFirst) (Call.inTurn (execs body)) n

def execs : List Statement → List (Call Stop SymbolTable Unit)
  | [] => []
  | s :: ss => s.exec :: execs ss

end

end Meaning

/-! ## Values and errors -/

/-- The names an expression reads. -/
def Expression.vars : Expression → Finset String
  | .num _ => ∅
  | .var name => {name}
  | .binary _ left right => left.vars ∪ right.vars

section Value

variable {leftFirst : BinaryClass → Bool} {T : SymbolTable} {cls : BinaryClass}
  {left right : Expression}

theorem value_binary_of_ok {l r : Int32} (hl : left.value leftFirst T = .ok l)
    (hr : right.value leftFirst T = .ok r) :
    (Expression.binary cls left right).value leftFirst T = cls.apply l r := by
  rw [Expression.value, hl, hr]
  split_ifs
  · rfl
  · rfl

theorem value_binary_ok {v : Int32}
    (h : (Expression.binary cls left right).value leftFirst T = .ok v) :
    ∃ l r, left.value leftFirst T = .ok l ∧ right.value leftFirst T = .ok r ∧
      cls.apply l r = .ok v := by
  rw [Expression.value] at h
  split_ifs at h
  · obtain ⟨l, hl, h⟩ := bind_eq_ok_iff.mp h
    obtain ⟨r, hr, h⟩ := bind_eq_ok_iff.mp h
    exact ⟨l, r, hl, hr, h⟩
  · obtain ⟨r, hr, h⟩ := bind_eq_ok_iff.mp h
    obtain ⟨l, hl, h⟩ := bind_eq_ok_iff.mp h
    exact ⟨l, r, hl, hr, h⟩

/-- An operand is the left or the right one. -/
theorem eq_of_operand {c : Expression} (h : c = (cls.operands leftFirst left right).1 ∨
    c = (cls.operands leftFirst left right).2) : c = left ∨ c = right := by
  rw [BinaryClass.operands] at h
  split_ifs at h
  · exact h
  · exact h.symm

/-- A node without a value: its first operand has none, or its second one has none, or the operator
gives none. -/
theorem value_binary_error {e : Stop}
    (h : (Expression.binary cls left right).value leftFirst T = .error e) :
    (cls.operands leftFirst left right).1.value leftFirst T = .error e ∨
      (∃ v, (cls.operands leftFirst left right).1.value leftFirst T = .ok v ∧
        (cls.operands leftFirst left right).2.value leftFirst T = .error e) ∨
      ∃ l r, left.value leftFirst T = .ok l ∧ right.value leftFirst T = .ok r ∧
        cls.apply l r = .error e := by
  rw [Expression.value] at h
  rw [BinaryClass.operands]
  split_ifs at h ⊢
  · refine (bind_eq_error_iff.mp h).imp_right fun ⟨l, hl, h⟩ => ?_
    rcases bind_eq_error_iff.mp h with hr | ⟨r, hr, happly⟩
    · exact .inl ⟨l, hl, hr⟩
    · exact .inr ⟨l, r, hl, hr, happly⟩
  · refine (bind_eq_error_iff.mp h).imp_right fun ⟨r, hr, h⟩ => ?_
    rcases bind_eq_error_iff.mp h with hl | ⟨l, hl, happly⟩
    · exact .inl ⟨r, hr, hl⟩
    · exact .inr ⟨l, r, hl, hr, happly⟩

theorem inInt_error {z : ℤ} {e : Stop} (h : inInt z = .error e) : e = .undefined := by
  unfold inInt at h
  split_ifs at h
  exact (Except.error.inj h).symm

theorem BinaryClass.apply_error {l r : Int32} {e : Stop} (h : cls.apply l r = .error e) :
    e = .undefined := by
  cases cls with
  | AddExpression | SubExpression | MulExpression => exact inInt_error h
  | DivExpression =>
    rw [BinaryClass.apply] at h
    split_ifs at h
    · exact (Except.error.inj h).symm
    · exact inInt_error h
  | LessThanExpression | GreaterThanExpression => cases h

/-- **Why an expression has no value**: undefined arithmetic, or a name without a value. -/
theorem Expression.value_error {c : Expression} {e : Stop} (h : c.value leftFirst T = .error e) :
    e = .undefined ∨ ∃ x ∈ c.vars, x ∉ T ∧ e = SymbolTable.notFound x := by
  induction c with
  | num value => cases h
  | var name =>
    rw [Expression.value] at h
    rcases hlookup : T.lookup name with - | value
    · rw [hlookup] at h
      refine .inr ⟨name, Finset.mem_singleton_self name, Finmap.lookup_eq_none.mp hlookup, ?_⟩
      exact (Except.error.inj h).symm
    · rw [hlookup] at h
      cases h
  | binary cls left right ihl ihr =>
    have hoperand : ∀ c, c = (cls.operands leftFirst left right).1 ∨
        c = (cls.operands leftFirst left right).2 → c.value leftFirst T = .error e →
          e = .undefined ∨ ∃ x ∈ left.vars ∪ right.vars, x ∉ T ∧ e = SymbolTable.notFound x := by
      intro c hc he
      rcases eq_of_operand hc with rfl | rfl
      · exact (ihl he).imp_right fun ⟨x, hx, hout⟩ => ⟨x, Finset.mem_union_left _ hx, hout⟩
      · exact (ihr he).imp_right fun ⟨x, hx, hout⟩ => ⟨x, Finset.mem_union_right _ hx, hout⟩
    rcases value_binary_error h with hfirst | ⟨-, -, hsecond⟩ | ⟨l, r, -, -, happly⟩
    · exact hoperand _ (.inl rfl) hfirst
    · exact hoperand _ (.inr rfl) hsecond
    · exact .inl (BinaryClass.apply_error happly)

end Value

section Exec

variable {leftFirst : BinaryClass → Bool} {n : ℕ} {T : SymbolTable}

theorem execs_eq_map (ss : List Statement) :
    execs leftFirst n ss = ss.map fun s => s.exec leftFirst n := by
  induction ss with
  | nil => rfl
  | cons s ss ih => rw [execs, ih, List.map_cons]

theorem test_of_ok {c : Expression} {v : Int32} (h : c.value leftFirst T = .ok v) :
    c.test leftFirst T = ⟨.ok (v != 0), T, []⟩ := by
  rw [Expression.test, Call.bind_of_ok (by rw [Call.read_apply, h])]
  rfl

theorem test_of_error {c : Expression} {e : Stop} (h : c.value leftFirst T = .error e) :
    c.test leftFirst T = ⟨.error e, T, []⟩ := by
  rw [Expression.test, Call.bind_of_error (by rw [Call.read_apply, h])]
  rfl

/-- A test leaves the table as it is. -/
theorem test_final (c : Expression) : (c.test leftFirst T).final = T := by
  rcases h : c.value leftFirst T with e | v
  · rw [test_of_error h]
  · rw [test_of_ok h]

theorem value_of_test_error {c : Expression} {e : Stop}
    (h : (c.test leftFirst T).result = .error e) : c.value leftFirst T = .error e := by
  rcases hc : c.value leftFirst T with e' | v
  · rw [test_of_error hc] at h
    exact congrArg Except.error (Except.error.inj h)
  · rw [test_of_ok hc] at h
    cases h

end Exec

/-! ## The current table -/

/-- The pointer `theProgram` leads to program `p`, which is `P`. -/
structure World.PointsTo (w : World) (p : ℕ) (P : Program) : Prop where
  pointer : w.theProgram = some p
  program : w.programs[p]? = some P

/-- The table that `theProgram` leads to. -/
def World.current (w : World) : Option SymbolTable :=
  (w.theProgram.bind fun p => w.programs[p]?).map Program.symbolTable

section Current

variable {α : Type} {w : World} {p : ℕ} {P : Program}

theorem withTable_pointsTo (h : w.PointsTo p P) (T : SymbolTable) :
    (w.withTable p T).PointsTo p { P with symbolTable := T } := by
  refine ⟨h.pointer, ?_⟩
  rw [World.withTable, List.getElem?_modify_eq, h.program]
  rfl

theorem withTable_of_ne {r : ℕ} (h : r ≠ p) (T : SymbolTable) :
    (w.withTable p T).programs[r]? = w.programs[r]? := by
  show (w.programs.modify p _)[r]? = _
  rw [List.getElem?_modify_ne _ _ (Ne.symm h)]

theorem withTable_withTable (T U : SymbolTable) :
    (w.withTable p T).withTable p U = w.withTable p U := by
  simp only [World.withTable, List.modify_modify_eq]
  rfl

theorem withTable_self (h : w.PointsTo p P) : w.withTable p P.symbolTable = w := by
  have hsame : w.programs.modify p (fun Q => { Q with symbolTable := P.symbolTable }) =
      w.programs := by
    refine List.ext_getElem? fun r => ?_
    rcases eq_or_ne p r with rfl | hr
    · rw [List.getElem?_modify_eq, h.program]
      rfl
    · rw [List.getElem?_modify_ne _ _ hr]
  rw [World.withTable, hsame]

theorem current_of_pointsTo (h : w.PointsTo p P) : w.current = some P.symbolTable := by
  rw [World.current, h.pointer, Option.bind_some, h.program, Option.map_some]

/-- **A method on the current table.** -/
theorem theTable_actsAs (h : w.PointsTo p P) (m : Call Stop SymbolTable α) :
    Call.ActsAs (fun v T => v = w.withTable p T) (theTable m) m := by
  rintro _ T rfl
  obtain ⟨hpointer, hprogram⟩ := withTable_pointsTo h T
  have hput : (w.withTable p T).withTable p = w.withTable p := funext (withTable_withTable T)
  have happly : theTable m (w.withTable p T) =
      ⟨(m T).result, w.withTable p (m T).final, (m T).visited.map (w.withTable p)⟩ := by
    simp only [theTable, hpointer, hprogram, hput]
  rw [happly]
  refine ⟨rfl, rfl, List.forall₂_map_left_iff.mpr ?_⟩
  exact List.forall₂_same.mpr fun _ _ => rfl

end Current

/-! ## The interpreter on the current table -/

/-- A lookup makes no entry. -/
theorem SymbolTable.get_eq_read (vname : String) : SymbolTable.get vname =
    Call.read fun table => (table.lookup vname).elim (.error (SymbolTable.notFound vname)) .ok := by
  funext T
  have hmem : vname ∉ T ↔ T.lookup vname = none := Finmap.lookup_eq_none.symm
  rw [SymbolTable.get, Call.bind_of_ok rfl]
  rcases hlookup : T.lookup vname with - | value
  · simp [hmem.mpr hlookup, hlookup]
  · have hnot : ¬ vname ∉ T := fun hout => by
      rw [hmem.mp hout] at hlookup
      cases hlookup
    rw [SymbolTable.index, Call.read_apply, if_neg (by simpa using hnot), Call.bind_of_ok rfl]
    simp [hlookup]

section Interpreter

variable {leftFirst : BinaryClass → Bool} {n : ℕ} {w : World} {p : ℕ} {P : Program}

theorem evaluate_actsAs (h : w.PointsTo p P) (e : Expression) :
    Call.ActsAs (fun v T => v = w.withTable p T) (e.evaluate leftFirst)
      (Call.read fun T => e.value leftFirst T) := by
  induction e with
  | num value => exact .ret value
  | var name =>
    have hget := theTable_actsAs h (SymbolTable.get name)
    rw [SymbolTable.get_eq_read] at hget
    rw [Expression.evaluate, SymbolTable.get_eq_read]
    exact hget
  | binary cls left right ihl ihr =>
    have happly : ∀ l r, Call.ActsAs (fun v T => v = w.withTable p T)
        (Call.read fun _ => cls.apply l r) (Call.read fun _ => cls.apply l r) := fun _ _ =>
      .read fun _ _ _ => rfl
    simp only [Expression.evaluate, Expression.value]
    split_ifs with hfirst
    · have hboth := Call.ActsAs.bind ihl fun l => Call.ActsAs.bind ihr fun r => happly l r
      simp only [Call.read_bind_read] at hboth
      exact hboth
    · have hboth := Call.ActsAs.bind ihr fun r => Call.ActsAs.bind ihl fun l => happly l r
      simp only [Call.read_bind_read] at hboth
      exact hboth

theorem holds_actsAs (h : w.PointsTo p P) (c : Expression) :
    Call.ActsAs (fun v T => v = w.withTable p T) (c.holds leftFirst) (c.test leftFirst) :=
  (evaluate_actsAs h c).bind fun value => .ret (value != 0)

/-- **The interpreter does to the current table what `exec` does**, and nothing else. -/
theorem run_actsAs (h : w.PointsTo p P) (s : Statement) :
    Call.ActsAs (fun v T => v = w.withTable p T) (s.run leftFirst n) (s.exec leftFirst n) := by
  have hlist : ∀ ss : List Statement, (∀ s ∈ ss, Call.ActsAs (fun v T => v = w.withTable p T)
      (s.run leftFirst n) (s.exec leftFirst n)) → List.Forall₂ (Call.ActsAs
        (fun v T => v = w.withTable p T)) (runs leftFirst n ss) (execs leftFirst n ss) := by
    intro ss hss
    induction ss with
    | nil => exact .nil
    | cons s ss ih =>
      obtain ⟨hs, hss⟩ := List.forall_mem_cons.mp hss
      exact .cons hs (ih hss)
  induction s using Statement.ind with
  | assignment x e =>
    exact (evaluate_actsAs h e).bind fun value => theTable_actsAs h (SymbolTable.set x value)
  | sequence ss ih => exact .inTurn (hlist ss ih)
  | ifStatement c t e iht ihe => exact (holds_actsAs h c).bind fun _ => .ite iht ihe
  | whileStatement c body ih => exact .loop (holds_actsAs h c) (.inTurn (hlist body ih)) n

end Interpreter

end ProgramAnalysis.Mycalc
