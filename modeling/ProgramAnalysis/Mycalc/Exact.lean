import ProgramAnalysis.Mycalc.Table

/-!
# Arithmetic up to the first undefined operation

* `Expression.exact`: the value of an expression over the integers;
* `Expression.Comes`, `Statement.Comes`: what a run comes to evaluate, and on which table;
* `Expression.Undefined`: an operation without a result that fits;
* **`exact_until_undefined`**: a run evaluates exactly, or stops with the error of what it evaluates;
  and it stops as undefined exactly when it comes to an undefined operation.
-/

namespace ProgramAnalysis.Mycalc

open Lib

/-! ## Exact values -/

/-- The operators over the integers. -/
def BinaryClass.exact : BinaryClass → ℤ → ℤ → Option ℤ
  | .AddExpression, l, r => some (l + r)
  | .SubExpression, l, r => some (l - r)
  | .MulExpression, l, r => some (l * r)
  | .DivExpression, l, r => if r = 0 then none else some (l.tdiv r)
  | .LessThanExpression, l, r => some (if l < r then 1 else 0)
  | .GreaterThanExpression, l, r => some (if l > r then 1 else 0)

/-- The exact value, where the names have values and no divisor is zero. -/
def Expression.exact (T : SymbolTable) : Expression → Option ℤ
  | .num value => some value.toInt
  | .var name => (T.lookup name).map Int32.toInt
  | .binary cls left right =>
    (left.exact T).bind fun l => (right.exact T).bind fun r => cls.exact l r

theorem inInt_of_fits {z : ℤ} (h : FitsInt z) : ∃ v : Int32, inInt z = .ok v ∧ v.toInt = z :=
  ⟨Int32.ofInt z, if_pos h, Int32.toInt_ofInt_of_le h.1 h.2⟩

theorem inInt_of_not_fits {z : ℤ} (h : ¬ FitsInt z) : inInt z = .error .undefined := if_neg h

/-- The values of `int` fit. -/
theorem fitsInt_toInt (v : Int32) : FitsInt v.toInt := ⟨v.le_toInt, v.toInt_lt⟩

section Operators

variable {cls : BinaryClass} {l r : Int32}

/-- **An operator is exact or undefined.** -/
theorem BinaryClass.apply_cases (cls : BinaryClass) (l r : Int32) :
    (∃ v : Int32, cls.apply l r = .ok v ∧ cls.exact l.toInt r.toInt = some v.toInt) ∨
      cls.apply l r = .error .undefined ∧ ∀ z, cls.exact l.toInt r.toInt = some z → ¬ FitsInt z := by
  have hchecked : ∀ z : ℤ, (∃ v : Int32, inInt z = .ok v ∧ some z = some v.toInt) ∨
      inInt z = .error .undefined ∧ ∀ y, some z = some y → ¬ FitsInt y := by
    intro z
    by_cases h : FitsInt z
    · obtain ⟨v, hv, hz⟩ := inInt_of_fits h
      exact .inl ⟨v, hv, congrArg some hz.symm⟩
    · refine .inr ⟨inInt_of_not_fits h, ?_⟩
      rintro y ⟨rfl⟩
      exact h
  have hcompare : ∀ {p q : Prop} [Decidable p] [Decidable q], (p ↔ q) →
      some (if q then 1 else 0 : ℤ) = some (if p then 1 else 0 : Int32).toInt := by
    intro p q _ _ h
    by_cases hp : p
    · rw [if_pos hp, if_pos (h.mp hp)]
      rfl
    · rw [if_neg hp, if_neg fun hq => hp (h.mpr hq)]
      rfl
  cases cls with
  | AddExpression => exact hchecked (l.toInt + r.toInt)
  | SubExpression => exact hchecked (l.toInt - r.toInt)
  | MulExpression => exact hchecked (l.toInt * r.toInt)
  | DivExpression =>
    rw [BinaryClass.apply, BinaryClass.exact]
    have hzero : r = 0 ↔ r.toInt = 0 := Int32.toInt_inj.symm
    by_cases hr : r = 0
    · rw [if_pos hr, if_pos (hzero.mp hr)]
      exact .inr ⟨rfl, fun z h => by cases h⟩
    · rw [if_neg hr, if_neg fun h => hr (hzero.mpr h)]
      exact hchecked _
  | LessThanExpression => exact .inl ⟨_, rfl, hcompare (Int32.lt_iff_toInt_lt)⟩
  | GreaterThanExpression => exact .inl ⟨_, rfl, hcompare (Int32.lt_iff_toInt_lt)⟩

end Operators

/-! ## What a run comes to evaluate -/

section Comes

variable (leftFirst : BinaryClass → Bool)

/-- Evaluating an expression on `T` comes to evaluate another: itself, the first operand, and the
second one when the first has a value. -/
inductive Expression.Comes (T : SymbolTable) : Expression → Expression → Prop
  | self (e : Expression) : Comes T e e
  | first {cls : BinaryClass} {left right e : Expression} :
    Comes T (cls.operands leftFirst left right).1 e → Comes T (.binary cls left right) e
  | second {cls : BinaryClass} {left right e : Expression} {v : Int32} :
    (cls.operands leftFirst left right).1.value leftFirst T = .ok v →
      Comes T (cls.operands leftFirst left right).2 e → Comes T (.binary cls left right) e

variable (n : ℕ)

/-- The run of a statement on a table comes to evaluate an expression on another table. -/
inductive Statement.Comes : Statement → SymbolTable → Expression → SymbolTable → Prop
  | assignment {x : String} {c e : Expression} {T : SymbolTable} : c.Comes leftFirst T e →
    Comes (.assignment x c) T e T
  | element {pre : List Statement} {s : Statement} {post : List Statement} {T U : SymbolTable}
    {e : Expression} : (Call.inTurn (execs leftFirst n pre) T).result = .ok () →
      Comes s (Call.inTurn (execs leftFirst n pre) T).final e U →
        Comes (.sequence (pre ++ s :: post)) T e U
  | ifCondition {c e : Expression} {s t : Statement} {T : SymbolTable} : c.Comes leftFirst T e →
    Comes (.ifStatement c s t) T e T
  | branch {c e : Expression} {s t : Statement} {b : Bool} {T U : SymbolTable} :
    (c.test leftFirst T).result = .ok b → Comes (if b then s else t) T e U →
      Comes (.ifStatement c s t) T e U
  | whileCondition {c e : Expression} {body : List Statement} {k : ℕ} {T U : SymbolTable} : k ≤ n →
    Call.Rounds (c.test leftFirst) (Call.inTurn (execs leftFirst n body)) T k U →
      c.Comes leftFirst U e → Comes (.whileStatement c body) T e U
  | whileBody {c e : Expression} {body : List Statement} {k : ℕ} {T U V : SymbolTable} : k < n →
    Call.Rounds (c.test leftFirst) (Call.inTurn (execs leftFirst n body)) T k U →
      (c.test leftFirst U).result = .ok true → Comes (.sequence body) U e V →
        Comes (.whileStatement c body) T e V

/-- A node whose operands have values, for which its operator has no exact result, or none that
fits. -/
def Expression.Undefined (T : SymbolTable) (e : Expression) : Prop :=
  ∃ cls left right, ∃ l r : Int32, e = .binary cls left right ∧ left.value leftFirst T = .ok l ∧
    right.value leftFirst T = .ok r ∧ ∀ z, cls.exact l.toInt r.toInt = some z → ¬ FitsInt z

end Comes

section Value

variable {leftFirst : BinaryClass → Bool} {T : SymbolTable} {c e : Expression} {stop : Stop}

/-- **A value is exact.** -/
theorem Expression.value_exact {v : Int32} (h : e.value leftFirst T = .ok v) :
    e.exact T = some v.toInt := by
  induction e generalizing v with
  | num value => exact congrArg (fun v => some (Int32.toInt v)) (Except.ok.inj h)
  | var name =>
    rw [Expression.value] at h
    rcases hlookup : T.lookup name with - | value
    · rw [hlookup] at h
      cases h
    · rw [hlookup] at h
      rw [Expression.exact, hlookup, ← Except.ok.inj h]
      rfl
  | binary cls left right ihl ihr =>
    obtain ⟨l, r, hl, hr, happly⟩ := value_binary_ok h
    rw [Expression.exact, ihl hl, ihr hr]
    rcases BinaryClass.apply_cases cls l r with ⟨v', hv', hexact⟩ | ⟨hundefined, -⟩
    · rw [happly] at hv'
      exact Except.ok.inj hv' ▸ hexact
    · rw [happly] at hundefined
      cases hundefined

/-- An expression stops with the error of what it comes to evaluate. -/
theorem Expression.Comes.value_error (hcomes : c.Comes leftFirst T e)
    (h : e.value leftFirst T = .error stop) : c.value leftFirst T = .error stop := by
  induction hcomes with
  | self e => exact h
  | first _ ih =>
    have hfirst := ih h
    rw [BinaryClass.operands] at hfirst
    rw [Expression.value]
    split_ifs at hfirst ⊢
    · rw [hfirst]
      rfl
    · rw [hfirst]
      rfl
  | second hv _ ih =>
    have hsecond := ih h
    rw [BinaryClass.operands] at hv hsecond
    rw [Expression.value]
    split_ifs at hv hsecond ⊢
    · rw [hv, hsecond]
      rfl
    · rw [hv, hsecond]
      rfl

theorem Expression.undefined_value (h : e.Undefined leftFirst T) :
    e.value leftFirst T = .error .undefined := by
  obtain ⟨cls, left, right, l, r, rfl, hl, hr, hfits⟩ := h
  rw [value_binary_of_ok hl hr]
  rcases BinaryClass.apply_cases cls l r with ⟨v, -, hexact⟩ | ⟨hundefined, -⟩
  · exact absurd (fitsInt_toInt v) (hfits _ hexact)
  · exact hundefined

/-- An expression that is stopped as undefined comes to an undefined operation. -/
theorem Expression.exists_undefined (h : c.value leftFirst T = .error .undefined) :
    ∃ e, c.Comes leftFirst T e ∧ e.Undefined leftFirst T := by
  induction c with
  | num value => cases h
  | var name =>
    rw [Expression.value] at h
    rcases hlookup : T.lookup name with - | value <;> rw [hlookup] at h <;> cases h
  | binary cls left right ihl ihr =>
    have hoperand : ∀ c, c = (cls.operands leftFirst left right).1 ∨
        c = (cls.operands leftFirst left right).2 → c.value leftFirst T = .error .undefined →
          ∃ e, c.Comes leftFirst T e ∧ e.Undefined leftFirst T := by
      intro c hc hundefined
      rcases eq_of_operand hc with rfl | rfl
      · exact ihl hundefined
      · exact ihr hundefined
    rcases value_binary_error h with hfirst | ⟨v, hv, hsecond⟩ | ⟨l, r, hl, hr, happly⟩
    · obtain ⟨e, he, hundefined⟩ := hoperand _ (.inl rfl) hfirst
      exact ⟨e, .first he, hundefined⟩
    · obtain ⟨e, he, hundefined⟩ := hoperand _ (.inr rfl) hsecond
      exact ⟨e, .second hv he, hundefined⟩
    · refine ⟨_, .self _, cls, left, right, l, r, rfl, hl, hr, ?_⟩
      rcases BinaryClass.apply_cases cls l r with ⟨v, hv, -⟩ | ⟨-, hfits⟩
      · rw [happly] at hv
        cases hv
      · exact hfits

end Value

/-! ## Where a run stops -/

section Stops

variable {leftFirst : BinaryClass → Bool} {n : ℕ} {stop : Stop}

/-- **A statement stops with the error of what it comes to evaluate.** -/
theorem Statement.Comes.exec_error {s : Statement} {T U : SymbolTable} {e : Expression}
    (hcomes : s.Comes leftFirst n T e U) (h : e.value leftFirst U = .error stop) :
    (s.exec leftFirst n T).result = .error stop := by
  induction hcomes with
  | assignment hc =>
    rw [Statement.exec, Call.bind_of_error (by rw [Call.read_apply, hc.value_error h])]
  | element hpre _ ih =>
    rw [Statement.exec, execs_eq_map, List.map_append, List.map_cons, ← execs_eq_map,
      Call.inTurn_append_of_ok hpre, Call.inTurn, Call.bind_of_error (ih h)]
  | ifCondition hc =>
    rw [Statement.exec, Call.bind_of_error (by rw [test_of_error (hc.value_error h)])]
  | @branch c e s t b T U hb _ ih =>
    rw [Statement.exec, Call.bind_of_ok hb, test_final]
    cases b
    · exact ih h
    · exact ih h
  | @whileCondition c e body k T U hk hrounds hc =>
    rw [Statement.exec, (Call.loop_after_rounds .cut hrounds hk).1]
    exact Call.loop_of_cond_error (by rw [test_of_error (hc.value_error h)]) _
  | @whileBody c e body k T U V hk hrounds hb _ ih =>
    have hbody : (Call.inTurn (execs leftFirst n body) (c.test leftFirst U).final).result =
        .error stop := by
      rw [test_final]
      exact ih h
    obtain ⟨m, hm⟩ := Nat.exists_eq_succ_of_ne_zero (Nat.sub_ne_zero_of_lt hk)
    rw [Statement.exec, (Call.loop_after_rounds .cut hrounds (Nat.le_of_lt hk)).1, hm]
    exact Call.loop_of_body_error hb hbody m

/-- A sequence that is stopped as undefined comes to an undefined operation in an element. -/
theorem inTurn_exists_undefined {ss : List Statement} {T : SymbolTable}
    (hss : ∀ s ∈ ss, ∀ T, (s.exec leftFirst n T).result = .error .undefined →
      ∃ e U, s.Comes leftFirst n T e U ∧ e.Undefined leftFirst U)
    (h : (Call.inTurn (execs leftFirst n ss) T).result = .error .undefined) :
    ∃ e U, (Statement.sequence ss).Comes leftFirst n T e U ∧ e.Undefined leftFirst U := by
  obtain ⟨pre, m, post, hsplit, hpre, hm⟩ := Call.inTurn_error h
  rw [execs_eq_map, List.map_eq_append_iff] at hsplit
  obtain ⟨pre, rest, rfl, rfl, hrest⟩ := hsplit
  obtain ⟨s, post, rfl, rfl, -⟩ := List.map_eq_cons_iff.mp hrest
  rw [← execs_eq_map] at hpre hm
  have hmem : s ∈ pre ++ s :: post := List.mem_append_right _ List.mem_cons_self
  obtain ⟨e, U, hcomes, hundefined⟩ := hss s hmem _ hm
  exact ⟨e, U, .element hpre hcomes, hundefined⟩

/-- **A statement that is stopped as undefined comes to an undefined operation.** -/
theorem exec_exists_undefined (s : Statement) (T : SymbolTable)
    (h : (s.exec leftFirst n T).result = .error .undefined) :
    ∃ e U, s.Comes leftFirst n T e U ∧ e.Undefined leftFirst U := by
  induction s using Statement.ind generalizing T with
  | assignment x c =>
    rcases hc : c.value leftFirst T with e | v
    · rw [Statement.exec, Call.bind_of_error (by rw [Call.read_apply, hc])] at h
      have hundefined := Except.error.inj h
      obtain ⟨e', he, hundefined⟩ := Expression.exists_undefined (hundefined ▸ hc)
      exact ⟨e', T, .assignment he, hundefined⟩
    · rw [Statement.exec, Call.bind_of_ok (by rw [Call.read_apply, hc])] at h
      cases h
  | sequence ss ih => exact inTurn_exists_undefined ih h
  | ifStatement c s t ihs iht =>
    rcases hc : (c.test leftFirst T).result with e | b
    · rw [Statement.exec, Call.bind_of_error hc] at h
      have hundefined := Except.error.inj h
      obtain ⟨e', he, hundefined⟩ :=
        Expression.exists_undefined (value_of_test_error (hundefined ▸ hc))
      exact ⟨e', T, .ifCondition he, hundefined⟩
    · rw [Statement.exec, Call.bind_of_ok hc, test_final] at h
      have hbranch : ∃ e U, (if b then s else t).Comes leftFirst n T e U ∧
          e.Undefined leftFirst U := by
        cases b
        · exact iht T h
        · exact ihs T h
      obtain ⟨e, U, he, hundefined⟩ := hbranch
      exact ⟨e, U, .branch hc he, hundefined⟩
  | whileStatement c body ih =>
    obtain ⟨k, U, hk, hrounds, hend⟩ := Call.loop_error h
    rcases hend with hcond | ⟨hb, ⟨-, hcut⟩ | ⟨hlt, hbody⟩⟩
    · obtain ⟨e, he, hundefined⟩ := Expression.exists_undefined (value_of_test_error hcond)
      exact ⟨e, U, .whileCondition hk hrounds he, hundefined⟩
    · cases hcut
    · rw [test_final] at hbody
      obtain ⟨e, V, he, hundefined⟩ := inTurn_exists_undefined ih hbody
      exact ⟨e, V, .whileBody hlt hrounds hb he, hundefined⟩

end Stops

/-- **Arithmetic is exact up to the first undefined operation.** What a run on the table of `Q` comes to
evaluate has its exact value, or stops the run with its error, which is undefined arithmetic or the
lookup of a name without a value; and the run is stopped as undefined exactly when it comes to an
operation on two values that has no exact result, or none that fits. -/
theorem exact_until_undefined (leftFirst : BinaryClass → Bool) (n : ℕ) (s : Statement) {w : World}
    {q : ℕ} {Q : Program} (hq : w.PointsTo q Q) :
    (∀ e T, s.Comes leftFirst n Q.symbolTable e T →
      (∃ v : Int32, (e.evaluate leftFirst (w.withTable q T)).result = .ok v ∧
        e.exact T = some v.toInt) ∨
      ∃ stop, (e.evaluate leftFirst (w.withTable q T)).result = .error stop ∧
        (s.run leftFirst n w).result = .error stop ∧
          (stop = .undefined ∨ ∃ x ∈ e.vars, x ∉ T ∧ stop = SymbolTable.notFound x)) ∧
    ((s.run leftFirst n w).result = .error .undefined ↔
      ∃ e T, s.Comes leftFirst n Q.symbolTable e T ∧ e.Undefined leftFirst T) := by
  have hrun : (s.run leftFirst n w).result = (s.exec leftFirst n Q.symbolTable).result :=
    (run_actsAs hq s w Q.symbolTable (withTable_self hq).symm).result
  rw [hrun]
  refine ⟨fun e T hcomes => ?_, fun h => exec_exists_undefined s _ h, ?_⟩
  · have hevaluate : (e.evaluate leftFirst (w.withTable q T)).result = e.value leftFirst T :=
      (evaluate_actsAs hq e _ T rfl).result
    rw [hevaluate]
    rcases hvalue : e.value leftFirst T with stop | v
    · exact .inr ⟨stop, rfl, hcomes.exec_error hvalue, Expression.value_error hvalue⟩
    · exact .inl ⟨v, rfl, Expression.value_exact hvalue⟩
  · rintro ⟨e, T, hcomes, hundefined⟩
    exact hcomes.exec_error (Expression.undefined_value hundefined)

/-- A division by zero is such an operation. -/
theorem exact_until_undefined_division :
    let s : Statement := .assignment "x" (.binary .DivExpression (.num 1) (.num 0))
    ∃ e T, s.Comes (fun _ => true) 0 ∅ e T ∧ e.Undefined (fun _ => true) T :=
  (exact_until_undefined (fun _ => true) 0 _ (w := ⟨[⟨"P", .sequence [], ∅⟩], some 0⟩) (q := 0)
    ⟨rfl, rfl⟩).2.mp rfl

/-- No operator looks at its operands: a division by zero, the division of the least value by -1 and
a sum that is too large are all carried out. -/
theorem arithmetic_unguarded :
    let run (e : Expression) := ((Statement.assignment "x" e).run (fun _ => true) 0
      ⟨[⟨"P", .sequence [], ∅⟩], some 0⟩).result
    run (.binary .DivExpression (.num 1) (.num 0)) = .error .undefined ∧
      run (.binary .DivExpression (.num (-2147483648)) (.num (-1))) = .error .undefined ∧
      run (.binary .AddExpression (.num 2147483647) (.num 1)) = .error .undefined :=
  ⟨rfl, rfl, rfl⟩

end ProgramAnalysis.Mycalc
