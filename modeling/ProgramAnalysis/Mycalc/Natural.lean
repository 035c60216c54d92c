import ProgramAnalysis.Lib.Hoare
import ProgramAnalysis.Mycalc.Global

/-!
# Runs without a bound

* `primitives`, `Statement.toCom`: a statement as a structured program over assignments and tests;
* `exec_eq_run`: `exec` is the interpreter of structured programs;
* `Statement.EndsIn`, **`run_ends_or_not`**: a run returns, stops, or goes on for ever, and the bound on
  the rounds decides nothing else;
* **`proves_iff_runs`**, **`proves_iff_ends`**: the rules of pre- and postconditions prove exactly what
  holds of the runs of the interpreter.
-/

namespace ProgramAnalysis.Mycalc

open Lib

/-! ## Statements as structured programs -/

/-- What assignments and tests do to a table. -/
def primitives (leftFirst : BinaryClass → Bool) :
    Primitives (String × Expression) Expression Stop SymbolTable where
  act a T := (a.2.value leftFirst T).map fun value => T.insert a.1 value
  test c T := (c.value leftFirst T).map fun value => value != 0

mutual

def Statement.toCom : Statement → Com (String × Expression) Expression
  | .assignment vname expression => .act (vname, expression)
  | .sequence statements => comOf statements
  | .ifStatement condition thenBranch elseBranch =>
    .ite condition thenBranch.toCom elseBranch.toCom
  | .whileStatement condition body => .loop condition (comOf body)

def comOf : List Statement → Com (String × Expression) Expression
  | [] => .skip
  | s :: ss => .seq s.toCom (comOf ss)

end

section Meaning

variable {leftFirst : BinaryClass → Bool} {n : ℕ} {T U : SymbolTable}

theorem act_error_iff {x : String} {e : Expression} {stop : Stop} :
    (primitives leftFirst).act (x, e) T = .error stop ↔ e.value leftFirst T = .error stop :=
  map_eq_error_iff

theorem act_ok_iff {x : String} {e : Expression} :
    (primitives leftFirst).act (x, e) T = .ok U ↔
      ∃ value, e.value leftFirst T = .ok value ∧ T.insert x value = U := map_eq_ok_iff

theorem test_error_iff {c : Expression} {stop : Stop} :
    (primitives leftFirst).test c T = .error stop ↔ c.value leftFirst T = .error stop :=
  map_eq_error_iff

theorem test_ok_iff {c : Expression} {b : Bool} : (primitives leftFirst).test c T = .ok b ↔
    ∃ value, c.value leftFirst T = .ok value ∧ (value != 0) = b := map_eq_ok_iff

/-- An expression without a value does not stop as a bound does. -/
theorem value_error_uncut {e : Expression} {stop : Stop} (h : e.value leftFirst T = .error stop) :
    stop ≠ .cut := by
  rcases Expression.value_error h with rfl | ⟨x, -, -, rfl⟩
  · exact Stop.noConfusion
  · exact Stop.noConfusion

theorem primitives_neverThrows : (primitives leftFirst).NeverThrows .cut :=
  ⟨fun h => value_error_uncut (act_error_iff.mp h), fun h => value_error_uncut (test_error_iff.mp h)⟩

theorem test_eq_read (c : Expression) :
    c.test leftFirst = Call.read ((primitives leftFirst).test c) := by
  funext T
  rcases hc : c.value leftFirst T with e | value
  · rw [test_of_error hc, Call.read_apply, test_error_iff.mpr hc]
  · rw [test_of_ok hc, Call.read_apply, test_ok_iff.mpr ⟨value, hc, rfl⟩]

/-- **`exec` is the interpreter of structured programs.** -/
theorem exec_eq_run (s : Statement) :
    s.exec leftFirst n = s.toCom.run (primitives leftFirst) .cut n := by
  have hlist : ∀ ss : List Statement, (∀ s ∈ ss, s.exec leftFirst n =
      s.toCom.run (primitives leftFirst) .cut n) → Call.inTurn (execs leftFirst n ss) =
        (comOf ss).run (primitives leftFirst) .cut n := by
    intro ss hss
    induction ss with
    | nil => rfl
    | cons s ss ih =>
      obtain ⟨hs, hss⟩ := List.forall_mem_cons.mp hss
      rw [execs, Call.inTurn, hs, ih hss]
      rfl
  induction s using Statement.ind with
  | assignment x e =>
    funext T
    show (do let value ← Call.read (e.value leftFirst); SymbolTable.set x value) T =
      Call.update ((primitives leftFirst).act (x, e)) T
    rcases he : e.value leftFirst T with stop | value
    · rw [Call.bind_of_error (by rw [Call.read_apply, he]),
        Call.update_of_error (act_error_iff.mpr he)]
      rfl
    · rw [Call.bind_of_ok (by rw [Call.read_apply, he]),
        Call.update_of_ok (act_ok_iff.mpr ⟨value, he, rfl⟩)]
      rfl
  | sequence ss ih => exact hlist ss ih
  | ifStatement c t e iht ihe =>
    show (do if ← c.test leftFirst then t.exec leftFirst n else e.exec leftFirst n) = _
    rw [test_eq_read, iht, ihe]
    rfl
  | whileStatement c body ih =>
    show Call.loop .cut (c.test leftFirst) (Call.inTurn (execs leftFirst n body)) n = _
    rw [test_eq_read, hlist body ih]
    rfl

end Meaning

/-! ## How runs end -/

/-- How the statement ends on a table, if it does: whether it returns, throws, or comes to arithmetic
without a defined result, and the table it leaves. -/
def Statement.EndsIn (leftFirst : BinaryClass → Bool) (s : Statement) (T : SymbolTable)
    (r : Except Stop Unit) (U : SymbolTable) : Prop :=
  Finishes (primitives leftFirst) s.toCom T r U

section Exec

variable {leftFirst : BinaryClass → Bool} {n : ℕ} {s : Statement} {T U : SymbolTable}
  {r : Except Stop Unit}

/-- A statement that ends does so with every bound that is large enough. -/
theorem Statement.EndsIn.exec (h : s.EndsIn leftFirst T r U) :
    ∃ N, ∀ n, N ≤ n → (s.exec leftFirst n).Gives T r U := by
  obtain ⟨N, hN⟩ := h.exists_run primitives_neverThrows
  refine ⟨N, fun n hn => ?_⟩
  rw [exec_eq_run]
  exact ⟨(hN.mono hn).result, (hN.mono hn).final⟩

/-- What was not cut off is how the statement ends. -/
theorem endsIn_of_exec (h : (s.exec leftFirst n).Gives T r U) (hr : r ≠ .error .cut) :
    s.EndsIn leftFirst T r U := by
  rw [exec_eq_run] at h
  exact Com.RunsTo.finishes ⟨h.result, h.final, hr⟩

/-- A statement that ends is cut off, or ends that way, with any bound. -/
theorem Statement.EndsIn.exec_or_cut (h : s.EndsIn leftFirst T r U) (n : ℕ) :
    (s.exec leftFirst n).Gives T r U ∨ (s.exec leftFirst n T).result = .error .cut := by
  by_cases hcut : (s.exec leftFirst n T).result = .error .cut
  · exact .inr hcut
  · obtain ⟨hr, hU⟩ := Finishes.unique h (endsIn_of_exec ⟨rfl, rfl⟩ hcut)
    exact .inl ⟨hr, hU⟩

theorem exec_cut_of_endless (h : ¬ ∃ r U, s.EndsIn leftFirst T r U) (n : ℕ) :
    (s.exec leftFirst n T).result = .error .cut := by
  rw [exec_eq_run]
  exact (not_finishes_iff_cut primitives_neverThrows).mp h n

end Exec

section Runs

variable {leftFirst : BinaryClass → Bool} {n : ℕ} {w : World} {p q : ℕ} {P Q : Program}
  {r : Except Stop Unit} {U : SymbolTable}

theorem withTable_injective {T U : SymbolTable} (hq : w.PointsTo q Q)
    (h : w.withTable q T = w.withTable q U) : T = U := by
  have hT := current_of_pointsTo (withTable_pointsTo hq T)
  rw [h, current_of_pointsTo (withTable_pointsTo hq U)] at hT
  exact (Option.some.inj hT).symm

/-- A run on the table of `Q` is one of the structured program. -/
theorem run_runsTo_iff (hq : w.PointsTo q Q) (s : Statement) :
    s.toCom.RunsTo (primitives leftFirst) .cut n Q.symbolTable r U ↔
      (s.run leftFirst n w).result = r ∧ r ≠ .error .cut ∧
        (s.exec leftFirst n Q.symbolTable).final = U := by
  have hrelated : (s.run leftFirst n w).Related _ _ :=
    run_actsAs hq s w Q.symbolTable (withTable_self hq).symm
  rw [hrelated.result, exec_eq_run]
  exact ⟨fun h => ⟨h.result, h.uncut, h.final⟩, fun h => ⟨h.1, h.2.2, h.2.1⟩⟩

/-- No statement ends as a bound does. -/
theorem Statement.EndsIn.uncut {s : Statement} {T : SymbolTable} (h : s.EndsIn leftFirst T r U) :
    r ≠ .error .cut := by
  obtain ⟨n, hn⟩ := h.exists_run primitives_neverThrows
  exact hn.uncut

/-- What a bounded run did is how the statement ends. -/
theorem endsIn_of_run (hq : w.PointsTo q Q) (s : Statement)
    (h : (s.run leftFirst n w).result ≠ .error .cut) :
    ∃ U, s.EndsIn leftFirst Q.symbolTable (s.run leftFirst n w).result U ∧
      (s.run leftFirst n w).final = w.withTable q U := by
  have hrelated : (s.run leftFirst n w).Related _ _ :=
    run_actsAs hq s w Q.symbolTable (withTable_self hq).symm
  exact ⟨_, ((run_runsTo_iff hq s).mpr ⟨rfl, h, rfl⟩).finishes, hrelated.final⟩

/-- A run of the structured program is one on the table of `Q`. -/
theorem run_of_runsTo (hq : w.PointsTo q Q) {s : Statement}
    (h : s.toCom.RunsTo (primitives leftFirst) .cut n Q.symbolTable r U) :
    (s.run leftFirst n w).result = r ∧ (s.run leftFirst n w).final = w.withTable q U := by
  obtain ⟨hresult, -, hfinal⟩ := (run_runsTo_iff hq s).mp h
  have hrelated : (s.run leftFirst n w).Related _ _ :=
    run_actsAs hq s w Q.symbolTable (withTable_self hq).symm
  exact ⟨hresult, hfinal ▸ hrelated.final⟩

/-- A statement that ends does so in every run whose bound is large enough. -/
theorem run_of_endsIn (hq : w.PointsTo q Q) {s : Statement}
    (h : s.EndsIn leftFirst Q.symbolTable r U) : ∃ N, ∀ n, N ≤ n →
      (s.run leftFirst n w).result = r ∧ (s.run leftFirst n w).final = w.withTable q U := by
  obtain ⟨N, hN⟩ := h.exists_run primitives_neverThrows
  exact ⟨N, fun n hn => run_of_runsTo hq (hN.mono hn)⟩

/-- **A run returns, stops, or goes on for ever**; it stops with an exception or on undefined arithmetic.
In a fixed order of the operands, how a program ends, and the table it leaves, is determined by its
statement and the table it starts on: every run with a large enough bound ends that way, every run that is
not cut off does, and a program that ends in no way is cut off by every bound. -/
theorem run_ends_or_not (leftFirst : BinaryClass → Bool) (hP : w.programs[p]? = some P)
    (hq : w.PointsTo q Q) :
    (∀ r U, P.statement.EndsIn leftFirst Q.symbolTable r U → ∃ N, ∀ n, N ≤ n →
      (Program.run leftFirst n p w).result = r ∧
        (Program.run leftFirst n p w).final = w.withTable q U) ∧
    (∀ n, (Program.run leftFirst n p w).result ≠ .error .cut →
      ∃ U, P.statement.EndsIn leftFirst Q.symbolTable (Program.run leftFirst n p w).result U ∧
        (Program.run leftFirst n p w).final = w.withTable q U) ∧
    (∀ r U r' U', P.statement.EndsIn leftFirst Q.symbolTable r U →
      P.statement.EndsIn leftFirst Q.symbolTable r' U' → r' = r ∧ U' = U) ∧
    ((¬ ∃ r U, P.statement.EndsIn leftFirst Q.symbolTable r U) ↔
      ∀ n, (Program.run leftFirst n p w).result = .error .cut) := by
  have hrun : ∀ n, Program.run leftFirst n p w = P.statement.run leftFirst n w := fun n =>
    Program.run_eq hP
  simp only [hrun]
  refine ⟨fun r U h => run_of_endsIn hq h, fun n h => endsIn_of_run hq P.statement h,
    fun r U r' U' h h' => h.unique h', ?_⟩
  refine (not_finishes_iff_cut primitives_neverThrows).trans (forall_congr' fun n => ?_)
  have hrelated : (P.statement.run leftFirst n w).Related _ _ :=
    run_actsAs hq P.statement w Q.symbolTable (withTable_self hq).symm
  rw [hrelated.result, exec_eq_run]

/-- A loop that never ends, and one that ends at once. -/
theorem run_ends_or_not_loop :
    let forever : Statement := .whileStatement (.num 1) []
    let once : Statement := .whileStatement (.num 0) []
    (¬ ∃ r U, forever.EndsIn (fun _ => true) ∅ r U) ∧
      ∃ U, once.EndsIn (fun _ => true) ∅ (.ok ()) U := by
  intro forever once
  let w : World := ⟨[⟨"P", forever, ∅⟩, ⟨"Q", once, ∅⟩], some 0⟩
  have hloop : ∀ n t, (Call.loop Stop.cut (Call.read fun _ => .ok true)
      (Call.inTurn (runs (fun _ => true) 0 [])) n t).result = .error .cut := by
    intro n
    induction n with
    | zero => exact fun _ => rfl
    | succ n ih => exact fun t => ih t
  have hP := run_ends_or_not (fun _ => true) (w := w) (p := 0) (q := 0) (P := ⟨"P", forever, ∅⟩)
    (Q := ⟨"P", forever, ∅⟩) rfl ⟨rfl, rfl⟩
  have hQ := run_ends_or_not (fun _ => true) (w := w) (p := 1) (q := 0) (P := ⟨"Q", once, ∅⟩)
    (Q := ⟨"P", forever, ∅⟩) rfl ⟨rfl, rfl⟩
  obtain ⟨U, hU, -⟩ := hQ.2.1 0 nofun
  exact ⟨hP.2.2.2.mpr fun n => hloop n w, U, hU⟩

end Runs

/-! ## Pre- and postconditions -/

/-- **The proof rules prove exactly what holds of runs**, in a fixed order of the operands: started on a
table with `P`, no run throws or comes to undefined arithmetic, and one that returns leaves a table with
`Q`. -/
theorem proves_iff_runs (leftFirst : BinaryClass → Bool) (P Q : Assertion SymbolTable)
    (s : Statement) : Proves (primitives leftFirst) (fun _ => True) P s.toCom Q ↔
      ∀ (w : World) (q : ℕ) (R : Program), w.PointsTo q R → P R.symbolTable → ∀ n,
        ((s.run leftFirst n w).result = .ok () →
          ∃ T, (s.run leftFirst n w).final = w.withTable q T ∧ Q T) ∧
        ∀ stop, (s.run leftFirst n w).result = .error stop → stop = .cut := by
  rw [proves_iff_valid]
  constructor
  · intro h w q R hq hP n
    by_cases hcut : (s.run leftFirst n w).result = .error .cut
    · rw [hcut]
      exact ⟨nofun, fun stop he => (Except.error.inj he).symm⟩
    · obtain ⟨U, hends, hfinal⟩ := endsIn_of_run hq s hcut
      obtain ⟨hresult, hQ⟩ := h _ hP _ U hends
      rw [hresult]
      exact ⟨fun _ => ⟨U, hfinal, hQ⟩, nofun⟩
  · intro h T hP r U hends
    have hq : (⟨[⟨"P", s, T⟩], some 0⟩ : World).PointsTo 0 ⟨"P", s, T⟩ := ⟨rfl, rfl⟩
    obtain ⟨n, hn⟩ := run_of_endsIn hq hends
    obtain ⟨hresult, hfinal⟩ := hn n (Nat.le_refl n)
    obtain ⟨hreturns, hthrows⟩ := h _ 0 _ hq hP n
    rcases r with stop | _
    · exact absurd (congrArg Except.error (hthrows stop hresult)) (Statement.EndsIn.uncut hends)
    · obtain ⟨V, hV, hQ⟩ := hreturns hresult
      rw [withTable_injective hq (hfinal.symm.trans hV)]
      exact ⟨rfl, hQ⟩

/-- **With loops that go down, the proof rules prove exactly which runs end**: started on a table with
`P`, the run returns, and leaves a table with `Q`. -/
theorem proves_iff_ends (leftFirst : BinaryClass → Bool) (P Q : Assertion SymbolTable)
    (s : Statement) : Proves (primitives leftFirst) WellFounded P s.toCom Q ↔
      ∀ (w : World) (q : ℕ) (R : Program), w.PointsTo q R → P R.symbolTable →
        ∃ n T, (s.run leftFirst n w).result = .ok () ∧
          (s.run leftFirst n w).final = w.withTable q T ∧ Q T := by
  rw [proves_iff_validTotal]
  constructor
  · intro h w q R hq hP
    obtain ⟨U, hends, hQ⟩ := h _ hP
    obtain ⟨n, hn⟩ := run_of_endsIn hq hends
    exact ⟨n, U, (hn n (Nat.le_refl n)).1, (hn n (Nat.le_refl n)).2, hQ⟩
  · intro h T hP
    have hq : (⟨[⟨"P", s, T⟩], some 0⟩ : World).PointsTo 0 ⟨"P", s, T⟩ := ⟨rfl, rfl⟩
    obtain ⟨n, V, hresult, hV, hQ⟩ := h _ 0 _ hq hP
    obtain ⟨U, hends, hfinal⟩ := endsIn_of_run hq s (n := n) (by rw [hresult]; rintro ⟨⟩)
    rw [hresult] at hends
    rw [withTable_injective hq (hV.symm.trans hfinal)] at hQ
    exact ⟨U, hends, hQ⟩

end ProgramAnalysis.Mycalc
