import ProgramAnalysis.Mycalc.Table

/-!
# Whose table a run uses

* `Program.run_related`: a run of one program on the table of another;
* **`run_uses_theProgram`**: a run reads and writes the table of the program that `theProgram` points
  to, and no other;
* `run_writes_other_program`: which need not be the program that runs.
-/

namespace ProgramAnalysis.Mycalc

open Lib

variable {leftFirst : BinaryClass → Bool} {n : ℕ} {w : World} {p q : ℕ} {P Q : Program}

theorem Program.run_eq (hP : w.programs[p]? = some P) :
    Program.run leftFirst n p w = P.statement.run leftFirst n w := by
  rw [Program.run, Call.bind_of_ok (by rw [Call.read_apply])]
  simp only [hP, Call.read_apply, List.nil_append]

/-- The statement of program `p` runs on the table of program `q`. -/
theorem Program.run_related (hP : w.programs[p]? = some P) (hq : w.PointsTo q Q) :
    (Program.run leftFirst n p w).Related (fun v T => v = w.withTable q T)
      (P.statement.exec leftFirst n Q.symbolTable) := by
  rw [Program.run_eq hP]
  exact run_actsAs hq P.statement w Q.symbolTable (withTable_self hq).symm

/-- **A run uses the table of `theProgram`.** All along a run of `P`, every other program is what it was
and `theProgram` points where it did; how the run ends, and the table it leaves, are determined by the
statement of `P` and the table of the program pointed to. A new program has a table of its own, and
nothing else changes. -/
theorem run_uses_theProgram (leftFirst : BinaryClass → Bool) (n : ℕ) {w : World} {p q : ℕ}
    {P Q : Program} (hP : w.programs[p]? = some P) (hq : w.PointsTo q Q) :
    (∀ t, t ∈ (Program.run leftFirst n p w).visited ∨ t = (Program.run leftFirst n p w).final →
      t.theProgram = w.theProgram ∧ (∃ T, t.programs[q]? = some { Q with symbolTable := T }) ∧
        ∀ r, r ≠ q → t.programs[r]? = w.programs[r]?) ∧
    (∀ {w' : World} {p' q' : ℕ} {P' Q' : Program}, w'.programs[p']? = some P' → w'.PointsTo q' Q' →
      P'.statement = P.statement → Q'.symbolTable = Q.symbolTable →
        (Program.run leftFirst n p' w').result = (Program.run leftFirst n p w).result ∧
          (Program.run leftFirst n p' w').final.current =
            (Program.run leftFirst n p w).final.current) ∧
    ∀ name s, (w.construct name s).PointsTo q Q ∧
      (w.construct name s).programs[w.programs.length]? = some ⟨name, s, ∅⟩ ∧
        ∀ r, r < w.programs.length → (w.construct name s).programs[r]? = w.programs[r]? := by
  have hrelated : (Program.run leftFirst n p w).Related (fun v T => v = w.withTable q T)
      (P.statement.exec leftFirst n Q.symbolTable) := Program.run_related hP hq
  refine ⟨fun t ht => ?_, fun {w' p' q' P' Q'} hP' hq' hstatement htable => ?_, fun name s => ?_⟩
  · have hwith : ∃ T, t = w.withTable q T := by
      rcases ht with ht | rfl
      · obtain ⟨T, -, hT⟩ := hrelated.exists_of_mem ht
        exact ⟨T, hT⟩
      · exact ⟨_, hrelated.final⟩
    obtain ⟨T, rfl⟩ := hwith
    exact ⟨rfl, ⟨T, (withTable_pointsTo hq T).program⟩, fun r hr => withTable_of_ne hr T⟩
  · have hrelated' : (Program.run leftFirst n p' w').Related (fun v T => v = w'.withTable q' T)
        (P'.statement.exec leftFirst n Q'.symbolTable) := Program.run_related hP' hq'
    rw [hstatement, htable] at hrelated'
    refine ⟨hrelated'.result.trans hrelated.result.symm, ?_⟩
    rw [hrelated'.final, hrelated.final, current_of_pointsTo (withTable_pointsTo hq' _),
      current_of_pointsTo (withTable_pointsTo hq _)]
  · have hold : ∀ r, r < w.programs.length → (w.construct name s).programs[r]? = w.programs[r]? :=
      fun r hr => List.getElem?_append_left hr
    have hlt : q < w.programs.length := (List.getElem?_eq_some_iff.mp hq.program).1
    exact ⟨⟨hq.pointer, (hold q hlt).trans hq.program⟩, List.getElem?_concat_length, hold⟩

/-- `P` runs while `theProgram` points to `Q`, and keeps its table. -/
theorem run_uses_theProgram_other :
    let P : Program := ⟨"P", .assignment "x" (.num 1), ∅⟩
    let w : World := ⟨[P, ⟨"Q", .sequence [], ∅⟩], some 1⟩
    (Program.run (fun _ => true) 0 0 w).final.programs[0]? = some P := by
  intro P w
  have hframe := (run_uses_theProgram (fun _ => true) 0 (w := w) (p := 0) (q := 1) (P := P) rfl
    ⟨rfl, rfl⟩).1 _ (.inr rfl)
  exact hframe.2.2 0 (by decide)

/-- `P` assigns 1 to `x` while `theProgram` points to `Q`: the table of `Q` is written, not that of
`P`. -/
theorem run_writes_other_program :
    let order : BinaryClass → Bool := fun _ => true
    let w : World := ⟨[⟨"P", .assignment "x" (.num 1), ∅⟩, ⟨"Q", .sequence [], ∅⟩], some 1⟩
    let o := Program.run order 0 0 w
    o.result = .ok () ∧ (o.final.programs[1]?.map fun Q => Q.symbolTable.lookup "x") = some (some 1) ∧
      (o.final.programs[0]?.map fun P => P.symbolTable.lookup "x") = some none ∧
      ((Program.run order 0 0 { w with theProgram := some 0 }).final.programs[0]?.map
        fun P => P.symbolTable.lookup "x") = some (some 1) := by
  refine ⟨rfl, by decide, by decide, by decide⟩

end ProgramAnalysis.Mycalc
