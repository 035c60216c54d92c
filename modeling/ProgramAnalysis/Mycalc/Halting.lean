import Mathlib.Data.Fintype.BigOperators
import Mathlib.Data.Fintype.Option
import ProgramAnalysis.Lib.Recur
import ProgramAnalysis.Mycalc.Footprint
import ProgramAnalysis.Mycalc.Natural

/-!
# Which runs end

A run writes the names that its statement assigns, with values of `int`, so it passes through finitely
many tables.

* `View`, `Statement.view`: what a table says of these names;
* `Statement.bound`: how many views there are;
* **`ends_iff_within_bound`**: a program ends exactly when it does so with so many rounds for each loop;
* **`loop_returned`**: a loop that returns made its condition false, by an assignment to a name of it.
-/

namespace ProgramAnalysis.Mycalc

open Lib

/-- For each name assigned, its value, or that it has none. -/
abbrev View (s : Statement) : Type := s.targets → Option (Fin (2 ^ 32))

def Statement.view (s : Statement) (T : SymbolTable) : View s :=
  fun x => (T.lookup x.1).map fun value => value.toBitVec.toFin

/-- Rounds of a loop beyond which the statement does not end. -/
def Statement.bound (s : Statement) : ℕ := (2 ^ 32 + 1) ^ s.targets.card

theorem card_view (s : Statement) : Fintype.card (View s) = s.bound := by
  rw [Fintype.card_fun, Fintype.card_option, Fintype.card_fin, Fintype.card_coe]
  rfl

section Views

variable {leftFirst : BinaryClass → Bool} {s : Statement} {T : SymbolTable}

/-- Tables that say the same of the names assigned and of all others are the same. -/
theorem view_injOn (s : Statement) (T : SymbolTable) :
    Set.InjOn s.view {U | ChangesIn SymbolTable.look (s.targets : Set String) T U} := by
  intro U hU V hV hview
  refine Finmap.ext_lookup fun x => ?_
  by_cases hx : x ∈ s.targets
  · have hvalue := congrFun hview ⟨x, hx⟩
    refine Option.map_injective (fun v w h => ?_) hvalue
    exact Int32.toBitVec_inj.mp (BitVec.toFin_inj.mp h)
  · exact (hU x hx).trans (hV x hx).symm

theorem targets_of_mem_acts {a : String × Expression} (s : Statement) (h : a ∈ s.toCom.acts) :
    a.1 ∈ s.targets := by
  have hlist : ∀ ss : List Statement, (∀ s ∈ ss, a ∈ s.toCom.acts → a.1 ∈ s.targets) →
      a ∈ (comOf ss).acts → a.1 ∈ targetsOf ss := by
    intro ss hss ha
    induction ss with
    | nil => exact ha.elim
    | cons s ss ih =>
      obtain ⟨hs, hss⟩ := List.forall_mem_cons.mp hss
      rcases ha with ha | ha
      · exact Finset.mem_union_left _ (hs ha)
      · exact Finset.mem_union_right _ (ih hss ha)
  induction s using Statement.ind with
  | assignment x e =>
    cases h
    exact Finset.mem_singleton_self x
  | sequence ss ih => exact hlist ss ih h
  | ifStatement c t e iht ihe =>
    rcases h with h | h
    · exact Finset.mem_union_left _ (iht h)
    · exact Finset.mem_union_right _ (ihe h)
  | whileStatement c body ih => exact hlist body ih h

/-- The assignments of a statement leave all other names alone. -/
theorem toCom_keeps (leftFirst : BinaryClass → Bool) (s : Statement) (T : SymbolTable) :
    s.toCom.Keeps (primitives leftFirst)
      {U | ChangesIn SymbolTable.look (s.targets : Set String) T U} := by
  rintro ⟨x, e⟩ ha U V hU hact y hy
  obtain ⟨value, -, rfl⟩ := act_ok_iff.mp hact
  have hxy : y ≠ x := fun h => hy (h ▸ targets_of_mem_acts s ha)
  exact (Finmap.lookup_insert_of_ne U hxy).trans (hU y hy)

/-- A statement that ends does so within its bound. -/
theorem Statement.EndsIn.runsTo {r : Except Stop Unit} {U : SymbolTable} {n : ℕ}
    (h : s.EndsIn leftFirst T r U) (hn : s.bound ≤ n) :
    s.toCom.RunsTo (primitives leftFirst) .cut n T r U :=
  Finishes.runsTo_of_card_le primitives_neverThrows (view_injOn s T) ((card_view s).trans_le hn)
    (toCom_keeps leftFirst s T) (fun _ _ => rfl) h

end Views

section Runs

variable {w : World} {p q : ℕ} {P Q : Program}

/-- **Whether a program ends is decided by a bound.** In a fixed order of the operands, a program that
assigns `k` names ends, in whatever way (it returns, throws, or comes to undefined arithmetic), exactly
when it does so with at most `(2 ^ 32 + 1) ^ k` rounds each time it comes to a loop. With more rounds it
ends in the same way and in the same state; one that needs more goes on for ever. -/
theorem ends_iff_within_bound (leftFirst : BinaryClass → Bool) (hP : w.programs[p]? = some P)
    (hq : w.PointsTo q Q) :
    ((∃ r U, P.statement.EndsIn leftFirst Q.symbolTable r U) ↔
      (Program.run leftFirst P.statement.bound p w).result ≠ .error .cut) ∧
    (∀ r U, P.statement.EndsIn leftFirst Q.symbolTable r U → ∀ n, P.statement.bound ≤ n →
      (Program.run leftFirst n p w).result = r ∧
        (Program.run leftFirst n p w).final = w.withTable q U) ∧
    ∀ n, P.statement.bound ≤ n → (Program.run leftFirst n p w).result =
      (Program.run leftFirst P.statement.bound p w).result := by
  have hrun : ∀ n, Program.run leftFirst n p w = P.statement.run leftFirst n w := fun n =>
    Program.run_eq hP
  simp only [hrun]
  have hends : ∀ r U, P.statement.EndsIn leftFirst Q.symbolTable r U → ∀ n, P.statement.bound ≤ n →
      (P.statement.run leftFirst n w).result = r ∧
        (P.statement.run leftFirst n w).final = w.withTable q U := fun r U h n hn =>
    run_of_runsTo hq (h.runsTo hn)
  have hback : ∀ n, (P.statement.run leftFirst n w).result ≠ .error .cut →
      ∃ r U, P.statement.EndsIn leftFirst Q.symbolTable r U := by
    intro n h
    obtain ⟨U, hU, -⟩ := endsIn_of_run hq P.statement h
    exact ⟨_, U, hU⟩
  refine ⟨⟨?_, hback _⟩, hends, fun n hn => ?_⟩
  · rintro ⟨r, U, h⟩
    rw [(hends r U h _ (Nat.le_refl _)).1]
    exact h.uncut
  · by_cases h : ∃ r U, P.statement.EndsIn leftFirst Q.symbolTable r U
    · obtain ⟨r, U, h⟩ := h
      rw [(hends r U h n hn).1, (hends r U h _ (Nat.le_refl _)).1]
    · -- a statement that does not end is cut off by every bound
      have hcut : ∀ n, (P.statement.run leftFirst n w).result = .error .cut := fun n =>
        by_contra fun hn => h (hback n hn)
      rw [hcut n, hcut]

/-- A loop with nothing to assign, whose condition holds, goes on for ever. -/
theorem ends_iff_within_bound_forever :
    ¬ ∃ r U, (Statement.whileStatement (.num 1) []).EndsIn (fun _ => true) ∅ r U := by
  intro h
  let P : Program := ⟨"P", .whileStatement (.num 1) [], ∅⟩
  have hP := ends_iff_within_bound (fun _ => true) (w := ⟨[P], some 0⟩) (p := 0) (q := 0) (P := P)
    (Q := P) rfl ⟨rfl, rfl⟩
  exact hP.1.mp h rfl

/-- **What a loop leaves when it returns**: a table where its condition is 0. That is the table it
started on if the condition was 0 there; otherwise a name of the condition has been changed, by an
assignment in the body. -/
theorem loop_returned (leftFirst : BinaryClass → Bool) (n : ℕ) {c : Expression}
    {body : List Statement} (hq : w.PointsTo q Q)
    (h : ((Statement.whileStatement c body).run leftFirst n w).result = .ok ()) :
    ∃ U, ((Statement.whileStatement c body).run leftFirst n w).final = w.withTable q U ∧
      c.value leftFirst U = .ok 0 ∧ (c.value leftFirst Q.symbolTable = .ok 0 → U = Q.symbolTable) ∧
      (c.value leftFirst Q.symbolTable ≠ .ok 0 →
        ∃ x ∈ c.vars ∩ targetsOf body, U.lookup x ≠ Q.symbolTable.lookup x) := by
  obtain ⟨U, hends, hfinal⟩ := endsIn_of_run hq (.whileStatement c body) (by rw [h]; rintro ⟨⟩)
  rw [h] at hends
  have hfalse : ∀ T, (primitives leftFirst).test c T = .ok false ↔ c.value leftFirst T = .ok 0 := by
    intro T
    rw [test_ok_iff]
    constructor
    · rintro ⟨value, hvalue, hzero⟩
      have hvalue0 : value = 0 := by simpa using hzero
      rw [hvalue, hvalue0]
    · exact fun hvalue => ⟨0, hvalue, rfl⟩
  obtain ⟨hlast, hfirst⟩ := Finishes.loop_end hends rfl
  rw [hfalse] at hlast hfirst
  refine ⟨U, hfinal, hlast, hfirst, fun hne => ?_⟩
  by_contra hsame
  have hkept : ChangesIn SymbolTable.look (targetsOf body : Set String) Q.symbolTable U :=
    Finishes.keeps hends (toCom_keeps leftFirst (.whileStatement c body) Q.symbolTable)
      fun _ _ => rfl
  refine hne ((value_congr fun x hx => ?_).trans hlast)
  by_cases hbody : x ∈ targetsOf body
  · by_contra hchanged
    exact hsame ⟨x, Finset.mem_inter.mpr ⟨hx, hbody⟩, fun heq => hchanged heq.symm⟩
  · exact (hkept x hbody).symm

/-- The loop `while (x) x := x - 1` from 2. -/
theorem loop_returned_countdown :
    let body : List Statement := [.assignment "x" (.binary .SubExpression (.var "x") (.num 1))]
    let T : SymbolTable := Finmap.singleton "x" 2
    let w : World := ⟨[⟨"P", .sequence body, T⟩], some 0⟩
    ∃ U, ((Statement.whileStatement (.var "x") body).run (fun _ => true) 2 w).final =
      w.withTable 0 U ∧ U.lookup "x" ≠ T.lookup "x" := by
  intro body T w
  have hrun : ((Statement.whileStatement (.var "x") body).run (fun _ => true) 2 w).result = .ok () := rfl
  obtain ⟨U, hfinal, -, -, hchanged⟩ := loop_returned (fun _ => true) 2 (w := w) (q := 0)
    (Q := ⟨"P", .sequence body, T⟩) ⟨rfl, rfl⟩ hrun
  obtain ⟨x, hx, hne⟩ := hchanged (by decide)
  rw [Finset.mem_singleton.mp (Finset.mem_inter.mp hx).1] at hne
  exact ⟨U, hfinal, hne⟩

end Runs

end ProgramAnalysis.Mycalc
