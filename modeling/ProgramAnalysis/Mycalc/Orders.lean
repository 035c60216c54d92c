import ProgramAnalysis.Lib.Alike
import ProgramAnalysis.Mycalc.Global

/-!
# The order of evaluation

* `evaluate_still`: evaluating an expression leaves the world alone, wherever `theProgram` points;
* `value_alike`, `evaluate_matches`: an expression has the same value in any order of evaluation, or
  stops in any;
* **`order_irrelevant`**: so the order shows in nothing but in how a run stops that does stop.
-/

namespace ProgramAnalysis.Mycalc

open Lib

/-- Stops of which both are the bound on the rounds, or neither. -/
def CutAlike (e d : Stop) : Prop := e = .cut ↔ d = .cut

/-- Stops that are not the bound on the rounds. -/
def Uncut (e d : Stop) : Prop := e ≠ .cut ∧ d ≠ .cut

theorem Uncut.of_ne {e : Stop} (h : e ≠ .cut) : Uncut e e := ⟨h, h⟩

theorem Uncut.cutAlike {e d : Stop} (h : Uncut e d) : CutAlike e d :=
  iff_of_false h.1 h.2

section Evaluate

variable {leftFirst leftFirst' : BinaryClass → Bool} {w : World}

theorem theTable_get_still (w : World) (name : String) :
    ∃ x, theTable (SymbolTable.get name) w = ⟨x, w, []⟩ ∧ Except.Alike Uncut x x := by
  rw [SymbolTable.get_eq_read]
  rcases hp : w.theProgram with - | p
  · refine ⟨.error .null, ?_, .error (.of_ne Stop.noConfusion)⟩
    simp only [theTable, hp, Call.fail_apply]
  rcases hP : w.programs[p]? with - | P
  · refine ⟨.error .null, ?_, .error (.of_ne Stop.noConfusion)⟩
    simp only [theTable, hp, hP, Call.fail_apply]
  · have hstill : w.withTable p P.symbolTable = w := withTable_self ⟨hp, hP⟩
    refine ⟨(P.symbolTable.lookup name).elim (.error (SymbolTable.notFound name)) .ok, ?_, ?_⟩
    · simp only [theTable, hp, hP, Call.read_apply, hstill, List.map_nil]
    · rcases P.symbolTable.lookup name with - | value
      · exact .error (.of_ne Stop.noConfusion)
      · exact .ok value

theorem BinaryClass.apply_alike (cls : BinaryClass) (l r : Int32) :
    Except.Alike Uncut (cls.apply l r) (cls.apply l r) := by
  rcases h : cls.apply l r with e | v
  · cases BinaryClass.apply_error h
    exact .error (.of_ne Stop.noConfusion)
  · exact .ok v

/-- A node whose operands leave the world alone. -/
theorem evaluate_binary {cls : BinaryClass} {left right : Expression} {x y : Except Stop Int32}
    (hl : left.evaluate leftFirst w = ⟨x, w, []⟩) (hr : right.evaluate leftFirst w = ⟨y, w, []⟩) :
    (Expression.binary cls left right).evaluate leftFirst w =
      ⟨if leftFirst cls then x >>= fun l => y >>= fun r => cls.apply l r
        else y >>= fun r => x >>= fun l => cls.apply l r, w, []⟩ := by
  have hboth : ∀ {m k : Call Stop World Int32} {x y : Except Stop Int32}
      {f : Int32 → Int32 → Except Stop Int32}, m w = ⟨x, w, []⟩ → k w = ⟨y, w, []⟩ →
        (do let a ← m; let b ← k; Call.read fun _ => f a b) w =
          ⟨x >>= fun a => y >>= fun b => f a b, w, []⟩ := by
    intro m k x y f hm hk
    rcases x with e | a
    · rw [Call.bind_of_error (congrArg Outcome.result hm), hm]
      rfl
    · rw [Call.bind_of_ok (congrArg Outcome.result hm), hm]
      rcases y with e | b
      · rw [Call.bind_of_error (congrArg Outcome.result hk), hk]
        rfl
      · rw [Call.bind_of_ok (congrArg Outcome.result hk), hk]
        rfl
  rw [Expression.evaluate]
  split_ifs
  · exact hboth hl hr
  · exact hboth hr hl

/-- **Values in any order.** Evaluating an expression leaves the world alone; its value is the same in
any order, and where it has none in one order it has none in another. -/
theorem evaluate_still (leftFirst leftFirst' : BinaryClass → Bool) (e : Expression) (w : World) :
    ∃ x x', e.evaluate leftFirst w = ⟨x, w, []⟩ ∧ e.evaluate leftFirst' w = ⟨x', w, []⟩ ∧
      Except.Alike Uncut x x' := by
  induction e with
  | num value => exact ⟨.ok value, .ok value, rfl, rfl, .ok value⟩
  | var name =>
    obtain ⟨x, hx, halike⟩ := theTable_get_still w name
    exact ⟨x, x, hx, hx, halike⟩
  | binary cls left right ihl ihr =>
    obtain ⟨x, x', hx, hx', hleft⟩ := ihl
    obtain ⟨y, y', hy, hy', hright⟩ := ihr
    refine ⟨_, _, evaluate_binary hx hy, evaluate_binary hx' hy', ?_⟩
    have happly := cls.apply_alike
    split_ifs
    · exact hleft.bind fun l => hright.bind fun r => happly l r
    · exact .swap hleft hright happly
    · exact .swap hright hleft fun r l => happly l r
    · exact hright.bind fun r => hleft.bind fun l => happly l r

theorem evaluate_matches (e : Expression) :
    Call.Matches CutAlike Eq (e.evaluate leftFirst) (e.evaluate leftFirst') := by
  rintro w _ rfl
  obtain ⟨x, x', hx, hx', halike⟩ := evaluate_still leftFirst leftFirst' e w
  rw [hx, hx']
  exact ⟨halike.mono fun _ _ => Uncut.cutAlike, rfl, .nil⟩

theorem holds_matches (c : Expression) :
    Call.Matches CutAlike Eq (c.holds leftFirst) (c.holds leftFirst') :=
  (evaluate_matches c).bind fun value => .ret (value != 0)

variable {n : ℕ}

/-- Running a statement in any order of evaluation. -/
theorem run_matches (s : Statement) :
    Call.Matches CutAlike Eq (s.run leftFirst n) (s.run leftFirst' n) := by
  have hlist : ∀ ss : List Statement, (∀ s ∈ ss, Call.Matches CutAlike Eq (s.run leftFirst n)
      (s.run leftFirst' n)) → List.Forall₂ (Call.Matches CutAlike Eq) (runs leftFirst n ss)
        (runs leftFirst' n ss) := by
    intro ss hss
    induction ss with
    | nil => exact .nil
    | cons s ss ih =>
      obtain ⟨hs, hss⟩ := List.forall_mem_cons.mp hss
      exact .cons hs (ih hss)
  have hsame : ∀ e, CutAlike e e := fun _ => Iff.rfl
  induction s using Statement.ind with
  | assignment x e => exact (evaluate_matches e).bind fun value => .refl hsame _
  | sequence ss ih => exact .inTurn (hlist ss ih)
  | ifStatement c t e iht ihe => exact (holds_matches c).bind fun _ => .ite iht ihe
  | whileStatement c body ih => exact .loop (hsame _) (holds_matches c) (.inTurn (hlist body ih)) n

end Evaluate

/-- **The order of evaluation is irrelevant**, but for how a run stops: with which exception, or with an
exception or undefined arithmetic. In whatever order each class of node evaluates its operands, a run of a
program writes the same states in turn and leaves the same one, wherever `theProgram` points; it returns
in one order exactly when it returns in another, and is cut off exactly when it is in another. -/
theorem order_irrelevant (leftFirst leftFirst' : BinaryClass → Bool) (n p : ℕ) (w : World) :
    (Program.run leftFirst n p w).visited = (Program.run leftFirst' n p w).visited ∧
      (Program.run leftFirst n p w).final = (Program.run leftFirst' n p w).final ∧
      ((Program.run leftFirst n p w).result = .ok () ↔
        (Program.run leftFirst' n p w).result = .ok ()) ∧
      ((Program.run leftFirst n p w).result = .error .cut ↔
        (Program.run leftFirst' n p w).result = .error .cut) := by
  have hsame : ∀ e, CutAlike e e := fun _ => Iff.rfl
  have hmatches : Call.Matches CutAlike Eq (Program.run leftFirst n p)
      (Program.run leftFirst' n p) := by
    refine Call.Matches.bind (.refl hsame _) fun P => ?_
    cases P with
    | none => exact .refl hsame _
    | some P => exact run_matches P.statement
  obtain ⟨hresult, hfinal, hvisited⟩ := hmatches w w rfl
  exact ⟨List.forall₂_eq_eq_eq ▸ hvisited, hfinal, hresult.ok_iff (),
    hresult.error_iff fun _ _ h => h⟩

end ProgramAnalysis.Mycalc
