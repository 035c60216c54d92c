import Mathlib.Algebra.BigOperators.Group.Finset.Basic
import ProgramAnalysis.Mycalc.Counting
import ProgramAnalysis.Mycalc.Natural

/-!
# Summing loops

* `accumulate`: the body of a loop that adds the values of an expression up while it counts;
* `summed`, `tableAfter`: the sum so far, and the table after so many rounds;
* `round_endsIn`, `round_overflows`: one round;
* **`summing_loop_ends`**: the loop leaves the sum, or stops at the first sum that does not fit.
-/

namespace ProgramAnalysis.Mycalc

open Lib

/-- `acc := acc + e; x := x + 1`. -/
def accumulate (acc x : String) (e : Expression) : List Statement :=
  [.assignment acc (.binary .AddExpression (.var acc) e), increment x 1]

/-- The sum of the first `j` values onto `a`. -/
def summed (a : ℤ) (f : ℕ → Int32) (j : ℕ) : ℤ := a + ∑ i ∈ Finset.range j, (f i).toInt

/-- The table after `j` rounds, with the counter from `v` and the sum from `a`. -/
def tableAfter (T : SymbolTable) (acc x : String) (v a : ℤ) (f : ℕ → Int32) (j : ℕ) : SymbolTable :=
  (T.insert x (Int32.ofInt (v + j))).insert acc (Int32.ofInt (summed a f j))

theorem summed_succ (a : ℤ) (f : ℕ → Int32) (j : ℕ) :
    summed a f (j + 1) = summed a f j + (f j).toInt := by
  unfold summed
  rw [Finset.sum_range_succ]
  ring

section Round

variable {leftFirst : BinaryClass → Bool} {T : SymbolTable} {acc x : String} {e : Expression}
  {bound : Int32} {v a : ℤ} {f : ℕ → Int32} {j : ℕ}

theorem toInt_ofInt {z : ℤ} (h : FitsInt z) : (Int32.ofInt z).toInt = z :=
  Int32.toInt_ofInt_of_le h.1 h.2

theorem inInt_ofInt {z : ℤ} (h : FitsInt z) : inInt z = .ok (Int32.ofInt z) := if_pos h

theorem lookup_acc : (tableAfter T acc x v a f j).lookup acc = some (Int32.ofInt (summed a f j)) :=
  Finmap.lookup_insert _

theorem lookup_counter (hne : acc ≠ x) :
    (tableAfter T acc x v a f j).lookup x = some (Int32.ofInt (v + j)) := by
  unfold tableAfter
  rw [Finmap.lookup_insert_of_ne _ hne.symm, Finmap.lookup_insert]

theorem lookup_other {y : String} (hacc : y ≠ acc) (hx : y ≠ x) :
    (tableAfter T acc x v a f j).lookup y = T.lookup y := by
  unfold tableAfter
  rw [Finmap.lookup_insert_of_ne _ hacc, Finmap.lookup_insert_of_ne _ hx]

/-- The table before the first round. -/
theorem tableAfter_zero (hne : acc ≠ x) {v a : Int32} (hv : T.lookup x = some v)
    (ha : T.lookup acc = some a) : tableAfter T acc x v.toInt a.toInt f 0 = T := by
  refine Finmap.ext_lookup fun y => ?_
  by_cases hacc : y = acc
  · subst hacc
    rw [lookup_acc, ha]
    simp [summed]
  by_cases hx : y = x
  · subst hx
    rw [lookup_counter hne, hv]
    simp
  · exact lookup_other hacc hx

/-- The test of the loop. -/
theorem test_below (hne : acc ≠ x) (hfits : FitsInt (v + j)) :
    (primitives leftFirst).test (below x bound) (tableAfter T acc x v a f j) =
      .ok (decide (v + j < bound.toInt)) := by
  have hvar : (Expression.var x).value leftFirst (tableAfter T acc x v a f j) =
      .ok (Int32.ofInt (v + j)) := by
    rw [Expression.value, lookup_counter hne, Option.elim_some]
  refine test_ok_iff.mpr ⟨_, value_binary_of_ok hvar rfl, ?_⟩
  have hlt : Int32.ofInt (v + j) < bound ↔ v + j < bound.toInt := by
    rw [Int32.lt_iff_toInt_lt, toInt_ofInt hfits]
  by_cases h : v + j < bound.toInt
  · rw [if_pos (hlt.mpr h), decide_eq_true h]
    rfl
  · rw [if_neg (mt hlt.mp h), decide_eq_false h]
    rfl

/-- The value that the round adds. -/
theorem value_summand (hvars : acc ∉ e.vars)
    (hf : e.value leftFirst (T.insert x (Int32.ofInt (v + j))) = .ok (f j)) :
    e.value leftFirst (tableAfter T acc x v a f j) = .ok (f j) := by
  rw [← hf]
  refine value_congr fun y hy => Finmap.lookup_insert_of_ne _ ?_
  rintro rfl
  exact hvars hy

/-- The sum that the round makes. -/
theorem value_sum (hvars : acc ∉ e.vars)
    (hf : e.value leftFirst (T.insert x (Int32.ofInt (v + j))) = .ok (f j))
    (hsum : FitsInt (summed a f j)) :
    (Expression.binary .AddExpression (.var acc) e).value leftFirst (tableAfter T acc x v a f j) =
      inInt (summed a f (j + 1)) := by
  have hvar : (Expression.var acc).value leftFirst (tableAfter T acc x v a f j) =
      .ok (Int32.ofInt (summed a f j)) := by
    rw [Expression.value, lookup_acc, Option.elim_some]
  rw [value_binary_of_ok hvar (value_summand hvars hf), BinaryClass.apply, toInt_ofInt hsum,
    summed_succ]

/-- **A round.** The sum goes on and the counter too. -/
theorem round_endsIn (hne : acc ≠ x) (hvars : acc ∉ e.vars)
    (hf : e.value leftFirst (T.insert x (Int32.ofInt (v + j))) = .ok (f j))
    (hcount : FitsInt (v + j)) (hnext : FitsInt (v + (j + 1 : ℕ)))
    (hsum : FitsInt (summed a f j)) (hfits : FitsInt (summed a f (j + 1))) :
    Finishes (primitives leftFirst) (comOf (accumulate acc x e)) (tableAfter T acc x v a f j)
      (.ok ()) (tableAfter T acc x v a f (j + 1)) := by
  let U : SymbolTable := (tableAfter T acc x v a f j).insert acc (Int32.ofInt (summed a f (j + 1)))
  have hadd : (primitives leftFirst).act (acc, .binary .AddExpression (.var acc) e)
      (tableAfter T acc x v a f j) = .ok U :=
    act_ok_iff.mpr ⟨_, (value_sum hvars hf hsum).trans (inInt_ofInt hfits), rfl⟩
  have hvar : (Expression.var x).value leftFirst U = .ok (Int32.ofInt (v + j)) := by
    rw [Expression.value, Finmap.lookup_insert_of_ne _ hne.symm, lookup_counter hne, Option.elim_some]
  have hstep : (Expression.binary .AddExpression (.var x) (.num 1)).value leftFirst U =
      .ok (Int32.ofInt (v + (j + 1 : ℕ))) := by
    rw [value_binary_of_ok hvar rfl, BinaryClass.apply, toInt_ofInt hcount, ← inInt_ofInt hnext]
    show inInt (v + j + 1) = _
    rw [Nat.cast_succ, add_assoc]
  have htable : U.insert x (Int32.ofInt (v + (j + 1 : ℕ))) = tableAfter T acc x v a f (j + 1) := by
    refine Finmap.ext_lookup fun y => ?_
    by_cases hx : y = x
    · subst hx
      rw [Finmap.lookup_insert, lookup_counter hne]
    rw [Finmap.lookup_insert_of_ne _ hx]
    by_cases hacc : y = acc
    · subst hacc
      rw [Finmap.lookup_insert, lookup_acc]
    · rw [Finmap.lookup_insert_of_ne _ hacc, lookup_other hacc hx, lookup_other hacc hx]
  exact .seq (.act hadd) (.seq (.act (act_ok_iff.mpr ⟨_, hstep, htable⟩)) (.skip _))

/-- **A round whose sum does not fit** stops before it writes. -/
theorem round_overflows (hvars : acc ∉ e.vars)
    (hf : e.value leftFirst (T.insert x (Int32.ofInt (v + j))) = .ok (f j))
    (hsum : FitsInt (summed a f j)) (hover : ¬ FitsInt (summed a f (j + 1))) :
    Finishes (primitives leftFirst) (comOf (accumulate acc x e)) (tableAfter T acc x v a f j)
      (.error .undefined) (tableAfter T acc x v a f j) := by
  refine .seqThrows (.actThrows (act_error_iff.mpr ?_))
  rw [value_sum hvars hf hsum, inInt_of_not_fits hover]

end Round

/-- **A summing loop.** `e` does not read the sum, and has the value `f i` when the counter is `i` above
its start. While the sums fit, the loop leaves their last one and the counter at the bound; at the first
sum that does not fit it stops, with the sum and the counter of the round before. -/
theorem summing_loop_ends (leftFirst : BinaryClass → Bool) {w : World} {q : ℕ} {Q : Program}
    {acc x : String} {e : Expression} {bound v a : Int32} {f : ℕ → Int32} (hq : w.PointsTo q Q)
    (hv : Q.symbolTable.lookup x = some v) (ha : Q.symbolTable.lookup acc = some a) (hne : acc ≠ x)
    (hvars : acc ∉ e.vars) (hf : ∀ i : ℕ, v.toInt + i < bound.toInt →
      e.value leftFirst (Q.symbolTable.insert x (Int32.ofInt (v.toInt + i))) = .ok (f i)) :
    let loop := Statement.whileStatement (below x bound) (accumulate acc x e)
    let rounds := (bound.toInt - v.toInt).toNat
    let after := tableAfter Q.symbolTable acc x v.toInt a.toInt f
    ((∀ j ≤ rounds, FitsInt (summed a.toInt f j)) → ∃ N, ∀ n, N ≤ n →
      (loop.run leftFirst n w).result = .ok () ∧
        (loop.run leftFirst n w).final = w.withTable q (after rounds)) ∧
    ∀ j < rounds, (∀ i ≤ j, FitsInt (summed a.toInt f i)) → ¬ FitsInt (summed a.toInt f (j + 1)) →
      ∃ N, ∀ n, N ≤ n → (loop.run leftFirst n w).result = .error .undefined ∧
        (loop.run leftFirst n w).final = w.withTable q (after j) := by
  intro loop rounds after
  have hcount : ∀ j ≤ rounds, FitsInt (v.toInt + j) := by
    intro j hj
    have hleast := v.le_toInt
    have hmost := v.toInt_lt
    have hbound := bound.toInt_lt
    constructor <;> omega
  have hbelow : ∀ j < rounds, v.toInt + j < bound.toInt := fun j hj => by omega
  -- the rounds before `k`, whose sums fit
  have hrounds : ∀ k ≤ rounds, (∀ i ≤ k, FitsInt (summed a.toInt f i)) → ∀ i < k,
      (primitives leftFirst).test (below x bound) (after i) = .ok true ∧
        Finishes (primitives leftFirst) (comOf (accumulate acc x e)) (after i) (.ok ())
          (after (i + 1)) := by
    intro k hk hsums i hi
    have hlt := hbelow i (lt_of_lt_of_le hi hk)
    refine ⟨?_, round_endsIn hne hvars (hf i hlt) (hcount i (by omega)) (hcount (i + 1) (by omega))
      (hsums i (by omega)) (hsums (i + 1) hi)⟩
    rw [test_below hne (hcount i (by omega)), decide_eq_true hlt]
  have hends : ∀ {r k}, k ≤ rounds → (∀ i ≤ k, FitsInt (summed a.toInt f i)) →
      loop.EndsIn leftFirst (after k) r (after k) → ∃ N, ∀ n, N ≤ n →
        (loop.run leftFirst n w).result = r ∧
          (loop.run leftFirst n w).final = w.withTable q (after k) := by
    intro r k hk hsums h
    refine run_of_endsIn hq ?_
    have hall : loop.EndsIn leftFirst (after 0) r (after k) := Finishes.of_rounds (hrounds k hk hsums) h
    rwa [show after 0 = Q.symbolTable from tableAfter_zero hne hv ha] at hall
  refine ⟨fun hsums => hends (Nat.le_refl rounds) hsums ?_, fun j hj hsums hover =>
    hends (Nat.le_of_lt hj) hsums ?_⟩
  · refine .loopDone ?_
    rw [test_below hne (hcount rounds (Nat.le_refl rounds)), decide_eq_false (by omega)]
  · have hlt := hbelow j hj
    refine .loop ?_ (.seqThrows (round_overflows hvars (hf j hlt) (hsums j (Nat.le_refl j)) hover))
    rw [test_below hne (hcount j (Nat.le_of_lt hj)), decide_eq_true hlt]

/-- `x` from 1 to 11 and the sum of its values: `s` is 55 at the end. -/
theorem summing_loop_ends_fiftyFive :
    let body := accumulate "s" "x" (.var "x")
    let T : SymbolTable := ((∅ : SymbolTable).insert "x" 1).insert "s" 0
    let w : World := ⟨[⟨"P4", .sequence body, T⟩], some 0⟩
    ∃ U N, U.lookup "s" = some 55 ∧ U.lookup "x" = some 11 ∧ ∀ n, N ≤ n →
      ((Statement.whileStatement (below "x" 11) body).run (fun _ => true) n w).final =
        w.withTable 0 U := by
  intro body T w
  obtain ⟨hall, -⟩ := @summing_loop_ends (fun _ => true) w 0 _ "s" "x" (.var "x") 11 1 0
    (fun i => Int32.ofInt (1 + i)) ⟨rfl, rfl⟩ rfl rfl (by decide) (by decide) fun i _ => by
      rw [Expression.value, Finmap.lookup_insert, Option.elim_some]
      rfl
  obtain ⟨N, hN⟩ := hall (by decide)
  exact ⟨_, N, by decide, by decide, fun n hn => (hN n hn).2⟩

end ProgramAnalysis.Mycalc
