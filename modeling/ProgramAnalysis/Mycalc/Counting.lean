import Mathlib.Data.Rat.Floor
import ProgramAnalysis.Lib.Cut
import ProgramAnalysis.Mycalc.Exact
import ProgramAnalysis.Mycalc.Footprint

/-!
# Counting loops

* `below`, `increment`, `roundsTo`: the test and the step of a counting loop, and how often it is made;
* `ComesToRun`: the elements of the body a run comes to, and in which state;
* `Counted`: the states in which the counter has a given value;
* `round_ends`: one round adds the step, whatever the other elements do to other names;
* **`counting_loop_ends`**: the loop ends after that many rounds.
-/

namespace ProgramAnalysis.Mycalc

open Lib Filter

/-! ## Counting loops -/

/-- `x < bound`. -/
def below (x : String) (bound : Int32) : Expression :=
  .binary .LessThanExpression (.var x) (.num bound)

/-- `x := x + step`. -/
def increment (x : String) (step : Int32) : Statement :=
  .assignment x (.binary .AddExpression (.var x) (.num step))

/-- The steps from `v` to `bound`. -/
def roundsTo (v bound step : ℤ) : ℤ := max 0 ⌈((bound - v : ℤ) : ℚ) / step⌉

/-- The run of a loop from `w` comes to run an element of its body in `t`: some rounds are made, the test
holds, and the elements before it return. -/
def ComesToRun (leftFirst : BinaryClass → Bool) (c : Expression) (body : List Statement) (w : World)
    (s : Statement) (t : World) : Prop :=
  ∃ n k u front back, body = front ++ s :: back ∧
    Call.Rounds (c.holds leftFirst) (Call.inTurn (runs leftFirst n body)) w k u ∧
    (c.holds leftFirst u).result = .ok true ∧
    (Call.inTurn (runs leftFirst n front) (c.holds leftFirst u).final).result = .ok () ∧
    t = (Call.inTurn (runs leftFirst n front) (c.holds leftFirst u).final).final

/-- A step is made while the bound is not reached. -/
theorem lt_roundsTo_iff {v bound step : ℤ} (hstep : 1 ≤ step) (j : ℕ) :
    j < (roundsTo v bound step).toNat ↔ v + j * step < bound := by
  have hpos : (0 : ℚ) < step := by exact_mod_cast hstep
  have hj : ¬ (j : ℤ) < 0 := not_lt.mpr (Int.natCast_nonneg j)
  rw [Int.lt_toNat, roundsTo, lt_max_iff, or_iff_right hj, Int.lt_ceil, lt_div_iff₀ hpos]
  norm_cast
  rw [lt_sub_iff_add_lt']

theorem roundsTo_of_le {v bound step : ℤ} (hstep : 1 ≤ step) (h : bound ≤ v) :
    (roundsTo v bound step).toNat = 0 := by
  by_contra hne
  have hlt := (lt_roundsTo_iff hstep 0).mp (Nat.pos_of_ne_zero hne)
  omega

theorem roundsTo_of_lt {v bound step : ℤ} (hstep : 1 ≤ step) (h : v < bound) :
    ((roundsTo v bound step).toNat : ℤ) = ⌈((bound - v : ℤ) : ℚ) / step⌉ := by
  have hpos : 0 < (roundsTo v bound step).toNat := (lt_roundsTo_iff hstep 0).mpr (by omega)
  rw [Int.lt_toNat, roundsTo] at hpos
  rw [roundsTo]
  omega

/-- The last step passes the bound by less than a step. -/
theorem roundsTo_lands {v bound step : ℤ} (hstep : 1 ≤ step) (h : v < bound) :
    bound ≤ v + (roundsTo v bound step).toNat * step ∧
      v + (roundsTo v bound step).toNat * step ≤ bound + step - 1 := by
  have hreached := mt (lt_roundsTo_iff hstep _).mpr (lt_irrefl (roundsTo v bound step).toNat)
  have hpos : 0 < (roundsTo v bound step).toNat := (lt_roundsTo_iff hstep 0).mpr (by omega)
  have hbefore : v + ((roundsTo v bound step).toNat - 1 : ℕ) * step < bound :=
    (lt_roundsTo_iff hstep _).mp (Nat.sub_lt hpos Nat.one_pos)
  rw [Nat.cast_sub hpos, sub_mul] at hbefore
  omega

/-! ## Runs that are cut off later -/

section Run

variable {leftFirst : BinaryClass → Bool} {w : World} {q : ℕ} {Q : Program}

theorem runs_eq_map (n : ℕ) (ss : List Statement) :
    runs leftFirst n ss = ss.map fun s => s.run leftFirst n := by
  induction ss with
  | nil => rfl
  | cons s ss ih => rw [runs, ih, List.map_cons]

/-- A run that is not cut off is the same with a later cut. -/
theorem run_extends {n m : ℕ} (hnm : n ≤ m) (s : Statement) :
    Call.Extends .cut (s.run leftFirst n) (s.run leftFirst m) := by
  have hlist : ∀ ss : List Statement, (∀ s ∈ ss, Call.Extends .cut (s.run leftFirst n)
      (s.run leftFirst m)) → Call.Extends .cut (Call.inTurn (runs leftFirst n ss))
        (Call.inTurn (runs leftFirst m ss)) := by
    intro ss hss
    rw [runs_eq_map, runs_eq_map]
    refine .inTurn (List.forall₂_map_left_iff.mpr (List.forall₂_map_right_iff.mpr ?_))
    exact List.forall₂_same.mpr hss
  induction s using Statement.ind with
  | assignment x e => exact .refl _
  | sequence ss ih => exact hlist ss ih
  | ifStatement c t e iht ihe => exact .bind (.refl _) fun _ => .ite iht ihe
  | whileStatement c body ih => exact .loop (hlist body ih) hnm

theorem run_ends {s : Statement} {n : ℕ} (h : (s.run leftFirst n w).result = .ok ()) :
    Call.Ends (fun n => s.run leftFirst n) w (s.run leftFirst n w).final :=
  .of_extends (fun _ _ hnm => run_extends hnm s) h

/-! ## The counter -/

/-- In this state the counter `x` has the value `z`. -/
def Counted (w : World) (q : ℕ) (x : String) (z : ℤ) (t : World) : Prop :=
  ∃ T value, t = w.withTable q T ∧ T.lookup x = some value ∧ value.toInt = z

variable {x : String} {bound step : Int32} {z : ℤ} {t : World}

/-- The test compares the counter. -/
theorem below_holds (hq : w.PointsTo q Q) (h : Counted w q x z t) :
    ((below x bound).holds leftFirst t).result = .ok (decide (z < bound.toInt)) ∧
      ((below x bound).holds leftFirst t).final = t := by
  obtain ⟨T, value, rfl, hlookup, rfl⟩ := h
  have hrelated : ((below x bound).holds leftFirst (w.withTable q T)).Related _ _ :=
    holds_actsAs hq (below x bound) _ T rfl
  have hvar : (Expression.var x).value leftFirst T = .ok value := by
    rw [Expression.value, hlookup, Option.elim_some]
  have htest : (below x bound).test leftFirst T = ⟨.ok (decide (value.toInt < bound.toInt)), T, []⟩ := by
    rw [test_of_ok (value_binary_of_ok hvar rfl)]
    by_cases hlt : value < bound
    · rw [if_pos hlt, decide_eq_true (Int32.lt_iff_toInt_lt.mp hlt)]
      rfl
    · rw [if_neg hlt, decide_eq_false (mt Int32.lt_iff_toInt_lt.mpr hlt)]
      rfl
  rw [hrelated.result, hrelated.final, htest]
  exact ⟨rfl, rfl⟩

/-- The increment adds its step. -/
theorem increment_ends (hq : w.PointsTo q Q) (h : Counted w q x z t)
    (hfits : FitsInt (z + step.toInt)) : ∃ u,
      Call.Ends (fun n => (increment x step).run leftFirst n) t u ∧
        Counted w q x (z + step.toInt) u := by
  obtain ⟨T, value, rfl, hlookup, rfl⟩ := h
  obtain ⟨sum, hsum, hexact⟩ := inInt_of_fits hfits
  have hvar : (Expression.var x).value leftFirst T = .ok value := by
    rw [Expression.value, hlookup, Option.elim_some]
  have hvalue : (Expression.binary .AddExpression (.var x) (.num step)).value leftFirst T = .ok sum :=
    (value_binary_of_ok hvar rfl).trans hsum
  refine ⟨w.withTable q (T.insert x sum), .of_forall fun n => ?_, T.insert x sum, sum, rfl,
    Finmap.lookup_insert T, hexact⟩
  have hrelated : ((increment x step).run leftFirst n (w.withTable q T)).Related _ _ :=
    run_actsAs hq (increment x step) _ T rfl
  rw [hrelated.result, hrelated.final, increment, Statement.exec,
    Call.bind_of_ok (by rw [Call.read_apply, hvalue])]
  exact ⟨rfl, rfl⟩

/-- Another element leaves the counter alone. -/
theorem other_ends (hq : w.PointsTo q Q) (h : Counted w q x z t) {s : Statement}
    (hx : x ∉ s.targets) (hcompletes : ∃ n, (s.run leftFirst n t).result = .ok ()) : ∃ u,
      Call.Ends (fun n => s.run leftFirst n) t u ∧ Counted w q x z u := by
  obtain ⟨n, hn⟩ := hcompletes
  obtain ⟨T, value, rfl, hlookup, rfl⟩ := h
  have hwrites : Path _ T (s.exec leftFirst n T).visited _ := exec_writes s T
  have hsame := (hwrites.mono fun _ _ => Assigns.changesIn).changesIn.2 x hx
  exact ⟨_, run_ends hn, _, value, (run_actsAs hq s _ T rfl).final, hsame.trans hlookup, rfl⟩

/-! ## Rounds -/

variable {pre post : List Statement}

/-- An element of the body is the increment or one of the others. -/
theorem split_cases {α : Type} {pre post front back : List α} {a s : α}
    (h : pre ++ a :: post = front ++ s :: back) : (s ∈ pre ∧ front.length < pre.length) ∨
      (s = a ∧ front.length = pre.length) ∨ s ∈ post ∧ pre.length < front.length := by
  rcases List.append_eq_append_iff.mp h with ⟨mid, rfl, hmid⟩ | ⟨mid, rfl, hmid⟩
  · rcases mid with - | ⟨b, mid⟩
    · obtain ⟨rfl, -⟩ := List.cons.inj hmid
      exact .inr (.inl ⟨rfl, by rw [List.append_nil]⟩)
    · obtain ⟨-, rfl⟩ := List.cons.inj hmid
      refine .inr (.inr ⟨List.mem_append_right _ List.mem_cons_self, ?_⟩)
      rw [List.length_append, List.length_cons]
      omega
  · rcases mid with - | ⟨b, mid⟩
    · obtain ⟨rfl, -⟩ := List.cons.inj hmid
      exact .inr (.inl ⟨rfl, by rw [List.append_nil]⟩)
    · obtain ⟨rfl, -⟩ := List.cons.inj hmid
      refine .inl ⟨List.mem_append_right _ List.mem_cons_self, ?_⟩
      rw [List.length_append, List.length_cons]
      omega

/-- **One round adds the step.** The other elements end where the run comes to run them. -/
theorem round_ends (hq : w.PointsTo q Q) (h : Counted w q x z t) (hfits : FitsInt (z + step.toInt))
    (htargets : ∀ s ∈ pre ++ post, x ∉ s.targets)
    (hends : ∀ front s back, pre ++ increment x step :: post = front ++ s :: back →
      s ∈ pre ++ post → ∀ u, Call.Ends (fun n => Call.inTurn (runs leftFirst n front)) t u →
        ∃ n, (s.run leftFirst n u).result = .ok ()) :
    ∃ u, Call.Ends (fun n => Call.inTurn (runs leftFirst n (pre ++ increment x step :: post))) t u ∧
      Counted w q x (z + step.toInt) u := by
  -- after `i` elements the counter has its old value or the new one
  let I : ℕ → World → Prop := fun i =>
    Counted w q x (if i ≤ pre.length then z else z + step.toInt)
  simp only [runs_eq_map] at hends ⊢
  have hall := Call.Ends.inTurn (F := fun s n => s.run leftFirst n) (I := I)
    (l := pre ++ increment x step :: post) (s := t) h fun front s back hsplit u hu hfront => ?_
  · obtain ⟨u, hu, hI⟩ := hall
    refine ⟨u, hu, ?_⟩
    have hlength : ¬ (pre ++ increment x step :: post).length ≤ pre.length := by
      rw [List.length_append, List.length_cons]
      omega
    simp only [I, if_neg hlength] at hI
    exact hI
  · rcases split_cases hsplit with ⟨hs, hlt⟩ | ⟨rfl, heq⟩ | ⟨hs, hlt⟩
    · have hmem : s ∈ pre ++ post := List.mem_append_left _ hs
      simp only [I, if_pos (Nat.le_of_lt hlt), if_pos (Nat.succ_le_of_lt hlt)] at hu ⊢
      exact other_ends hq hu (htargets s hmem) (hends front s back hsplit hmem u hfront)
    · simp only [I, heq, if_pos (Nat.le_refl _), if_neg (Nat.not_succ_le_self _)] at hu ⊢
      exact increment_ends hq hu hfits
    · have hmem : s ∈ pre ++ post := List.mem_append_right _ hs
      have hnot : ¬ front.length + 1 ≤ pre.length := by omega
      simp only [I, if_neg (Nat.not_le_of_lt hlt), if_neg hnot] at hu ⊢
      exact other_ends hq hu (htargets s hmem) (hends front s back hsplit hmem u hfront)

/-- Where the elements before one end after some rounds, the run comes to it, in a table of `q`. -/
theorem comesToRun_of_ends (hq : w.PointsTo q Q) (ht : Counted w q x z t) (hlt : z < bound.toInt)
    {body front back : List Statement} {s : Statement} {j : ℕ} {u : World}
    (hmade : ∀ᶠ n in atTop, Call.Rounds ((below x bound).holds leftFirst)
      (Call.inTurn (runs leftFirst n body)) w j t) (hsplit : body = front ++ s :: back)
    (hu : Call.Ends (fun n => Call.inTurn (runs leftFirst n front)) t u) :
    ∃ T, u = w.withTable q T ∧
      ComesToRun leftFirst (below x bound) body w s (w.withTable q T) := by
  obtain ⟨hholds, hstill⟩ : ((below x bound).holds leftFirst t).result = _ ∧ _ := below_holds hq ht
  rw [decide_eq_true hlt] at hholds
  obtain ⟨n, hn, hfront, hleave⟩ := (hmade.and hu).exists
  obtain ⟨T, value, rfl, -, -⟩ := ht
  have hrelated : ((Statement.sequence front).run leftFirst n (w.withTable q T)).Related _ _ :=
    run_actsAs hq (.sequence front) _ T rfl
  refine ⟨_, hleave.symm.trans hrelated.final, n, j, _, front, back, hsplit, hn, hholds, ?_, ?_⟩
  · rw [hstill]
    exact hfront
  · rw [hstill]
    exact hrelated.final.symm

variable {v : Int32}

/-- **The rounds of a counting loop.** -/
theorem counting_rounds (hq : w.PointsTo q Q) (hv : Q.symbolTable.lookup x = some v)
    (hstep : 1 ≤ step.toInt) (hbound : bound.toInt + step.toInt - 1 ≤ 2 ^ 31 - 1)
    (htargets : ∀ s ∈ pre ++ post, x ∉ s.targets)
    (hcompletes : ∀ s ∈ pre ++ post, ∀ T, ComesToRun leftFirst (below x bound)
      (pre ++ increment x step :: post) w s (w.withTable q T) →
        ∃ n, (s.run leftFirst n (w.withTable q T)).result = .ok ()) :
    ∀ j ≤ (roundsTo v.toInt bound.toInt step.toInt).toNat, ∃ t,
      Counted w q x (v.toInt + j * step.toInt) t ∧
        ∀ᶠ n in atTop, Call.Rounds ((below x bound).holds leftFirst)
          (Call.inTurn (runs leftFirst n (pre ++ increment x step :: post))) w j t := by
  have hfirst : Counted w q x (v.toInt + (0 : ℕ) * step.toInt) w :=
    ⟨Q.symbolTable, v, (withTable_self hq).symm, hv, by simp⟩
  refine Call.exists_rounds hfirst fun j hj t ht hmade => ?_
  have hlt := (lt_roundsTo_iff hstep j).mp hj
  have htest : ((below x bound).holds leftFirst t).result = _ ∧ _ := below_holds hq ht
  rw [decide_eq_true hlt] at htest
  rw [htest.2]
  have hfits : FitsInt (v.toInt + j * step.toInt + step.toInt) := by
    have hleast := v.le_toInt
    have hnonneg : 0 ≤ (j : ℤ) * step.toInt := by positivity
    constructor <;> omega
  have hround : ∃ u, Call.Ends (fun n => Call.inTurn (runs leftFirst n _)) t u ∧ Counted w q x _ u :=
    round_ends hq ht hfits htargets fun front s back hsplit hs u hu => ?_
  · obtain ⟨u, hu, hcounted⟩ := hround
    refine ⟨htest.1, u, hu, ?_⟩
    rw [Nat.cast_succ, add_mul, one_mul, ← add_assoc]
    exact hcounted
  · obtain ⟨T, rfl, hcomes⟩ := comesToRun_of_ends hq ht hlt hmade hsplit hu
    exact hcompletes s hs T hcomes

end Run

/-- **A counting loop ends after the right number of rounds.** The body is the increment among elements
that never assign the counter and complete wherever the run comes to run them; no step passes the
largest `int`. -/
theorem counting_loop_ends (leftFirst : BinaryClass → Bool) {x : String} {bound step v : Int32}
    {pre post : List Statement} {w : World} {q : ℕ} {Q : Program} (hq : w.PointsTo q Q)
    (hv : Q.symbolTable.lookup x = some v) (hstep : 1 ≤ step.toInt)
    (hbound : bound.toInt + step.toInt - 1 ≤ 2 ^ 31 - 1)
    (htargets : ∀ s ∈ pre ++ post, x ∉ s.targets)
    (hcompletes : ∀ s ∈ pre ++ post, ∀ T, ComesToRun leftFirst (below x bound)
      (pre ++ increment x step :: post) w s (w.withTable q T) →
        ∃ n, (s.run leftFirst n (w.withTable q T)).result = .ok ()) :
    let body := pre ++ increment x step :: post
    let loop := Statement.whileStatement (below x bound) body
    let rounds := (max 0 ⌈((bound.toInt - v.toInt : ℤ) : ℚ) / step.toInt⌉).toNat
    (∃ U value, (∃ N, ∀ n, N ≤ n → (loop.run leftFirst n w).result = .ok () ∧
        (loop.run leftFirst n w).final = w.withTable q U ∧
        Call.Rounds ((below x bound).holds leftFirst) (Call.inTurn (runs leftFirst n body)) w rounds
          (w.withTable q U)) ∧
      ((below x bound).holds leftFirst (w.withTable q U)).result = .ok false ∧
      U.lookup x = some value ∧
      (bound ≤ v → value = v) ∧
      (v < bound → value.toInt =
        v.toInt + step.toInt * ⌈((bound.toInt - v.toInt : ℤ) : ℚ) / step.toInt⌉ ∧
          bound.toInt ≤ value.toInt ∧ value.toInt ≤ bound.toInt + step.toInt - 1)) ∧
    ∀ j ≤ rounds, ∃ T value, (∃ N, ∀ n, N ≤ n → Call.Rounds ((below x bound).holds leftFirst)
        (Call.inTurn (runs leftFirst n body)) w j (w.withTable q T)) ∧
      T.lookup x = some value ∧ value.toInt = v.toInt + j * step.toInt := by
  intro body loop rounds
  have hrounds := counting_rounds hq hv hstep hbound htargets hcompletes
  refine ⟨?_, fun j hj => ?_⟩
  · obtain ⟨t, ht, hmade⟩ := hrounds rounds (Nat.le_refl _)
    have htest : ((below x bound).holds leftFirst t).result = _ ∧ _ := below_holds hq ht
    rw [decide_eq_false (mt (lt_roundsTo_iff hstep _).mpr (lt_irrefl rounds))] at htest
    have hends := Call.Ends.loop .cut hmade htest.1
    obtain ⟨U, value, rfl, hlookup, hvalue⟩ := ht
    rw [htest.2] at hends
    obtain ⟨N, hN⟩ := eventually_atTop.mp (hends.and hmade)
    refine ⟨U, value, ⟨N, fun n hn => ?_⟩, htest.1, hlookup, fun hle => ?_, fun hlt => ?_⟩
    · obtain ⟨⟨hresult, hfinal⟩, hn⟩ := hN n hn
      exact ⟨hresult, hfinal, hn⟩
    · have hzero : rounds = 0 := roundsTo_of_le hstep (Int32.le_iff_toInt_le.mp hle)
      rw [hzero, Nat.cast_zero, zero_mul, add_zero] at hvalue
      exact Int32.toInt_inj.mp hvalue
    · have hlt := Int32.lt_iff_toInt_lt.mp hlt
      have hlands := roundsTo_lands hstep hlt
      refine ⟨?_, hvalue ▸ hlands.1, hvalue ▸ hlands.2⟩
      have hcount : (rounds : ℤ) = _ := roundsTo_of_lt hstep hlt
      rw [hvalue, hcount, mul_comm]
  · obtain ⟨t, ⟨T, value, rfl, hlookup, hvalue⟩, hmade⟩ := hrounds j hj
    exact ⟨T, value, eventually_atTop.mp hmade, hlookup, hvalue⟩

/-- From 0 to 5 in steps of 2: three rounds, and the counter is 6. -/
theorem counting_loop_ends_six :
    let body := [.assignment "y" (.num 1), increment "x" 2]
    let w : World := ⟨[⟨"P", .sequence body, (∅ : SymbolTable).insert "x" 0⟩], some 0⟩
    ∃ U value, U.lookup "x" = some value ∧ value.toInt = 6 ∧ ∃ N, ∀ n, N ≤ n →
      ((Statement.whileStatement (below "x" 5) body).run (fun _ => true) n w).final =
        w.withTable 0 U := by
  intro body w
  obtain ⟨⟨U, value, ⟨N, hN⟩, -, hlookup, -, hvalue⟩, -⟩ := @counting_loop_ends
    (fun _ => true) "x" 5 2 0 [.assignment "y" (.num 1)] [] w 0 _ ⟨rfl, rfl⟩ rfl (by decide)
    (by decide) (by decide) fun s hs T _ => by
      obtain rfl := List.mem_singleton.mp hs
      exact ⟨0, rfl⟩
  refine ⟨U, value, hlookup, ?_, N, fun n hn => (hN n hn).2.1⟩
  have hceil : ⌈((5 - 0 : ℤ) : ℚ) / (2 : ℤ)⌉ = 3 := Int.ceil_eq_iff.mpr (by norm_num)
  rw [(hvalue (by decide)).1]
  show (0 : ℤ) + 2 * ⌈((5 - 0 : ℤ) : ℚ) / (2 : ℤ)⌉ = 6
  rw [hceil]
  rfl

end ProgramAnalysis.Mycalc
