import ProgramAnalysis.Lib.Footprint
import ProgramAnalysis.Mycalc.Table

/-!
# What a run writes and what it reads

* `Statement.targets`, `Statement.reads`: the names a statement assigns and those it reads;
* `exec_writes`, `exec_reads`: a run only writes the one and only depends on the other;
* **`run_touches_only_targets`**: what this says of every state of a run;
* **`independent_commute`**: statements that have no such name in common go in either order.
-/

namespace ProgramAnalysis.Mycalc

open Lib

/-! ## Names -/

mutual

/-- The names a statement assigns. -/
def Statement.targets : Statement → Finset String
  | .assignment vname _ => {vname}
  | .sequence statements => targetsOf statements
  | .ifStatement _ thenBranch elseBranch => thenBranch.targets ∪ elseBranch.targets
  | .whileStatement _ body => targetsOf body

def targetsOf : List Statement → Finset String
  | [] => ∅
  | s :: ss => s.targets ∪ targetsOf ss

end

mutual

/-- The names a statement reads. -/
def Statement.reads : Statement → Finset String
  | .assignment _ expression => expression.vars
  | .sequence statements => readsOf statements
  | .ifStatement condition thenBranch elseBranch =>
    condition.vars ∪ (thenBranch.reads ∪ elseBranch.reads)
  | .whileStatement condition body => condition.vars ∪ readsOf body

def readsOf : List Statement → Finset String
  | [] => ∅
  | s :: ss => s.reads ∪ readsOf ss

end

/-- The names of an element are among those of the list. -/
theorem subset_namesOf {names : Statement → Finset String} {namesOf : List Statement → Finset String}
    (hcons : ∀ s ss, namesOf (s :: ss) = names s ∪ namesOf ss) {s : Statement} {ss : List Statement}
    (h : s ∈ ss) : names s ⊆ namesOf ss := by
  induction ss with
  | nil => cases h
  | cons s' ss ih =>
    rw [hcons]
    rcases List.mem_cons.mp h with rfl | h
    · exact Finset.subset_union_left
    · exact (ih h).trans Finset.subset_union_right

/-- No name that one statement assigns is read or assigned in the other. -/
def Independent (s t : Statement) : Prop :=
  Disjoint s.targets (t.reads ∪ t.targets) ∧ Disjoint t.targets (s.reads ∪ s.targets)

/-! ## What a run writes -/

/-- The value of a name in a table. -/
def SymbolTable.look (T : SymbolTable) (x : String) : Option Int32 := T.lookup x

/-- The write of a name of `A`. -/
def Assigns (A : Finset String) (T U : SymbolTable) : Prop := ∃ x ∈ A, ∃ value, U = T.insert x value

theorem Assigns.mono {A B : Finset String} (hAB : A ⊆ B) (T U : SymbolTable) (h : Assigns A T U) :
    Assigns B T U := by
  obtain ⟨x, hx, hU⟩ := h
  exact ⟨x, hAB hx, hU⟩

theorem Assigns.changesIn {A : Finset String} {T U : SymbolTable} (h : Assigns A T U) :
    ChangesIn SymbolTable.look A T U := by
  obtain ⟨x, hx, value, rfl⟩ := h
  intro y hy
  refine Finmap.lookup_insert_of_ne T fun hyx => hy ?_
  rw [hyx]
  exact Finset.mem_coe.mpr hx

/-- A write removes no name. -/
theorem Assigns.mem {A : Finset String} {T U : SymbolTable} (h : Assigns A T U) {y : String}
    (hy : y ∈ T) : y ∈ U := by
  obtain ⟨x, -, value, rfl⟩ := h
  exact Finmap.mem_insert.mpr (.inr hy)

section Exec

variable {leftFirst : BinaryClass → Bool} {n : ℕ} {A V : Finset String} {T U : SymbolTable}

theorem test_writes (c : Expression) : (c.test leftFirst).Writes (Assigns A) :=
  .bind (.read _) fun _ => .ret _

theorem execs_writes {ss : List Statement}
    (h : ∀ s ∈ ss, (s.exec leftFirst n).Writes (Assigns s.targets)) :
    (Call.inTurn (execs leftFirst n ss)).Writes (Assigns (targetsOf ss)) := by
  refine .inTurn fun m hm => ?_
  rw [execs_eq_map] at hm
  obtain ⟨s, hs, rfl⟩ := List.mem_map.mp hm
  exact (h s hs).mono (Assigns.mono (subset_namesOf (fun _ _ => by rw [targetsOf]) hs))

/-- **Every write of a run is that of a target.** -/
theorem exec_writes (s : Statement) : (s.exec leftFirst n).Writes (Assigns s.targets) := by
  induction s using Statement.ind with
  | assignment x e =>
    refine .bind (.read _) fun value => .write fun T => ?_
    exact ⟨x, Finset.mem_singleton_self x, value, rfl⟩
  | sequence ss ih => exact execs_writes ih
  | ifStatement c t e iht ihe =>
    refine .bind (test_writes c) fun _ => .ite ?_ ?_
    · exact iht.mono (Assigns.mono Finset.subset_union_left)
    · exact ihe.mono (Assigns.mono Finset.subset_union_right)
  | whileStatement c body ih => exact .loop (test_writes c) (execs_writes ih) n

/-! ## What a run reads -/

theorem value_congr {e : Expression} (h : AgreeOn SymbolTable.look e.vars T U) :
    e.value leftFirst T = e.value leftFirst U := by
  induction e with
  | num value => rfl
  | var name =>
    have hname : T.lookup name = U.lookup name := h name (Finset.mem_singleton_self name)
    rw [Expression.value, Expression.value, hname]
  | binary cls left right ihl ihr =>
    have hleft := ihl fun x hx => h x (Finset.mem_union_left _ hx)
    have hright := ihr fun x hx => h x (Finset.mem_union_right _ hx)
    simp only [Expression.value, hleft, hright]

theorem value_reads {e : Expression} (hV : e.vars ⊆ V) :
    Call.ActsAs (AgreeOn SymbolTable.look V) (Call.read fun T => e.value leftFirst T)
      (Call.read fun T => e.value leftFirst T) :=
  .read fun _ _ h => value_congr fun x hx => h x (hV hx)

theorem test_reads {c : Expression} (hV : c.vars ⊆ V) :
    Call.ActsAs (AgreeOn SymbolTable.look V) (c.test leftFirst) (c.test leftFirst) :=
  (value_reads hV).bind fun _ => .ret _

theorem set_reads (x : String) (value : Int32) :
    Call.ActsAs (AgreeOn SymbolTable.look V) (SymbolTable.set x value)
      (SymbolTable.set x value) := by
  intro T U h
  have hinsert : AgreeOn SymbolTable.look V (T.insert x value) (U.insert x value) := by
    intro y hy
    rcases eq_or_ne y x with rfl | hyx
    · exact (Finmap.lookup_insert T).trans (Finmap.lookup_insert U).symm
    · show (T.insert x value).lookup y = (U.insert x value).lookup y
      rw [Finmap.lookup_insert_of_ne _ hyx, Finmap.lookup_insert_of_ne _ hyx]
      exact h y hy
  exact ⟨rfl, hinsert, .cons hinsert .nil⟩

theorem execs_reads {ss : List Statement} (hV : readsOf ss ⊆ V)
    (h : ∀ s ∈ ss, s.reads ⊆ V → Call.ActsAs (AgreeOn SymbolTable.look V)
      (s.exec leftFirst n) (s.exec leftFirst n)) :
    Call.ActsAs (AgreeOn SymbolTable.look V) (Call.inTurn (execs leftFirst n ss))
      (Call.inTurn (execs leftFirst n ss)) := by
  refine .inTurn (List.forall₂_same.mpr fun m hm => ?_)
  rw [execs_eq_map] at hm
  obtain ⟨s, hs, rfl⟩ := List.mem_map.mp hm
  exact h s hs ((subset_namesOf (fun _ _ => by rw [readsOf]) hs).trans hV)

/-- **A run depends on the names it reads**, and on no other. -/
theorem exec_reads (s : Statement) (hV : s.reads ⊆ V) :
    Call.ActsAs (AgreeOn SymbolTable.look V) (s.exec leftFirst n)
      (s.exec leftFirst n) := by
  induction s using Statement.ind with
  | assignment x e => exact (value_reads hV).bind fun value => set_reads x value
  | sequence ss ih => exact execs_reads hV ih
  | ifStatement c t e iht ihe =>
    obtain ⟨hc, hbranches⟩ := Finset.union_subset_iff.mp hV
    obtain ⟨ht, he⟩ := Finset.union_subset_iff.mp hbranches
    exact (test_reads hc).bind fun _ => .ite (iht ht) (ihe he)
  | whileStatement c body ih =>
    obtain ⟨hc, hbody⟩ := Finset.union_subset_iff.mp hV
    exact .loop (test_reads hc) (execs_reads hbody ih) n

/-- Independent statements go in either order on a table. -/
theorem exec_commute {s t : Statement} (h : Independent s t)
    (hok : ((do s.exec leftFirst n; t.exec leftFirst n) T).result = .ok ()) :
    ((do t.exec leftFirst n; s.exec leftFirst n) T).result = .ok () ∧
      ((do t.exec leftFirst n; s.exec leftFirst n) T).final =
        ((do s.exec leftFirst n; t.exec leftFirst n) T).final := by
  have hwrites : ∀ s : Statement, (s.exec leftFirst n).Writes
      (ChangesIn SymbolTable.look s.targets) := fun s =>
    (exec_writes s).mono fun _ _ => Assigns.changesIn
  have hreads : ∀ s : Statement, Call.ActsAs
      (AgreeOn SymbolTable.look (s.reads ∪ s.targets : Finset String))
      (s.exec leftFirst n) (s.exec leftFirst n) := fun s => exec_reads s Finset.subset_union_left
  obtain ⟨hother, hlook⟩ := AgreeOn.commute (hwrites s) (hwrites t) (hreads s) (hreads t)
    (Finset.coe_subset.mpr Finset.subset_union_right)
    (Finset.coe_subset.mpr Finset.subset_union_right) (Finset.disjoint_left.mp h.1)
    (Finset.disjoint_left.mp h.2) hok
  exact ⟨hother, Finmap.ext_lookup hlook⟩

end Exec

/-! ## Runs in memory -/

section Run

variable {w : World} {q : ℕ} {Q : Program}

/-- **A run touches only the names it assigns.** In every state of a run on the table of `Q`, whether it
returns or throws, the names that are no target of the statement are as they were, and no name is
gone. The state moves only by the assignment of a target: evaluating an expression, whether it has a
value or throws, writes nothing. -/
theorem run_touches_only_targets (leftFirst : BinaryClass → Bool) (n : ℕ) (s : Statement)
    (hq : w.PointsTo q Q) :
    (∀ t, t ∈ (s.run leftFirst n w).visited ∨ t = (s.run leftFirst n w).final →
      ∃ T, t = w.withTable q T ∧ (∀ x ∉ s.targets, T.lookup x = Q.symbolTable.lookup x) ∧
        ∀ x ∈ Q.symbolTable, x ∈ T) ∧
    Path (Relation.Map (Assigns s.targets) (w.withTable q) (w.withTable q)) w
      (s.run leftFirst n w).visited (s.run leftFirst n w).final ∧
    ∀ (e : Expression) (T : SymbolTable), (e.evaluate leftFirst (w.withTable q T)).visited = [] ∧
      (e.evaluate leftFirst (w.withTable q T)).final = w.withTable q T := by
  have hacts : Call.ActsAs _ (s.run leftFirst n) (s.exec leftFirst n) := run_actsAs hq s
  have hrelated := hacts w Q.symbolTable (withTable_self hq).symm
  have hwrites : Path (Assigns s.targets) _ (s.exec leftFirst n Q.symbolTable).visited _ :=
    exec_writes s Q.symbolTable
  refine ⟨fun t ht => ?_, ?_, fun e T => ?_⟩
  · obtain ⟨T, hT, rfl⟩ : ∃ T, (T ∈ (s.exec leftFirst n Q.symbolTable).visited ∨
        T = (s.exec leftFirst n Q.symbolTable).final) ∧ t = w.withTable q T := by
      rcases ht with ht | rfl
      · obtain ⟨T, hT, hTw⟩ := hrelated.exists_of_mem ht
        exact ⟨T, .inl hT, hTw⟩
      · exact ⟨_, .inr rfl, hrelated.final⟩
    have hchange := (hwrites.mono fun _ _ => Assigns.changesIn).changesIn
    have hmem := hwrites.keeps (I := fun U => ∀ x ∈ Q.symbolTable, x ∈ U)
      (fun U V hUV hU x hx => hUV.mem (hU x hx)) fun _ hx => hx
    rcases hT with hT | rfl
    · exact ⟨T, rfl, hchange.1 T hT, hmem.1 T hT⟩
    · exact ⟨_, rfl, hchange.2, hmem.2⟩
  · have hpath := hwrites.map (w.withTable q)
    rw [withTable_self hq, ← hrelated.visited_eq_map, ← hrelated.final] at hpath
    exact hpath
  · have hread : (e.evaluate leftFirst (w.withTable q T)).Related _ _ := evaluate_actsAs hq e _ T rfl
    exact ⟨List.forall₂_nil_right_iff.mp hread.visited, hread.final⟩

/-- A read of a missing name throws; nothing has been added to the table. -/
theorem run_touches_only_targets_missing :
    let s : Statement := .assignment "x" (.binary .AddExpression (.num 1) (.var "y"))
    let w : World := ⟨[⟨"P", s, ∅⟩], some 0⟩
    (s.run (fun _ => true) 0 w).result = .error (SymbolTable.notFound "y") ∧
      ∃ T, (s.run (fun _ => true) 0 w).final = w.withTable 0 T ∧ T.lookup "y" = none := by
  intro s w
  obtain ⟨T, hT, hsame, -⟩ := (run_touches_only_targets (fun _ => true) 0 s (w := w) (q := 0)
    (Q := ⟨"P", s, ∅⟩) ⟨rfl, rfl⟩).1 _ (.inr rfl)
  exact ⟨rfl, T, hT, hsame "y" (by decide)⟩

/-- **Independent statements commute.** Where one and then the other completes on the table of `Q`, so do
the other and then the one, and they leave the same memory. -/
theorem independent_commute (leftFirst : BinaryClass → Bool) (n : ℕ) {s t : Statement}
    (hindependent : Independent s t) (hq : w.PointsTo q Q)
    (hok : ((do s.run leftFirst n; t.run leftFirst n) w).result = .ok ()) :
    ((do t.run leftFirst n; s.run leftFirst n) w).result = .ok () ∧
      ((do t.run leftFirst n; s.run leftFirst n) w).final =
        ((do s.run leftFirst n; t.run leftFirst n) w).final := by
  have hrelated : ∀ s t : Statement, ((do s.run leftFirst n; t.run leftFirst n) w).Related
      (fun v T => v = w.withTable q T)
        ((do s.exec leftFirst n; t.exec leftFirst n) Q.symbolTable) := fun s t =>
    ((run_actsAs hq s).bind fun _ => run_actsAs hq t) w Q.symbolTable (withTable_self hq).symm
  obtain ⟨hother, hfinal⟩ := exec_commute hindependent ((hrelated s t).result.symm.trans hok)
  refine ⟨(hrelated t s).result.trans hother, ?_⟩
  rw [(hrelated t s).final, (hrelated s t).final, hfinal]

/-- A loop over `x` and an assignment of `y`. -/
theorem independent_commute_loop :
    let less : Expression := .binary .LessThanExpression (.var "x") (.num 2)
    let next : Expression := .binary .AddExpression (.var "x") (.num 1)
    let s : Statement := .sequence [.assignment "x" (.num 0),
      .whileStatement less [.assignment "x" next]]
    let t : Statement := .assignment "y" (.num 5)
    let w : World := ⟨[⟨"P", s, ∅⟩], some 0⟩
    ((do t.run (fun _ => true) 3; s.run (fun _ => true) 3) w).final =
      ((do s.run (fun _ => true) 3; t.run (fun _ => true) 3) w).final := by
  intro less next s t w
  exact (independent_commute (fun _ => true) 3 (s := s) (t := t) (by unfold Independent; decide)
    (q := 0) (Q := ⟨"P", s, ∅⟩) ⟨rfl, rfl⟩ rfl).2

end Run

end ProgramAnalysis.Mycalc
