import ProgramAnalysis.Lib.Lines
import ProgramAnalysis.Mycalc.Footprint
import ProgramAnalysis.Mycalc.Natural

/-!
# The test driver of mycalc

The class `Test` and `main` of `mycalc/test_ast.cc`, and `SymbolTable::print`.

* `Console`: the programs in memory and the lines printed; `say`, `inMemory`;
* `SymbolTable.print`, **`print_determines`**: what is printed of a table determines it;
* `Test.execute`, `execute_gives`: one test, and what it prints;
* `main`, **`main_reports`**: every test prints what its own program does on an empty table.

The driver catches nothing, so an exception ends it; a line is flushed when it is printed.
-/

namespace ProgramAnalysis.Mycalc

open Lib

/-! ## Printing -/

/-- The memory, and what has been printed so far. -/
structure Console where
  world : World
  output : List String

/-- `cout << line << endl`. -/
def say (line : String) : Call Stop Console Unit :=
  Call.write fun c => { c with output := c.output ++ [line] }

/-- A call on the memory. -/
def inMemory {α : Type} (m : Call Stop World α) : Call Stop Console α := fun c =>
  let o := m c.world
  ⟨o.result, { c with world := o.final }, o.visited.map fun w => { c with world := w }⟩

/-- The lines of `SymbolTable::print`. -/
def SymbolTable.print (table : SymbolTable) : List String :=
  entries (fun value => toString value.toInt) table

theorem print_injective {T U : SymbolTable} (hT : ∀ x ∈ T, '\n' ∉ x.toList)
    (hU : ∀ x ∈ U, '\n' ∉ x.toList) (h : text T.print = text U.print) : T = U := by
  have hchar : ∀ c : Char, ¬ c.isDigit → c ≠ '-' → ∀ value : Int32,
      c ∉ (toString value.toInt).toList := fun c hdigit hsign value hmem =>
    (mem_toString_int hmem).elim hdigit hsign
  exact entries_injective (fun v v' hv => Int32.toInt_inj.mp (toString_int_injective hv))
    (hchar '\n' (by decide) (by decide)) (hchar ':' (by decide) (by decide)) hT hU h

/-- The names of the table that is left were assigned. -/
theorem Statement.EndsIn.mem_targets {leftFirst : BinaryClass → Bool} {s : Statement}
    {r : Except Stop Unit} {U : SymbolTable} (h : s.EndsIn leftFirst ∅ r U) {x : String}
    (hx : x ∈ U) : x ∈ s.targets := by
  obtain ⟨n, hn⟩ := h.exec
  have hwrites : Path _ ∅ (s.exec leftFirst n ∅).visited _ := exec_writes s ∅
  have hsame := (hwrites.mono fun _ _ => Assigns.changesIn).changesIn.2 x
  by_contra hout
  have hlookup : U.lookup x = (∅ : SymbolTable).lookup x := (hn n (Nat.le_refl n)).final ▸ hsame hout
  rw [Finmap.lookup_empty] at hlookup
  exact Finmap.lookup_eq_none.mp hlookup hx

/-- **What is printed of the variables determines them.** Two programs that assign no name with a newline
print the same text after their runs exactly when they leave the same table. -/
theorem print_determines (leftFirst : BinaryClass → Bool) {s s' : Statement} {U U' : SymbolTable}
    (h : s.EndsIn leftFirst ∅ (.ok ()) U) (h' : s'.EndsIn leftFirst ∅ (.ok ()) U')
    (hs : ∀ x ∈ s.targets, '\n' ∉ x.toList) (hs' : ∀ x ∈ s'.targets, '\n' ∉ x.toList) :
    text U.print = text U'.print ↔ U = U' :=
  ⟨print_injective (fun x hx => hs x (h.mem_targets hx)) fun x hx => hs' x (h'.mem_targets hx),
    fun hU => hU ▸ rfl⟩

/-- After `x := 10` and after `x := 1`. -/
theorem print_determines_ten :
    let left : Int32 → SymbolTable := fun value => (∅ : SymbolTable).insert "x" value
    text (left 10).print ≠ text (left 1).print := by
  intro left
  have hends : ∀ value : Int32, (Statement.assignment "x" (.num value)).EndsIn (fun _ => true) ∅
      (.ok ()) (left value) := fun value => .act rfl
  refine mt (print_determines (fun _ => true) (hends 10) (hends 1) (by decide) (by decide)).mp ?_
  intro h
  have hlookup := congrArg (fun T : SymbolTable => T.lookup "x") h
  simp only [left, Finmap.lookup_insert] at hlookup
  exact absurd hlookup (by decide)

/-! ## Tests -/

/-- A test, with what its `makeProgram` gives to `Program::Program`. -/
structure Test where
  name : String
  statement : Statement

/-- `theProgram = makeProgram()`. -/
def World.makeProgram (w : World) (t : Test) : World :=
  { w.construct t.name t.statement with theProgram := some w.programs.length }

/-- `delete theProgram`; the pointer is left as it is. The driver deletes the newest program. -/
def World.deleteTheProgram (w : World) : World :=
  { w with programs := w.theProgram.elim w.programs w.programs.eraseIdx }

/-- `theProgram->getName()`. -/
def getName : Call Stop World String := Call.read fun w =>
  (w.theProgram.bind fun p => w.programs[p]?).elim (.error .null) fun P => .ok P.name

section Driver

variable (leftFirst : BinaryClass → Bool) (n : ℕ)

/-- `theProgram->run()`. -/
def runTheProgram : Call Stop World Unit := do
  let p ← Call.read fun w => w.theProgram.elim (.error .null) .ok
  Program.run leftFirst n p

/-- `Test::execute`. -/
def Test.execute (t : Test) : Call Stop Console Unit := do
  inMemory (Call.write fun w => w.makeProgram t)
  let name ← inMemory getName
  say ("executing " ++ name)
  inMemory (runTheProgram leftFirst n)
  let lines ← inMemory (theTable (Call.read fun table => .ok table.print))
  Call.inTurn (lines.map say)
  inMemory (Call.write World.deleteTheProgram)

/-- `main`, on a list of tests. -/
def main (tests : List Test) : Call Stop Console Unit := do
  say "testing AST ..."
  Call.inTurn (tests.map (Test.execute leftFirst n))

end Driver

/-! ## What is printed -/

section Execute

variable {leftFirst : BinaryClass → Bool} {n : ℕ} {c : Console}

theorem say_all (lines : List String) (c : Console) : (Call.inTurn (lines.map say)).Gives c (.ok ())
    { c with output := c.output ++ lines } := by
  have hall : (Call.inTurn (lines.map say)).Gives c (.ok ())
      { c with output := c.output ++ lines.flatMap fun line => [line] } :=
    .inTurn_map (g := fun output => { c with output := output }) (fun _ _ _ => .write _ _) c.output
  rwa [List.flatMap_singleton'] at hall

theorem inMemory_gives {α : Type} {m : Call Stop World α} {r : Except Stop α} {w : World}
    (h : m.Gives c.world r w) : (inMemory m).Gives c r { c with world := w } :=
  ⟨h.result, by rw [← h.final]; rfl⟩

/-- A new program, with its empty table. -/
theorem makeProgram_pointsTo (w : World) (t : Test) :
    (w.makeProgram t).PointsTo w.programs.length ⟨t.name, t.statement, ∅⟩ :=
  ⟨rfl, List.getElem?_concat_length⟩

/-- Deleting the new program leaves the ones before it. -/
theorem deleteTheProgram_withTable (w : World) (t : Test) (T : SymbolTable) :
    ((w.makeProgram t).withTable w.programs.length T).deleteTheProgram.programs = w.programs := by
  show ((w.programs ++ [_]).modify w.programs.length _).eraseIdx w.programs.length = w.programs
  refine List.ext_getElem? fun i => ?_
  rw [List.getElem?_eraseIdx]
  split_ifs with hi
  · rw [List.getElem?_modify_ne _ _ (by omega), List.getElem?_append_left hi]
  · rw [List.getElem?_eq_none (by simp; omega), List.getElem?_eq_none (by omega)]

/-- The lines that a test prints. -/
def Test.report (t : Test) (table : SymbolTable) : List String :=
  ("executing " ++ t.name) :: table.print

theorem getName_gives {w : World} {p : ℕ} {P : Program} (h : w.PointsTo p P) :
    getName.Gives w (.ok P.name) w := by
  refine ⟨?_, rfl⟩
  show (w.theProgram.bind fun p => w.programs[p]?).elim (.error .null) (fun P => .ok P.name) =
    (.ok P.name : Except Stop String)
  rw [h.pointer, Option.bind_some, h.program, Option.elim_some]

theorem runTheProgram_gives {w : World} {p : ℕ} {P : Program} (h : w.PointsTo p P) :
    (runTheProgram leftFirst n).Gives w (P.statement.exec leftFirst n P.symbolTable).result
      (w.withTable p (P.statement.exec leftFirst n P.symbolTable).final) := by
  have hrelated : (Program.run leftFirst n p w).Related _ _ := Program.run_related h.program h
  have hread := Call.Gives.read (fun w : World => w.theProgram.elim (.error Stop.null) .ok) w
  rw [h.pointer, Option.elim_some] at hread
  exact hread.bind ⟨hrelated.result, hrelated.final⟩

theorem printTable_gives {w : World} {p : ℕ} {P : Program} (h : w.PointsTo p P) :
    (theTable (Call.read fun table => .ok table.print)).Gives w (.ok P.symbolTable.print) w := by
  have hrelated : (theTable (Call.read fun table => .ok table.print) w).Related _ _ :=
    theTable_actsAs h _ w P.symbolTable (withTable_self h).symm
  exact ⟨hrelated.result, hrelated.final.trans (withTable_self h)⟩

/-- **One test**: it ends as its statement does on an empty table, and prints that table if it
returns. -/
theorem execute_gives (t : Test) (c : Console) :
    (∀ U, (t.statement.exec leftFirst n).Gives ∅ (.ok ()) U → ∃ w,
      (t.execute leftFirst n).Gives c (.ok ()) ⟨w, c.output ++ t.report U⟩ ∧
        w.programs = c.world.programs) ∧
    ∀ stop U, (t.statement.exec leftFirst n).Gives ∅ (.error stop) U → ∃ w,
      (t.execute leftFirst n).Gives c (.error stop) ⟨w, c.output ++ ["executing " ++ t.name]⟩ := by
  have hnew := makeProgram_pointsTo c.world t
  have hmake : (inMemory (Call.write fun w => w.makeProgram t)).Gives c (.ok ()) _ :=
    inMemory_gives (.write _ _)
  have hname : (inMemory getName).Gives ⟨c.world.makeProgram t, c.output⟩ (.ok t.name) _ :=
    inMemory_gives (getName_gives hnew)
  have hsay : (say ("executing " ++ t.name)).Gives ⟨c.world.makeProgram t, c.output⟩ (.ok ()) _ :=
    .write _ _
  have hrun : (runTheProgram leftFirst n).Gives _ _ _ := runTheProgram_gives hnew
  refine ⟨fun U hU => ?_, fun stop U hU => ?_⟩
  · rw [hU.result, hU.final] at hrun
    have hprint := printTable_gives (withTable_pointsTo hnew U)
    have hdelete : ∀ d : Console, (inMemory (Call.write World.deleteTheProgram)).Gives d (.ok ())
        ⟨d.world.deleteTheProgram, d.output⟩ := fun d => inMemory_gives (.write _ _)
    have hall : (t.execute leftFirst n).Gives c (.ok ()) _ :=
      hmake.bind (hname.bind (hsay.bind ((inMemory_gives hrun).bind
        ((inMemory_gives hprint).bind ((say_all _ _).bind (hdelete _))))))
    simp only [List.append_assoc, List.singleton_append] at hall
    exact ⟨_, hall, deleteTheProgram_withTable c.world t U⟩
  · rw [hU.result] at hrun
    exact ⟨_, hmake.bind (hname.bind (hsay.bind (inMemory_gives hrun).bind_error))⟩

/-- The reports of tests with the tables they leave. -/
def reports (done : List (Test × SymbolTable)) : List String := done.flatMap fun p => p.1.report p.2

variable {done : List (Test × SymbolTable)}

/-- Tests that return, one after another. -/
theorem tests_give (hdone : ∀ p ∈ done, (p.1.statement.exec leftFirst n).Gives ∅ (.ok ()) p.2)
    (c : Console) : ∃ w,
      (Call.inTurn ((done.map Prod.fst).map (Test.execute leftFirst n))).Gives c (.ok ())
        ⟨w, c.output ++ reports done⟩ ∧ w.programs = c.world.programs := by
  induction done generalizing c with
  | nil =>
    refine ⟨c.world, ?_, rfl⟩
    rw [reports, List.flatMap_nil, List.append_nil]
    exact ⟨rfl, rfl⟩
  | cons p done ih =>
    obtain ⟨hp, hrest⟩ := List.forall_mem_cons.mp hdone
    obtain ⟨w, hfirst, hw⟩ := (execute_gives p.1 c).1 p.2 hp
    obtain ⟨u, hlast, hu⟩ := ih hrest ⟨w, c.output ++ p.1.report p.2⟩
    rw [List.append_assoc] at hlast
    exact ⟨u, hfirst.bind hlast, hu.trans hw⟩

/-- Tests that end by returning, with any bound: they all return, or one is cut off. -/
theorem tests_give_or_cut (hdone : ∀ p ∈ done, p.1.statement.EndsIn leftFirst ∅ (.ok ()) p.2)
    (c : Console) :
    (∃ d, (Call.inTurn ((done.map Prod.fst).map (Test.execute leftFirst n))).Gives c (.ok ()) d) ∨
      ∃ d, (Call.inTurn ((done.map Prod.fst).map (Test.execute leftFirst n))).Gives c
        (.error .cut) d := by
  induction done generalizing c with
  | nil => exact .inl ⟨c, rfl, rfl⟩
  | cons p done ih =>
    obtain ⟨hp, hrest⟩ := List.forall_mem_cons.mp hdone
    rcases hp.exec_or_cut n with hok | hcut
    · obtain ⟨w, hfirst, -⟩ := (execute_gives p.1 c).1 p.2 hok
      rcases ih hrest ⟨w, c.output ++ p.1.report p.2⟩ with ⟨d, hd⟩ | ⟨d, hd⟩
      · exact .inl ⟨d, hfirst.bind hd⟩
      · exact .inr ⟨d, hfirst.bind hd⟩
    · obtain ⟨w, hfirst⟩ := (execute_gives p.1 c).2 .cut _ ⟨hcut, rfl⟩
      exact .inr ⟨_, hfirst.bind_error⟩

/-- One bound for all the tests. -/
theorem exists_bound (hdone : ∀ p ∈ done, p.1.statement.EndsIn leftFirst ∅ (.ok ()) p.2) :
    ∃ N, ∀ n, N ≤ n → ∀ p ∈ done, (p.1.statement.exec leftFirst n).Gives ∅ (.ok ()) p.2 := by
  induction done with
  | nil => exact ⟨0, fun _ _ _ hp => absurd hp List.not_mem_nil⟩
  | cons p done ih =>
    obtain ⟨hp, hrest⟩ := List.forall_mem_cons.mp hdone
    obtain ⟨N, hN⟩ := hp.exec
    obtain ⟨M, hM⟩ := ih hrest
    refine ⟨max N M, fun n hn => List.forall_mem_cons.mpr ⟨?_, ?_⟩⟩
    · exact hN n (le_trans (le_max_left N M) hn)
    · exact hM n (le_trans (le_max_right N M) hn)

end Execute

/-- **Every test prints what its own program does.** The tests `done` return, with these tables, when
each is started on an empty table. Run together they print these tables, one report after another, and
leave no program behind. A test after them that throws ends the driver when its name has been printed;
one that never ends keeps it from ending. -/
theorem main_reports (leftFirst : BinaryClass → Bool) (done : List (Test × SymbolTable))
    (hdone : ∀ p ∈ done, p.1.statement.EndsIn leftFirst ∅ (.ok ()) p.2) (c : Console) :
    let tests := done.map Prod.fst
    let output := c.output ++ "testing AST ..." :: reports done
    (∃ N, ∀ n, N ≤ n → ∃ w, (main leftFirst n tests).Gives c (.ok ()) ⟨w, output⟩ ∧
      w.programs = c.world.programs) ∧
    (∀ t rest stop U, t.statement.EndsIn leftFirst ∅ (.error stop) U → ∃ N, ∀ n, N ≤ n → ∃ w,
      (main leftFirst n (tests ++ t :: rest)).Gives c (.error stop)
        ⟨w, output ++ ["executing " ++ t.name]⟩) ∧
    ∀ t rest, (¬ ∃ r U, t.statement.EndsIn leftFirst ∅ r U) → ∀ n,
      (main leftFirst n (tests ++ t :: rest) c).result = .error .cut := by
  intro tests output
  have hsay : (say "testing AST ...").Gives c (.ok ()) _ := .write _ c
  obtain ⟨N, hN⟩ := exists_bound hdone
  have hfirst : ∀ n, N ≤ n → ∃ w, (Call.inTurn (tests.map (Test.execute leftFirst n))).Gives
      { c with output := c.output ++ ["testing AST ..."] } (.ok ()) ⟨w, output⟩ ∧
        w.programs = c.world.programs := by
    intro n hn
    have hgive := tests_give (hN n hn) { c with output := c.output ++ ["testing AST ..."] }
    simp only [List.append_assoc, List.singleton_append] at hgive
    exact hgive
  have hsplit : ∀ n t rest, main leftFirst n (tests ++ t :: rest) = (do
      say "testing AST ..."
      Call.inTurn (tests.map (Test.execute leftFirst n))
      t.execute leftFirst n
      Call.inTurn (rest.map (Test.execute leftFirst n))) := by
    intro n t rest
    rw [main, List.map_append, Call.inTurn_append]
    rfl
  refine ⟨⟨N, fun n hn => ?_⟩, fun t rest stop U hU => ?_, fun t rest hnot n => ?_⟩
  · obtain ⟨w, hw, hprograms⟩ := hfirst n hn
    exact ⟨w, hsay.bind hw, hprograms⟩
  · obtain ⟨M, hM⟩ := hU.exec
    refine ⟨max N M, fun n hn => ?_⟩
    obtain ⟨w, hw, -⟩ := hfirst n (le_trans (le_max_left N M) hn)
    obtain ⟨u, hu⟩ := (execute_gives t ⟨w, output⟩).2 stop U (hM n (le_trans (le_max_right N M) hn))
    rw [hsplit]
    exact ⟨u, hsay.bind (hw.bind hu.bind_error)⟩
  · rw [hsplit]
    rcases tests_give_or_cut (n := n) hdone { c with output := c.output ++ ["testing AST ..."] } with
      ⟨d, hd⟩ | ⟨d, hd⟩
    · obtain ⟨w, hw⟩ := (execute_gives t d).2 .cut _ ⟨exec_cut_of_endless hnot n, rfl⟩
      exact (hsay.bind (hd.bind hw.bind_error)).result
    · exact (hsay.bind hd.bind_error).result

/-- The first test of the driver, and one after it that reads a variable without a value. -/
theorem main_reports_first :
    let first : Test := ⟨"P1", .assignment "x" (.num 10)⟩
    let second : Test := ⟨"P2", .assignment "y" (.var "z")⟩
    ∃ n w, (main (fun _ => true) n [first, second]).Gives ⟨⟨[], none⟩, []⟩
      (.error (SymbolTable.notFound "z"))
      ⟨w, ["testing AST ...", "executing P1", "x : 10", "executing P2"]⟩ := by
  intro first second
  let table : SymbolTable := (∅ : SymbolTable).insert "x" 10
  have hfirst : first.statement.EndsIn (fun _ => true) ∅ (.ok ()) table := .act rfl
  have hsecond : second.statement.EndsIn (fun _ => true) ∅ (.error (SymbolTable.notFound "z")) ∅ :=
    .actThrows rfl
  obtain ⟨-, hthrows, -⟩ := main_reports (fun _ => true) [(first, table)]
    (List.forall_mem_singleton.mpr hfirst) ⟨⟨[], none⟩, []⟩
  obtain ⟨N, hN⟩ := hthrows second [] _ _ hsecond
  obtain ⟨w, hw⟩ := hN N (Nat.le_refl N)
  have hprint : table.print = ["x : 10"] := by
    rw [SymbolTable.print, entries, listing_singleton]
    rfl
  have hreport : reports [(first, table)] = ["executing P1", "x : 10"] := by
    simp only [reports, List.flatMap_cons, List.flatMap_nil, Test.report, hprint]
    rfl
  rw [hreport] at hw
  exact ⟨N, w, hw⟩

end ProgramAnalysis.Mycalc
