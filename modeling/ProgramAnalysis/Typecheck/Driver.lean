import ProgramAnalysis.Lib.Lines
import ProgramAnalysis.Lib.Loop
import ProgramAnalysis.Typecheck.Escapes
import ProgramAnalysis.Typecheck.Reference

/-!
# The driver of the typechecker

The class `Test` and `main` of `typechecker/driver.cc`, and what the environments print.

* `getType`, `FunctionTypeSig.toString`, `printValues`, `printFunctions`: the environments as text;
* **`printed_determines`**: an accepted program's environments can be read back from what is printed;
* `execute`, `handled`, `main`: the driver, with its handlers;
* `Program.report`, **`driver_reports`**: what it prints for any list of programs, and where it ends.

The state of the driver is what it has printed, line by line.
-/

namespace ProgramAnalysis.Typecheck

open Lib

/-! ## Printing -/

/-- The number of a type in its enumeration. -/
def Ty.number : Ty → ℕ
  | .INT => 0
  | .BOOL => 1
  | .VOID => 2
  | .NIL => 3
  | .CHAR => 4

/-- `getType`, which does not know `CHAR`. -/
def getType : Ty → String
  | .INT => "INT"
  | .BOOL => "BOOL"
  | .VOID => "VOID"
  | .NIL => "NIL"
  | .CHAR => "UnExpected Type"

/-- `FunctionTypeSig::toString`: parameters by their numbers, the result by its name. -/
def FunctionTypeSig.toString (sig : FunctionTypeSig) : String :=
  "(" ++ String.join (sig.parameterTypes.map fun partype => ToString.toString partype.number ++ ", ")
    ++ ") ===> " ++ getType sig.returnType

/-- The lines of `ValueEnv::print`. -/
def printValues (table : Table Ty) : List String := entries getType table

/-- The lines of `FunctionEnv::print`. -/
def printFunctions (table : Table FunctionTypeSig) : List String :=
  entries FunctionTypeSig.toString table

/-! ## Reading it back -/

/-- The digit of a type. -/
def Ty.digit (T : Ty) : Char := Nat.digitChar T.number

theorem digit_injective : Ty.digit.Injective := by
  intro S T
  cases S <;> cases T <;> decide

theorem getType_injective : getType.Injective := by
  intro S T
  cases S <;> cases T <;> decide

theorem toList_toString (sig : FunctionTypeSig) : sig.toString.toList =
    ('(' :: sig.parameterTypes.flatMap fun T => [T.digit, ',', ' ']) ++
      ')' :: (" ===> ".toList ++ (getType sig.returnType).toList) := by
  have hdigit : ∀ T : Ty, (ToString.toString T.number ++ ", ").toList = [T.digit, ',', ' '] := by
    intro T
    cases T <;> decide
  rw [FunctionTypeSig.toString]
  simp only [String.toList_append, String.toList_join, List.flatMap_map, hdigit]
  simp

theorem toString_injective : FunctionTypeSig.toString.Injective := by
  intro sig sig' h
  have hlist := congrArg String.toList h
  rw [toList_toString, toList_toString] at hlist
  have hparen : ∀ Ts : List Ty, ')' ∉ '(' :: Ts.flatMap fun T => [T.digit, ',', ' '] := by
    intro Ts hmem
    rcases List.mem_cons.mp hmem with hmem | hmem
    · exact absurd hmem (by decide)
    · obtain ⟨T, -, hT⟩ := List.mem_flatMap.mp hmem
      cases T <;> exact absurd hT (by decide)
  obtain ⟨hparams, hreturn⟩ := append_cons_inj (hparen _) (hparen _) hlist
  have hTs : ∀ Ts Us : List Ty, (Ts.flatMap fun T => [T.digit, ',', ' ']) =
      (Us.flatMap fun T => [T.digit, ',', ' ']) → Ts = Us := by
    intro Ts
    induction Ts with
    | nil =>
      intro Us hUs
      cases Us with
      | nil => rfl
      | cons U Us => simp at hUs
    | cons T Ts ih =>
      intro Us hUs
      cases Us with
      | nil => simp at hUs
      | cons U Us =>
        simp only [List.flatMap_cons, List.cons_append, List.nil_append, List.cons.injEq, true_and]
          at hUs
        rw [digit_injective hUs.1, ih Us hUs.2]
  have hreturns := getType_injective (String.toList_injective (List.append_cancel_left hreturn))
  cases sig
  cases sig'
  exact FunctionTypeSig.mk.injEq .. ▸ ⟨hTs _ _ (List.cons.inj hparams).2, hreturns⟩

/-- The characters of a type, and of a signature. -/
theorem notMem_getType {c : Char} (hc : c = '\n' ∨ c = ':') (T : Ty) : c ∉ (getType T).toList := by
  rcases hc with rfl | rfl
  · cases T <;> decide
  · cases T <;> decide

theorem notMem_toString {c : Char} (hc : c = '\n' ∨ c = ':') (sig : FunctionTypeSig) :
    c ∉ sig.toString.toList := by
  rw [toList_toString]
  simp only [List.cons_append, List.mem_cons, List.mem_append, List.mem_flatMap, not_or]
  have hreturn := notMem_getType hc sig.returnType
  refine ⟨?_, ?_, ?_, ?_, hreturn⟩
  · rcases hc with rfl | rfl <;> decide
  · rintro ⟨T, -, hT⟩
    rcases hc with rfl | rfl <;> cases T <;> exact absurd hT (by decide)
  · rcases hc with rfl | rfl <;> decide
  · rcases hc with rfl | rfl <;> decide

/-! ## The driver -/

/-- Calls that print. -/
abbrev Printing : Type := Call Exn (List String) Unit

/-- `cout << line << endl`. -/
def say (line : String) : Printing := Call.write fun output => output ++ [line]

/-- The typechecker of a test, after it has checked the program. -/
def checked (program : Program) : Except Exn Typechecker :=
  let o := typecheckProgram program Typechecker.new
  o.result.map fun _ => o.final

/-- `Typechecker::getValueEnv`, which dereferences the scope pointer. -/
def getValueEnv (tc : Typechecker) : Except Exn (Table Ty) :=
  match tc.valueEnv with
  | [] => .error .nullScope
  | table :: _ => .ok table

/-- `Test::execute`, for the program that `makeProgram` makes. -/
def execute (program : Program) : Printing := do
  say ("------------------------typechecking " ++ program.name ++ "--------------------")
  let tc ← Call.read fun _ => checked program
  say "Value environment:"
  let table ← Call.read fun _ => getValueEnv tc
  Call.inTurn ((printValues table).map say)
  say "Function environment:"
  Call.inTurn ((printFunctions tc.functionEnv).map say)
  say "*-----------------------------------------------------------"

/-- What the handlers of `main` print of an exception: they catch `std::string` and `const char *`. -/
def Exn.message : Exn → Option String
  | .string m => some m
  | .cstring m => some m
  | .badCast => none
  | .nullScope => none

/-- `try { m }` with the handlers of `main`. -/
def handled (m : Printing) : Printing := fun output =>
  let o := m output
  match o.result with
  | .ok _ => o
  | .error e =>
    match e.message with
    | none => o
    | some m =>
      let o' := say ("Typechecker exception : " ++ m) o.final
      ⟨o'.result, o'.final, o.visited ++ o'.visited⟩

/-- `main`, on the programs of its tests. -/
def main (programs : List Program) : Printing :=
  Call.inTurn (programs.map fun program => do
    say ""
    say ""
    handled (execute program))

/-! ## What is printed -/

/-- The header of a program. -/
def Program.header (P : Program) : List String :=
  ["", "", "------------------------typechecking " ++ P.name ++ "--------------------"]

/-- The lines after the header. -/
def Program.outcome (P : Program) : List String :=
  match P.verdict with
  | .ok _ => "Value environment:" :: (printValues (Declarations.into P.declarations ∅) ++
      "Function environment:" :: (printFunctions P.environments.functionEnv ++
        ["*-----------------------------------------------------------"]))
  | .error e => (e.message.map fun m => "Typechecker exception : " ++ m).toList

/-- The lines that the driver prints for a program. -/
def Program.report (P : Program) : List String := P.header ++ P.outcome

section Report

variable {P : Program} {output : List String}

theorem say_all (lines output : List String) :
    (Call.inTurn (lines.map say)).Gives output (.ok ()) (output ++ lines) := by
  have hall : (Call.inTurn (lines.map say)).Gives output (.ok ())
      (output ++ lines.flatMap fun line => [line]) :=
    .inTurn_map (g := id) (fun _ _ _ => .write _ _) output
  rwa [List.flatMap_singleton'] at hall

theorem handled_of_ok {m : Printing} {t : List String} (h : m.Gives output (.ok ()) t) :
    (handled m).Gives output (.ok ()) t := by
  have hsame : handled m output = m output := by
    simp only [handled, h.result]
  exact ⟨hsame ▸ h.result, hsame ▸ h.final⟩

theorem handled_of_message {m : Printing} {t : List String} {e : Exn} {text : String}
    (h : m.Gives output (.error e) t) (he : e.message = some text) :
    (handled m).Gives output (.ok ()) (t ++ ["Typechecker exception : " ++ text]) := by
  constructor
  · simp only [handled, h.result, he, say, Call.write_apply]
  · simp only [handled, h.result, he, h.final, say, Call.write_apply]

theorem handled_of_none {m : Printing} {t : List String} {e : Exn}
    (h : m.Gives output (.error e) t) (he : e.message = none) :
    (handled m).Gives output (.error e) t := by
  have hsame : handled m output = m output := by
    simp only [handled, h.result, he]
  exact ⟨hsame ▸ h.result, hsame ▸ h.final⟩

theorem checked_eq (P : Program) : checked P = P.verdict.map fun _ => P.environments := by
  obtain ⟨hresult, hfinal⟩ := typecheckProgram_gives P
  rw [checked, hresult]
  rcases hv : P.verdict with e | u
  · rfl
  · exact congrArg Except.ok (hfinal hv)

theorem checked_gives (P : Program) (output : List String) :
    (Call.read fun _ => checked P).Gives output (P.verdict.map fun _ => P.environments) output :=
  checked_eq P ▸ .read (fun _ => checked P) output

theorem getValueEnv_environments (P : Program) :
    getValueEnv P.environments = .ok (Declarations.into P.declarations ∅) := by
  rw [getValueEnv, Program.environments, registerAll_valueEnv]

theorem execute_of_error {e : Exn} (h : P.verdict = .error e) (output : List String) :
    (execute P).Gives output (.error e)
      (output ++ ["------------------------typechecking " ++ P.name ++ "--------------------"]) := by
  have hcheck := checked_gives P
  rw [h] at hcheck
  exact .bind (.write _ output) (hcheck _).bind_error

theorem execute_of_ok (h : P.verdict = .ok ()) (output : List String) :
    (execute P).Gives output (.ok ())
      (output ++ ("------------------------typechecking " ++ P.name ++ "--------------------") ::
        P.outcome) := by
  have hcheck := checked_gives P
  rw [h] at hcheck
  have htable : ∀ t : List String, (Call.read fun _ => getValueEnv P.environments).Gives t
      (.ok (Declarations.into P.declarations ∅)) t := fun t =>
    getValueEnv_environments P ▸ .read _ t
  have hall : (execute P).Gives output (.ok ()) _ :=
    .bind (.write _ _) (.bind (hcheck _) (.bind (.write _ _) (.bind (htable _)
      (.bind (say_all _ _) (.bind (.write _ _) (.bind (say_all _ _) (.write _ _)))))))
  simp only [List.append_assoc, List.cons_append, List.nil_append] at hall
  rw [Program.outcome, h]
  exact hall

/-- **One program**: its report, and a failed cast goes on. -/
theorem report_gives (P : Program) (output : List String) :
    (¬ P.Strands → (do say ""; say ""; handled (execute P)).Gives output (.ok ())
      (output ++ P.report)) ∧
    (P.Strands → (do say ""; say ""; handled (execute P)).Gives output (.error .badCast)
      (output ++ P.header)) := by
  have hraises := typecheckProgram_raises P
  rw [(typecheckProgram_gives P).1] at hraises
  have hblank : ∀ {r t}, (handled (execute P)).Gives (output ++ ["", ""]) r t →
      (do say ""; say ""; handled (execute P)).Gives output r t := by
    intro r t h
    refine .bind (.write _ output) (.bind (.write _ _) ?_)
    rw [List.append_assoc]
    exact h
  refine ⟨fun h => hblank ?_, fun h => hblank ?_⟩
  · rw [Program.report, Program.header]
    rcases hv : P.verdict with e | u
    · have hexecute := execute_of_error hv (output ++ ["", ""])
      rw [hv] at hraises
      rcases hm : e.message with - | text
      · cases e with
        | string m => cases hm
        | cstring m => cases hm
        | badCast => exact absurd (hraises.badCast.mp rfl) h
        | nullScope => exact absurd rfl hraises.nonnull
      · have hlast := handled_of_message hexecute hm
        rw [Program.outcome, hv]
        simp only [hm, List.append_assoc] at hlast ⊢
        exact hlast
    · have hlast := handled_of_ok (execute_of_ok hv (output ++ ["", ""]))
      simp only [List.append_assoc] at hlast ⊢
      exact hlast
  · have hlast := handled_of_none (execute_of_error (hraises.badCast.mpr h)
      (output ++ ["", ""])) rfl
    simp only [List.append_assoc] at hlast
    exact hlast

theorem accepted_of_verdict (h : P.verdict = .ok ()) : P.Accepted :=
  (typecheckProgram_returns P).iff.mp ((typecheckProgram_gives P).1.trans h)

theorem mem_registerAll {g : String} {fs : List FunctionDefinition} {σ : Typechecker}
    (h : g ∈ (σ.registerAll fs).functionEnv) :
    g ∈ σ.functionEnv ∨ ∃ f ∈ fs, f.name = g := by
  induction fs generalizing σ with
  | nil => exact .inl h
  | cons f fs ih =>
    rcases ih h with hmem | ⟨f', hf', rfl⟩
    · rcases Finmap.mem_insert.mp hmem with rfl | hmem
      · exact .inr ⟨f, List.mem_cons_self, rfl⟩
      · exact .inl hmem
    · exact .inr ⟨f', List.mem_cons_of_mem _ hf', rfl⟩

/-- No global variable and no function has a newline in its name. -/
structure Program.OneLineNames (P : Program) : Prop where
  variableNames : ∀ d ∈ P.declarations, '\n' ∉ d.getVariable.toList
  functionNames : ∀ f ∈ P.functionDefs, '\n' ∉ f.name.toList

theorem newline_notMem_printed (h : P.verdict = .ok ()) (hnames : P.OneLineNames) :
    (∀ l ∈ printValues (Declarations.into P.declarations ∅), '\n' ∉ l.toList) ∧
      ∀ l ∈ printFunctions P.environments.functionEnv, '\n' ∉ l.toList := by
  refine ⟨newline_notMem_entries (notMem_getType (.inl rfl)) fun x hx => ?_,
    newline_notMem_entries (notMem_toString (.inl rfl)) fun g hg => ?_⟩
  · have hfresh := freshIn_empty.mpr (accepted_of_verdict h).1
    obtain ⟨T, hT⟩ := Finmap.mem_iff.mp hx
    rw [lookup_into hfresh, Finmap.lookup_empty, Option.or_none] at hT
    have hmem : x ∈ Declarations.names P.declarations := by
      by_contra hout
      rw [Declarations.typeOf_eq_none_iff.mpr hout] at hT
      cases hT
    obtain ⟨d, hd, rfl⟩ := List.mem_map.mp hmem
    exact hnames.variableNames d hd
  · rcases mem_registerAll hg with hmem | ⟨f, hf, rfl⟩
    · exact absurd hmem Finmap.notMem_empty
    · exact hnames.functionNames f hf

theorem newline_notMem_outcome (h : P.verdict = .ok ()) (hnames : P.OneLineNames) :
    ∀ l ∈ P.outcome, '\n' ∉ l.toList := by
  obtain ⟨hvalues, hfunctions⟩ := newline_notMem_printed h hnames
  rw [Program.outcome, h]
  simp only [List.forall_mem_cons, List.forall_mem_append]
  exact ⟨by decide, hvalues, by decide, hfunctions, by decide⟩

end Report

/-- **The environments can be read back from what is printed of them.** Two accepted programs without
newlines in their names are reported by the same text exactly when they end with the same
environments. -/
theorem printed_determines {P P' : Program} (h : P.verdict = .ok ()) (h' : P'.verdict = .ok ())
    (hnames : P.OneLineNames) (hnames' : P'.OneLineNames) :
    text P.outcome = text P'.outcome ↔ P.environments = P'.environments := by
  have henv : ∀ P : Program, P.environments.valueEnv = [Declarations.into P.declarations ∅] :=
    fun P => registerAll_valueEnv _ _
  constructor
  · intro htext
    have hlines := text_injective (newline_notMem_outcome h hnames)
      (newline_notMem_outcome h' hnames') htext
    rw [Program.outcome, Program.outcome, h, h'] at hlines
    have hmarker : ∀ T : Table Ty, "Function environment:" ∉ printValues T := fun T =>
      notMem_entries (notMem_getType (.inr rfl)) (fun T => by cases T <;> decide) (by decide)
    obtain ⟨hvalues, hrest⟩ := append_cons_inj (hmarker _) (hmarker _) (List.cons.inj hlines).2
    have hfunctions := List.append_cancel_right hrest
    have hvalueEnv := entries_list_injective getType_injective (notMem_getType (.inr rfl)) hvalues
    have hfunctionEnv := entries_list_injective toString_injective (notMem_toString (.inr rfl))
      hfunctions
    have hext : ∀ σ τ : Typechecker, σ.valueEnv = τ.valueEnv → σ.functionEnv = τ.functionEnv →
        σ = τ := by
      rintro ⟨_, _⟩ ⟨_, _⟩ rfl rfl
      rfl
    exact hext _ _ (by rw [henv, henv, hvalueEnv]) hfunctionEnv
  · intro hsame
    have hvalues := congrArg Typechecker.valueEnv hsame
    rw [henv, henv] at hvalues
    rw [Program.outcome, Program.outcome, h, h', hsame, (List.cons.inj hvalues).1]

/-- `int x` and `bool x`, with nothing to run. -/
theorem printed_determines_type :
    let P : Ty → Program := fun T => ⟨"P", [⟨"x", T⟩], [], .skip⟩
    text (P .INT).outcome ≠ text (P .BOOL).outcome := by
  intro P
  have hnames : ∀ T, (P T).OneLineNames := fun T =>
    ⟨List.forall_mem_singleton.mpr (show '\n' ∉ "x".toList by decide), fun f hf => absurd hf List.not_mem_nil⟩
  refine mt (printed_determines rfl rfl (hnames .INT) (hnames .BOOL)).mp fun h => ?_
  have hlookup := congrArg (fun σ : Typechecker => (σ.valueEnv.map fun T => T.lookup "x")) h
  exact absurd hlookup (by decide)

/-- **What the driver prints.** While no program strands at a branch whose condition is no binary
expression, it prints the report of each, which depends on that program alone. At the first one that
strands it has printed the header, and ends with the failed cast. As in `Statement.verdict`, the variable
of an assignment is looked up before its expression. -/
theorem driver_reports (programs : List Program) (h : ∀ P ∈ programs, ¬ P.Strands)
    (output : List String) :
    (main programs).Gives output (.ok ()) (output ++ programs.flatMap Program.report) ∧
    ∀ P rest, P.Strands → (main (programs ++ P :: rest)).Gives output (.error .badCast)
      (output ++ programs.flatMap Program.report ++ P.header) := by
  have hall : (main programs).Gives output (.ok ()) (output ++ programs.flatMap Program.report) :=
    .inTurn_map (g := id) (fun P hP l => (report_gives P l).1 (h P hP)) output
  refine ⟨hall, fun P rest hP => ?_⟩
  rw [main, List.map_append, Call.inTurn_append]
  exact hall.bind ((report_gives P _).2 hP).bind_error

/-- A program with an undeclared variable, and one that branches on a variable. -/
theorem driver_reports_undeclared :
    let first : Program := ⟨"P1", [], [], .assignment "x" (.num 1)⟩
    let second : Program := ⟨"P2", [], [], .branch (.num 1) .skip .skip⟩
    (main [first, second]).Gives [] (.error .badCast)
      ["", "", "------------------------typechecking P1--------------------",
        "Typechecker exception : Variable x not found.", "", "",
        "------------------------typechecking P2--------------------"] := by
  intro first second
  have hfirst : ∀ P ∈ [first], ¬ P.Strands := by
    refine List.forall_mem_singleton.mpr fun h => ?_
    rcases h.2 with hdefs | ⟨-, hstatement⟩
    · cases hdefs
    · cases hstatement
  have hsecond : second.Strands := ⟨List.nodup_nil, .inr ⟨trivial, .here id⟩⟩
  exact (driver_reports [first] hfirst []).2 second [] hsecond

end ProgramAnalysis.Typecheck
