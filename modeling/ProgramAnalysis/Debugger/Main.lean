import ProgramAnalysis.Debugger.Command

/-!
# The main loop

The loop of `main` looks at the status of the wait before it. The waits of `Continue` and `nexti` have
a status of their own.

* `loopTest`, `mainLoop`: the test at the top of the loop; the loop on the lines to come;
* `ReportsEnd`, `handleCommand_of_reportsEnd`: the wait of a command reports that the child ended;
* `mainLoop_append`: a run of the loop, split at one of its commands;
* **`endsWithTarget_iff`**: the loop ends with the target only in runs where no wait reports its end.
-/

namespace ProgramAnalysis.Debugger

open Lib

/-- A command line, and what becomes of the child if the command resumes it. -/
structure Turn where
  line : List Char
  event : Event

/-- Where the loop stands: before `getline` with no line to come, or left. -/
inductive LoopEnd
  | reading
  | finished
  | unexpected
  | exited
  deriving DecidableEq

section Loop

variable (H : Host)

/-- The top of the loop, up to the prompt: how it is left there, if it is. -/
def loopTest (waitStatus : WaitStatus) : Debug (Option LoopEnd) := do
  match waitStatus with
  | .exited _ =>
    print .targetFinished
    return some .finished
  | .stopped _ =>
    let regs ← getregs H
    let _ ← peektext H regs.rip
    print (.prompt regs.rip)
    return none
  | status =>
    print (.unexpectedWaitStatus status)
    return some .unexpected

/-- The loop, with the lines it has not read at its end. Nothing in it writes `wait_status`. -/
def mainLoop (waitStatus : WaitStatus) : List Turn → Debug (LoopEnd × List Turn)
  | [] => do
    match ← loopTest H waitStatus with
    | some left => return (left, [])
    | none => return (.reading, [])
  | turn :: turns => do
    match ← loopTest H waitStatus with
    | some left => return (left, turn :: turns)
    | none =>
      match ← handleCommand H turn.line turn.event with
      | .exited => return (.exited, turns)
      | .returned => mainLoop waitStatus turns

end Loop

/-- The wait of the command reports that the child exited or was killed. `nexti` only waits when its
request succeeds. -/
def ReportsEnd (H : Host) (t : Turn) (s : Session) : Prop :=
  (ContinueLine t.line ∨ StepLine t.line ∧ H.succeeds s.requests.length = true) ∧
    ∀ signal, t.event.status ≠ .stopped signal

/-- After a wait that reports the end of the child, the loop is left at its next test: no line is read
and no request is made after the command. -/
def EndsWithTarget (H : Host) (waitStatus : WaitStatus) (s : Session) (ts : List Turn) : Prop :=
  ∀ done t rest, ts = done ++ t :: rest → (mainLoop H waitStatus done s).1.1 = .reading →
    ReportsEnd H t (mainLoop H waitStatus done s).2 →
      (mainLoop H waitStatus ts s).1.1 ≠ .reading ∧ (mainLoop H waitStatus ts s).1.2 = rest ∧
        (mainLoop H waitStatus ts s).2.requests =
          (handleCommand H t.line t.event (mainLoop H waitStatus done s).2).2.requests

section Runs

variable (H : Host) {waitStatus : WaitStatus} {s : Session}

/-- The state at the prompt. -/
def prompted (s : Session) : Session := (loopTest H (.stopped SIGTRAP) s).2

theorem loopTest_stopped (signal : ℕ) (s : Session) :
    loopTest H (.stopped signal) s = (none, prompted H s) := rfl

theorem mainLoop_nil (signal : ℕ) (s : Session) :
    mainLoop H (.stopped signal) [] s = ((.reading, []), prompted H s) := rfl

theorem mainLoop_cons_returned {signal : ℕ} {t : Turn} {ts : List Turn}
    (h : (handleCommand H t.line t.event (prompted H s)).1 = .returned) :
    mainLoop H (.stopped signal) (t :: ts) s =
      mainLoop H (.stopped signal) ts (handleCommand H t.line t.event (prompted H s)).2 := by
  simp only [mainLoop, debug_bind, loopTest_stopped, h]

theorem mainLoop_cons_exited {signal : ℕ} {t : Turn} {ts : List Turn}
    (h : (handleCommand H t.line t.event (prompted H s)).1 = .exited) :
    mainLoop H (.stopped signal) (t :: ts) s =
      ((.exited, ts), (handleCommand H t.line t.event (prompted H s)).2) := by
  simp only [mainLoop, debug_bind, loopTest_stopped, h, debug_pure]

/-- The loop only reads lines after a stop. -/
theorem stopped_of_reading {ts : List Turn}
    (h : (mainLoop H waitStatus ts s).1.1 = .reading) : ∃ signal, waitStatus = .stopped signal := by
  cases waitStatus with
  | exited code => cases ts <;> cases h
  | signaled signal => cases ts <;> cases h
  | stopped signal => exact ⟨signal, rfl⟩

/-- **A run of the loop, split at a command**: before it, the loop comes to the prompt. -/
theorem mainLoop_append {signal : ℕ} {done : List Turn} {t : Turn} {rest : List Turn}
    (h : (mainLoop H (.stopped signal) done s).1.1 = .reading)
    (hreturned : (handleCommand H t.line t.event (mainLoop H (.stopped signal) done s).2).1 =
      .returned) : mainLoop H (.stopped signal) (done ++ t :: rest) s =
        mainLoop H (.stopped signal) rest
          (handleCommand H t.line t.event (mainLoop H (.stopped signal) done s).2).2 := by
  induction done generalizing s with
  | nil =>
    rw [mainLoop_nil] at hreturned ⊢
    exact mainLoop_cons_returned H hreturned
  | cons u done ih =>
    rcases hflow : (handleCommand H u.line u.event (prompted H s)).1 with _ | _
    · rw [mainLoop_cons_returned H hflow] at h hreturned ⊢
      rw [List.cons_append, mainLoop_cons_returned H hflow]
      exact ih h hreturned
    · rw [mainLoop_cons_exited H hflow] at h
      cases h

/-- After a stop before it, the loop does not end without reading a line or waiting for one. -/
theorem mainLoop_reads (signal : ℕ) (ts : List Turn) (s : Session) :
    (mainLoop H (.stopped signal) ts s).1.1 = .reading ∨
      (mainLoop H (.stopped signal) ts s).1.2.length < ts.length := by
  induction ts generalizing s with
  | nil => exact .inl rfl
  | cons t ts ih =>
    rcases hflow : (handleCommand H t.line t.event (prompted H s)).1 with _ | _
    · rw [mainLoop_cons_returned H hflow]
      exact (ih _).imp_right fun h => Nat.lt_succ_of_lt h
    · rw [mainLoop_cons_exited H hflow]
      exact .inr (Nat.lt_succ_self _)

end Runs

/-! ## Reports -/

section Reports

variable {H : Host} {t : Turn} {s : Session}

theorem ReportsEnd.returned (h : ReportsEnd H t s) :
    (handleCommand H t.line t.event s).1 = .returned := by
  rcases h.1 with hline | ⟨hline, -⟩
  · rw [handleCommand_continue H t.event s hline]
  · obtain ⟨u, -, hu⟩ := handleCommand_step H t.event s hline
    rw [hu]

/-- **The command prints what the wait reported**; only `main` does not learn of it. -/
theorem ReportsEnd.printed (h : ReportsEnd H t s) :
    (handleCommand H t.line t.event s).2.output =
      s.output ++ [.unexpectedWaitStatus t.event.status] := by
  obtain ⟨hline, hstatus⟩ := h
  rcases hline with hline | ⟨hline, hok⟩
  · rw [handleCommand_continue H t.event s hline]
    show (Continue H t.event s).2.output = _
    rw [continue_ended H s hstatus, resume_host]
    rfl
  · obtain ⟨u, hsame, hu⟩ := handleCommand_step H t.event s hline
    obtain ⟨last, rfl⟩ : ∃ last, u = { s with lastCommand := last } := ⟨_, hsame⟩
    rw [hu]
    show (nexti H t.event { s with lastCommand := last }).2.output = _
    rw [nexti_ended H { s with lastCommand := last } hok hstatus]
    rfl

end Reports

/-- **The loop ends with its target** in a run exactly when no wait of the run reports the end of the
child: after such a report it always goes on. -/
theorem endsWithTarget_iff (H : Host) (waitStatus : WaitStatus) (s : Session) (ts : List Turn) :
    EndsWithTarget H waitStatus s ts ↔
      ∀ done t rest, ts = done ++ t :: rest → (mainLoop H waitStatus done s).1.1 = .reading →
        ¬ ReportsEnd H t (mainLoop H waitStatus done s).2 := by
  constructor
  · intro h done t rest hts hreading hend
    obtain ⟨hleft, hunread, -⟩ := h done t rest hts hreading hend
    obtain ⟨signal, rfl⟩ := stopped_of_reading H hreading
    rw [hts, mainLoop_append H hreading hend.returned] at hleft hunread
    rcases mainLoop_reads H signal rest _ with hreads | hreads
    · exact hleft hreads
    · rw [hunread] at hreads
      exact Nat.lt_irrefl _ hreads
  · intro h done t rest hts hreading hend
    exact absurd hend (h done t rest hts hreading)

/-- `continue` up to the exit of the child, then `nexti`: the loop asks the child for its registers and
steps it. -/
theorem exit_not_noticed :
    let exit : Turn := ⟨"continue".toList, ⟨.exited 0, (trapAt 0).regs⟩⟩
    let step : Turn := ⟨"nexti".toList, ⟨.exited 0, (trapAt 0).regs⟩⟩
    let s := Session.start (fun _ => 0x90) (trapAt 0x1000).regs
    let loop := mainLoop zeroHost.toHost (.stopped SIGTRAP)
    (loop [] s).1.1 = .reading ∧ ReportsEnd zeroHost.toHost exit (loop [] s).2 ∧
      (loop [exit, step] s).1 = (.reading, []) ∧
      (loop [exit, step] s).2.requests =
        [.getregs, .peektext 0x1000, .cont, .getregs, .peektext 0, .singlestep, .getregs,
          .peektext 0] := by
  refine ⟨rfl, ⟨.inl (by decide), fun signal h => by cases h⟩, rfl, ?_⟩
  decide

end ProgramAnalysis.Debugger
