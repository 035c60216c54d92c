import ProgramAnalysis.Debugger.Main
import ProgramAnalysis.Lib.FirstSeen
import ProgramAnalysis.Lib.Keeps

/-!
# The history of steps

* `Session.history`: the entries of `executed_instructions` in use;
* `turn`, `stopOf`, `stops`: one round of the main loop, where its step stopped the child, and the stops
  of a run;
* `handleCommand_keeps`: the other commands leave the history alone;
* `recordStep_spec`, `turn_history`: what one step does to it;
* `mainLoop_eq_run`, **`step_history`**: all along a run of the main loop, the history is the first
  distinct stops.
-/

namespace ProgramAnalysis.Debugger

open Lib

/-! ## Histories and stops -/

/-- `executed_instructions` and `instruction_count`. -/
def Session.executed (s : Session) : (ℕ → BitVec 64) × ℕ :=
  (s.executedInstructions, s.instructionCount)

/-- The first `instruction_count` entries of `executed_instructions`. -/
def Session.history (s : Session) : List (BitVec 64) :=
  (List.range s.instructionCount).map s.executedInstructions

/-- The array is as it was, or its next entry, which is inside of it, was written. -/
def WritesNext (s t : Session) : Prop :=
  t.executed = s.executed ∨ ∃ rip, s.instructionCount < maxExecutedInstructions ∧ t.executed =
    (Function.update s.executedInstructions s.instructionCount rip, s.instructionCount + 1)

/-- What a command prints. -/
def printedBy {α : Type} (x : Debug α) (s : Session) : List Message :=
  (x s).2.output.drop s.output.length

section Turns

variable (H : Host)

/-- One round of the main loop, after a stop: the prompt and a command. -/
def turn (t : Turn) (s : Session) : Session := (handleCommand H t.line t.event (prompted H s)).2

/-- Where the step of a round stops the child, as `nexti` reads it: there is a step, its request succeeds
and the child stops. -/
def stopOf (t : Turn) (s : Session) : Option (BitVec 64) :=
  if StepLine t.line ∧ H.ok (prompted H s) 0 then
    match t.event.status with
    | .stopped _ => some (stopRegs H t.event (prompted H s)).rip
    | _ => none
  else none

/-- The stops of the steps of a run. -/
def stops (s : Session) : List Turn → List (BitVec 64)
  | [] => []
  | t :: ts => (stopOf H t s).toList ++ stops (turn H t s) ts

/-- The command of a round reports a loop. -/
def ReportsLoop (t : Turn) (s : Session) : Prop :=
  ∃ rip, .detectedLoop rip ∈ printedBy (handleCommand H t.line t.event) (prompted H s)

theorem stops_concat (s : Session) (ts : List Turn) (t : Turn) :
    stops H s (ts ++ [t]) = stops H s ts ++ (stopOf H t (run (turn H) s ts)).toList := by
  induction ts generalizing s with
  | nil => rw [List.nil_append, stops, stops, stops, List.append_nil, List.nil_append, run_nil]
  | cons u ts ih =>
    rw [List.cons_append, stops, stops, ih, List.append_assoc]
    rfl

end Turns

/-! ## What the other commands keep -/

section Keeps

variable (H : Host)

theorem print_keeps (m : Message) : Keeps Session.executed (print m) := .modify fun _ => rfl

theorem request_keeps (r : Request) : Keeps Session.executed (request H r) := fun _ => rfl

theorem peektext_keeps (addr : BitVec 64) : Keeps Session.executed (peektext H addr) :=
  .bind .get fun _ => .bind (request_keeps H _) fun _ => .ite (fun _ => .ret _) fun _ => .ret _

theorem poketext_keeps (addr data : BitVec 64) : Keeps Session.executed (poketext H addr data) := by
  intro s
  rw [poketext_host]
  rfl

theorem getregs_keeps : Keeps Session.executed (getregs H) :=
  .bind .get fun _ => .bind (request_keeps H _) fun _ => .ite (fun _ => .ret _) fun _ => .ret _

theorem setregs_keeps (regs : Regs) : Keeps Session.executed (setregs H regs) := by
  intro s
  rw [setregs_host]
  rfl

theorem resume_keeps (r : Request) (ev : Event) : Keeps Session.executed (resume H r ev) := by
  intro s
  rw [resume_host]
  rfl

theorem insertBreakpoint_keeps (addr data : BitVec 32) :
    Keeps Session.executed (insertBreakpoint addr data) := by
  refine .modify fun s => ?_
  split_ifs
  · rfl
  · rfl

theorem setBreakpoint_keeps (addr : BitVec 32) : Keeps Session.executed (setBreakpoint H addr) :=
  .bind (peektext_keeps H _) fun _ => .bind (print_keeps _) fun _ => .bind (print_keeps _) fun _ =>
    .bind (poketext_keeps H _ _) fun _ => .bind (print_keeps _) fun _ =>
      .bind (peektext_keeps H _) fun _ => .bind (print_keeps _) fun _ => .bind (print_keeps _) fun _ =>
        insertBreakpoint_keeps _ _

theorem handleTrap_keeps (regs : Regs) : Keeps Session.executed (handleTrap H regs) := by
  refine .bind (print_keeps _) fun _ => .bind (print_keeps _) fun _ => .bind .get fun s => ?_
  split
  · refine .bind (print_keeps _) fun _ => .bind (poketext_keeps H _ _) fun _ => ?_
    refine .ite (fun _ => ?_) fun _ => print_keeps _
    refine .bind (print_keeps _) fun _ => .bind (setregs_keeps H _) fun _ => ?_
    refine .ite (fun _ => ?_) fun _ => print_keeps _
    exact .bind (.modify fun _ => rfl) fun _ => print_keeps _
  · exact print_keeps _

theorem continue_keeps (ev : Event) : Keeps Session.executed (Continue H ev) := by
  refine .bind (resume_keeps H _ ev) fun _ => ?_
  split
  · refine .bind (getregs_keeps H) fun regs => ?_
    refine .ite (fun _ => handleTrap_keeps H regs) fun _ => ?_
    exact .ite (fun _ => print_keeps _) fun _ => print_keeps _
  · exact print_keeps _

theorem listFrom_keeps (i : ℕ) (addrs : List (BitVec 32)) :
    Keeps Session.executed (listFrom i addrs) := by
  induction addrs generalizing i with
  | nil => exact .ret _
  | cons addr addrs ih => exact .bind (print_keeps _) fun _ => ih (i + 1)

/-- **Every command but a step** leaves the history alone. -/
theorem handleCommand_keeps {line : List Char} (ev : Event) (h : ¬ StepLine line) :
    Keeps Session.executed (handleCommand H line ev) := by
  have hlast : ∀ flow, Keeps Session.executed (do setLastCommand line; return flow : Debug Flow) :=
    fun flow => .bind (.modify fun _ => rfl) fun _ => .ret flow
  -- one case for each branch of the chain, in its order
  refine .ite (fun _ => ?_) fun _ => .ite (fun _ => ?_) fun _ => .ite (fun _ => ?_) fun _ =>
    .ite (fun hnext => ?_) fun _ => .ite (fun _ => ?_) fun _ => .ite (fun _ => ?_) fun _ =>
      .ite (fun _ => ?_) fun _ => .ite (fun hempty => ?_) fun _ => ?_
  · exact .bind (request_keeps H _) fun _ => .bind (print_keeps _) fun _ => .ret _
  · exact .bind (.ret ()) fun _ => hlast _
  · exact .bind (continue_keeps H ev) fun _ => hlast _
  · exact absurd (hnext.imp_right .inl) h
  · exact .bind (.bind .get fun _ => setBreakpoint_keeps H _) fun _ => hlast _
  · exact .bind (.bind .get fun _ => .bind (request_keeps H _) fun _ => print_keeps _) fun _ => hlast _
  · refine .bind (.bind (print_keeps _) fun _ => .bind .get fun s => ?_) fun _ => hlast _
    exact listFrom_keeps 0 _
  · exact absurd (.inr (.inr hempty)) h
  · exact .bind (print_keeps _) fun _ => .bind (.modify fun _ => rfl) fun _ => .ret _

theorem prompted_keeps (s : Session) : (prompted H s).executed = s.executed := by
  have hkeeps : Keeps Session.executed (loopTest H (.stopped SIGTRAP)) :=
    .bind (getregs_keeps H) fun _ => .bind (peektext_keeps H _) fun _ =>
      .bind (print_keeps _) fun _ => .ret _
  exact hkeeps s

end Keeps

/-! ## What a step does -/

section Step

variable (H : Host) {s t : Session} {rip : BitVec 64}

theorem history_congr (h : t.executed = s.executed) : t.history = s.history := by
  obtain ⟨hentries, hcount⟩ := Prod.mk.inj h
  rw [Session.history, Session.history, hentries, hcount]

theorem history_length (s : Session) : s.history.length = s.instructionCount := by
  rw [Session.history, List.length_map, List.length_range]

/-- The search finds what is in the history. -/
theorem hasExecuted_iff : s.hasExecuted rip = true ↔ rip ∈ s.history := by
  rw [Session.hasExecuted, Session.history, List.any_eq_true, List.mem_map]
  exact exists_congr fun i => and_congr_right fun _ => beq_iff_eq

/-- An entry written behind the history lengthens it. -/
theorem history_update (h : t.executed =
    (Function.update s.executedInstructions s.instructionCount rip, s.instructionCount + 1)) :
    t.history = s.history ++ [rip] := by
  obtain ⟨hentries, hcount⟩ := Prod.mk.inj h
  rw [Session.history, hentries, hcount, List.range_succ, List.map_append, List.map_singleton,
    Function.update_self, Session.history]
  congr 1
  refine List.map_congr_left fun i hi => Function.update_of_ne ?_ _ _
  exact Nat.ne_of_lt (List.mem_range.mp hi)

/-- What a step that stops at `rip` does to the history, and what it prints. -/
structure Recorded (s t : Session) (rip : BitVec 64) (printed : List Message) : Prop where
  writes : WritesNext s t
  history : t.history = record maxExecutedInstructions s.history rip
  reports : (∃ rip', .detectedLoop rip' ∈ printed) ↔ rip ∈ s.history

theorem Recorded.congr {s' t' : Session} {printed : List Message} (h : Recorded s t rip printed)
    (hs : s'.executed = s.executed) (ht : t'.executed = t.executed) :
    Recorded s' t' rip printed := by
  have hwrites := h.writes
  obtain ⟨hentries, hcount⟩ := Prod.mk.inj hs
  refine ⟨?_, ?_, ?_⟩
  · rw [WritesNext, hs, ht, hentries, hcount]
    exact hwrites
  · rw [history_congr ht, history_congr hs]
    exact h.history
  · rw [history_congr hs]
    exact h.reports

/-- **What a step does with its stop.** -/
theorem recordStep_spec (s : Session) (rip : BitVec 64) :
    Recorded s (recordStep rip s).2 rip (printedBy (recordStep rip) s) := by
  by_cases hseen : rip ∈ s.history
  · have hstep : (recordStep rip s).2 = { s with output := s.output ++ [.detectedLoop rip] } := by
      simp [recordStep, hasExecuted_iff.mpr hseen]
    refine ⟨.inl (by rw [hstep]; rfl), ?_, iff_of_true ⟨rip, ?_⟩ hseen⟩
    · rw [hstep, record, if_pos hseen]
      rfl
    · rw [printedBy, hstep, List.drop_left]
      exact List.mem_singleton_self _
  have hnot : s.hasExecuted rip = false :=
    Bool.eq_false_iff.mpr fun h => hseen (hasExecuted_iff.mp h)
  have hlength := history_length s
  by_cases hroom : s.instructionCount < maxExecutedInstructions
  · have hstep : (recordStep rip s).2 = { s with
        executedInstructions := Function.update s.executedInstructions s.instructionCount rip
        instructionCount := s.instructionCount + 1
        output := s.output ++ [.singleStepCompleted rip] } := by
      simp [recordStep, hnot, hroom]
    refine ⟨.inr ⟨rip, hroom, by rw [hstep]; rfl⟩, ?_, iff_of_false ?_ hseen⟩
    · rw [record, if_neg hseen, hlength, if_pos hroom]
      exact history_update (by rw [hstep]; rfl)
    · rw [printedBy, hstep, List.drop_left]
      simp
  · have hstep : (recordStep rip s).2 =
        { s with output := s.output ++ [.limitReached, .singleStepCompleted rip] } := by
      simp [recordStep, hnot, hroom]
    refine ⟨.inl (by rw [hstep]; rfl), ?_, iff_of_false ?_ hseen⟩
    · rw [hstep, record, if_neg hseen, hlength, if_neg hroom]
      rfl
    · rw [printedBy, hstep, List.drop_left]
      simp

/-- A step that stops records what `nexti` reads. -/
theorem nexti_of_stopped {ev : Event} {signal : ℕ} (hok : H.ok s 0 = true)
    (hstatus : ev.status = .stopped signal) :
    Recorded s (nexti H ev s).2 (stopRegs H ev s).rip (printedBy (nexti H ev) s) := by
  have hnexti := nexti_stopped H s hok hstatus
  have hprinted : printedBy (nexti H ev) s = printedBy (recordStep (stopRegs H ev s).rip)
      ({ s.log .singlestep with regs := ev.regs }.log .getregs) := by
    rw [printedBy, hnexti]
    rfl
  rw [hnexti, hprinted]
  exact (recordStep_spec _ _).congr rfl rfl

/-- A step that fails, or whose child does not stop, records nothing. -/
theorem nexti_of_not_stopped {ev : Event}
    (h : H.ok s 0 = true → ∀ signal, ev.status ≠ .stopped signal) :
    (nexti H ev s).2.executed = s.executed := by
  cases hok : H.ok s 0
  · rw [nexti_failed H s hok]
    rfl
  · rw [nexti_ended H s hok (h hok)]
    rfl

end Step

/-! ## Rounds -/

section Round

variable (H : Host) {t : Turn} {s : Session}

theorem stopOf_eq_some_iff {rip : BitVec 64} : stopOf H t s = some rip ↔
    StepLine t.line ∧ H.ok (prompted H s) 0 = true ∧ (∃ signal, t.event.status = .stopped signal) ∧
      rip = (stopRegs H t.event (prompted H s)).rip := by
  unfold stopOf
  split_ifs with h
  · rcases hstatus : t.event.status with code | signal | signal
    · simp
    · simp
    · simp [h.1, h.2, eq_comm]
  · simp only [false_iff]
    exact fun hstop => h ⟨hstop.1, hstop.2.1⟩

/-- **A round whose step stops records its stop.** -/
theorem turn_of_stop {rip : BitVec 64} (h : stopOf H t s = some rip) :
    Recorded s (turn H t s) rip (printedBy (handleCommand H t.line t.event) (prompted H s)) := by
  obtain ⟨hline, hok, ⟨signal, hstatus⟩, rfl⟩ := (stopOf_eq_some_iff H).mp h
  obtain ⟨u, hu, hcommand⟩ := handleCommand_step H t.event (prompted H s) hline
  obtain ⟨last, rfl⟩ : ∃ last, u = { prompted H s with lastCommand := last } := ⟨_, hu⟩
  have hnexti := nexti_of_stopped H (s := { prompted H s with lastCommand := last }) hok hstatus
  have hprinted : printedBy (handleCommand H t.line t.event) (prompted H s) =
      printedBy (nexti H t.event) { prompted H s with lastCommand := last } := by
    rw [printedBy, hcommand]
    rfl
  rw [hprinted, turn, hcommand]
  exact hnexti.congr (prompted_keeps H s).symm rfl

/-- **Any other round leaves the history alone.** -/
theorem turn_of_no_stop (h : stopOf H t s = none) : (turn H t s).executed = s.executed := by
  refine Eq.trans ?_ (prompted_keeps H s)
  by_cases hline : StepLine t.line
  · obtain ⟨u, hu, hcommand⟩ := handleCommand_step H t.event (prompted H s) hline
    obtain ⟨last, rfl⟩ : ∃ last, u = { prompted H s with lastCommand := last } := ⟨_, hu⟩
    rw [turn, hcommand]
    refine nexti_of_not_stopped H (s := { prompted H s with lastCommand := last })
      fun hok signal hstatus => ?_
    rw [(stopOf_eq_some_iff H).mpr ⟨hline, hok, ⟨signal, hstatus⟩, rfl⟩] at h
    cases h
  · exact handleCommand_keeps H t.event hline (prompted H s)

end Round

/-- **The main loop is its rounds**, until `exit`. -/
theorem mainLoop_eq_run (H : Host) (signal : ℕ) {ts : List Turn}
    (h : ∀ t ∈ ts, t.line ≠ "exit".toList) (s : Session) :
    mainLoop H (.stopped signal) ts s = ((.reading, []), prompted H (run (turn H) s ts)) := by
  induction ts generalizing s with
  | nil => rfl
  | cons t ts ih =>
    obtain ⟨ht, hts⟩ := List.forall_mem_cons.mp h
    have hreturned : (handleCommand H t.line t.event (prompted H s)).1 = .returned := by
      rw [handleCommand, if_neg ht]
      split_ifs <;> rfl
    rw [mainLoop_cons_returned H hreturned, ih hts]
    rfl

/-- **The history of steps**, all along any run of the main loop: it is the first distinct stops, in the
order of their first appearance, as many as fit. A command writes the next free entry of the array at
most, and a step reports a loop exactly when its stop is in the history; while that has room, this
means that an earlier step stopped there. -/
theorem step_history (H : Host) (mem : Memory 64) (regs : Regs) (ts : List Turn) :
    let s := run (turn H) (Session.start mem regs) ts
    let seen := stops H (Session.start mem regs) ts
    s.history = seen.eraseDups.take maxExecutedInstructions ∧ s.history.Nodup ∧
    s.instructionCount ≤ maxExecutedInstructions ∧
    ∀ t, WritesNext s (turn H t s) ∧ ∀ rip, stopOf H t s = some rip →
      (ReportsLoop H t s ↔ rip ∈ s.history) ∧
      (s.instructionCount < maxExecutedInstructions → (ReportsLoop H t s ↔ rip ∈ seen)) := by
  intro s seen
  have hhistory : s.history = seen.eraseDups.take maxExecutedInstructions := by
    induction ts using List.reverseRecOn with
    | nil => rfl
    | append_singleton ts t ih =>
      simp only [s, seen, run_concat, stops_concat]
      rcases hstop : stopOf H t (run (turn H) (Session.start mem regs) ts) with - | rip
      · rw [history_congr (turn_of_no_stop H hstop), Option.toList_none, List.append_nil]
        exact ih
      · rw [(turn_of_stop H hstop).history, Option.toList_some, ← record_firstSeen]
        exact congrArg (fun h => record maxExecutedInstructions h rip) ih
  have hlength := history_length s
  refine ⟨hhistory, ?_, ?_, fun t => ⟨?_, fun rip hstop => ⟨?_, fun hroom => ?_⟩⟩⟩
  · rw [hhistory]
    exact (nodup_eraseDups seen).sublist (List.take_sublist _ _)
  · rw [← hlength, hhistory]
    exact List.length_take_le _ _
  · rcases hstop : stopOf H t s with - | rip
    · exact .inl (turn_of_no_stop H hstop)
    · exact (turn_of_stop H hstop).writes
  · exact (turn_of_stop H hstop).reports
  · have hreports : ReportsLoop H t s ↔ rip ∈ s.history := (turn_of_stop H hstop).reports
    rw [← hlength, hhistory] at hroom
    rw [hreports, hhistory, mem_firstSeen_iff hroom]

end ProgramAnalysis.Debugger
