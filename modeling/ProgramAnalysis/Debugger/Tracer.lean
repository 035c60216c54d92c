import ProgramAnalysis.Debugger.Native

/-!
# Counting instructions

The code of `ptrace.c`: a debugger that steps its child from its first instruction to its end, prints
every instruction and counts them.

* `traceLoop`, `runDebugger`: the loop of `run_debugger`, on the stops to come;
* `Life`: the states in which a child executes its instructions, up to its end;
* `traceLoop_step`, **`runDebugger_counts`**: one line and three requests for each instruction of the
  child, and at its end their number, modulo the width of the counter.
-/

namespace ProgramAnalysis.Debugger

open Lib

/-- What is printed. -/
inductive TracerLine
  | started
  | instruction (icounter : BitVec 32) (rip instr : BitVec 64)
  | perror
  | executed (icounter : BitVec 32)
  deriving DecidableEq

/-- How the loop is left, or that it waits for the child. -/
inductive TracerEnd
  | waiting
  | failed
  | counted
  deriving DecidableEq

section Loop

variable (H : Host)

/-- The body of the loop up to its wait: what it prints, and whether the child was stepped. -/
def traceRound (icounter : BitVec 32) : Debug (List TracerLine × Bool) := do
  let regs := (← get).regs
  if ← request H .getregs then
    let instr ← peektext H regs.rip
    let line := .instruction icounter regs.rip instr
    if ← request H .singlestep then
      return ([line], true)
    else
      return ([line, .perror], false)
  else
    return ([.perror], false)

/-- The loop of `run_debugger`, after a wait that reported `waitStatus`, with what the next waits
report. -/
def traceLoop (waitStatus : WaitStatus) (icounter : BitVec 32) :
    List Event → Debug (List TracerLine × TracerEnd)
  | [] =>
    match waitStatus with
    | .stopped _ => do
      let (lines, stepped) ← traceRound H (icounter + 1)
      return (lines, if stepped then .waiting else .failed)
    | _ => return ([.executed icounter], .counted)
  | ev :: events =>
    match waitStatus with
    | .stopped _ => do
      let (lines, stepped) ← traceRound H (icounter + 1)
      if stepped then
        modify fun s => { s with regs := ev.regs }
        let (rest, left) ← traceLoop ev.status (icounter + 1) events
        return (lines ++ rest, left)
      else
        return (lines, .failed)
    | _ => return ([.executed icounter], .counted)

/-- `run_debugger`, with the child at its first instruction. -/
def runDebugger (waitStatus : WaitStatus) (events : List Event) :
    Debug (List TracerLine × TracerEnd) := do
  let (lines, left) ← traceLoop H waitStatus 0 events
  return (.started :: lines, left)

end Loop

/-! ## The life of a child -/

section Life

variable {κ : Type} (P : Cpu κ) (mem : Memory 64)

/-- The child executes its instructions in these states, the last one ends it. It leaves the words of
`mem` alone, and a signal goes with the instruction that raises it, not with a stop of its own. -/
inductive Life : Child κ → List (Child κ) → Prop
  | ends {c : Child κ} {status : WaitStatus} : P.exec mem c = .ends status → Life c [c]
  | moves {c d : Child κ} {cs : List (Child κ)} : P.Moves mem c d → Life d cs → Life c (c :: cs)

/-- The lines for instructions executed in these states, after `i` others. -/
def instructionLines (i : BitVec 32) : List (Child κ) → List TracerLine
  | [] => []
  | c :: cs => .instruction (i + 1) c.1.rip (peek mem c.1.rip 8) :: instructionLines (i + 1) cs

/-- The requests for an instruction. -/
def instructionRequests (c : Child κ) : List Request := [.getregs, .peektext c.1.rip, .singlestep]

end Life

/-! ## The run -/

section Run

variable {κ : Type} {P : Cpu κ} {mem : Memory 64} (H : ReliableHost) {s : Session} {i : BitVec 32}

/-- A round on a child that lets itself be traced. -/
theorem traceRound_eq (c : Child κ) (hmem : s.mem = mem) (hregs : s.regs = c.1) :
    traceRound H.toHost i s = (([.instruction i c.1.rip (peek mem c.1.rip 8)], true),
      { s with requests := s.requests ++ instructionRequests c }) := by
  have hok : ∀ n, H.toHost.succeeds n = true := H.succeeds_all
  subst hmem
  simp [traceRound, request_host, peektext_host, Host.ok, hok, Session.log, hregs, instructionRequests]

/-- The loop, once more. -/
theorem traceLoop_stopped (c : Child κ) (hmem : s.mem = mem) (hregs : s.regs = c.1) (signal : ℕ)
    (ev : Event) (events : List Event) :
    traceLoop H.toHost (.stopped signal) i (ev :: events) s =
      let t := { s with regs := ev.regs, requests := s.requests ++ instructionRequests c }
      let r := traceLoop H.toHost ev.status (i + 1) events t
      ((.instruction (i + 1) c.1.rip (peek mem c.1.rip 8) :: r.1.1, r.1.2), r.2) := by
  simp only [traceLoop, debug_bind, traceRound_eq H c hmem hregs, if_true, debug_modify, debug_pure,
    List.singleton_append]

/-- After a wait that reports the end, the loop prints its counter. -/
theorem traceLoop_ended (H : Host) {status : WaitStatus} (h : ∀ signal, status ≠ .stopped signal)
    (events : List Event) :
    traceLoop H status i events s = (([.executed i], .counted), s) := by
  cases status with
  | stopped signal => exact absurd rfl (h signal)
  | exited code => cases events <;> rfl
  | signaled signal => cases events <;> rfl

/-- What the wait after an instruction reports that does not end the child. -/
theorem stopped_of_moves {c d : Child κ} {ev : Event} (hmoves : P.Moves mem c d)
    (hev : Reports (P.exec mem c) ev) : (∃ signal, ev.status = .stopped signal) ∧ ev.regs = d.1 := by
  rw [Processor.Moves] at hmoves
  rcases hexec : P.exec mem c with d' | ⟨d', signal⟩ | status
  · rw [hexec] at hev hmoves
    cases hev
    cases hmoves
    exact ⟨⟨SIGTRAP, rfl⟩, rfl⟩
  · rw [hexec] at hev hmoves
    cases hev
    cases hmoves
    exact ⟨⟨signal, rfl⟩, rfl⟩
  · rw [hexec] at hmoves
    cases hmoves

/-- **The loop on the life of a child.** -/
theorem traceLoop_life {c : Child κ} {cs : List (Child κ)} {events : List Event}
    (hlife : Life P mem c cs) (hev : List.Forall₂ (fun c ev => Reports (P.exec mem c) ev) cs events)
    (hmem : s.mem = mem) (hregs : s.regs = c.1) (signal : ℕ) :
    let r := traceLoop H.toHost (.stopped signal) i events s
    r.1 = (instructionLines mem i cs ++ [.executed (i + BitVec.ofNat 32 cs.length)], .counted) ∧
      r.2.requests = s.requests ++ cs.flatMap instructionRequests := by
  induction hlife generalizing s i events signal with
  | @ends c status hends =>
    rcases hev with - | ⟨hlast, hnil⟩
    cases hnil
    rename_i ev
    rw [hends] at hlast
    have hstatus : ∀ signal, ev.status ≠ .stopped signal := fun signal =>
      (show ev.status = status from hlast) ▸ P.ended mem c status signal hends
    simp only [traceLoop_stopped H c hmem hregs, traceLoop_ended H.toHost hstatus]
    exact ⟨rfl, by simp⟩
  | @moves c d cs hmoves _ ih =>
    rcases hev with - | ⟨hfirst, hrest⟩
    rename_i ev events
    obtain ⟨⟨signal', hstatus⟩, hd⟩ := stopped_of_moves hmoves hfirst
    obtain ⟨hlines, hrequests⟩ := ih (i := i + 1)
      (s := { s with regs := ev.regs, requests := s.requests ++ instructionRequests c })
      hrest hmem hd signal'
    simp only [traceLoop_stopped H c hmem hregs, hstatus, hlines, hrequests]
    refine ⟨?_, by simp⟩
    have hcount : i + 1 + BitVec.ofNat 32 cs.length = i + BitVec.ofNat 32 (c :: cs).length := by
      rw [List.length_cons, Nat.add_comm cs.length 1, BitVec.ofNat_add, ← BitVec.add_assoc]
      rfl
    rw [instructionLines, hcount]
    rfl

end Run

/-- **Counting.** On a child that is traced all its life, does not write its instructions, and stops once
for each of them and at nothing else, `run_debugger` prints one line for each instruction it executes, with
the word there, and at the end their number modulo `2 ^ 32`; it asks for nothing but the registers, the word
and the step of each of them. -/
theorem runDebugger_counts {κ : Type} (P : Cpu κ) (H : ReliableHost) (mem : Memory 64) (c : Child κ)
    (cs : List (Child κ)) (events : List Event) (signal : ℕ) (hlife : Life P mem c cs)
    (hev : List.Forall₂ (fun c ev => Reports (P.exec mem c) ev) cs events) :
    let r := runDebugger H.toHost (.stopped signal) events (Session.start mem c.1)
    r.1 = (.started :: (instructionLines mem 0 cs ++ [.executed (BitVec.ofNat 32 cs.length)]),
      .counted) ∧ r.2.requests = cs.flatMap instructionRequests := by
  obtain ⟨hlines, hrequests⟩ :=
    traceLoop_life H (i := 0) (s := Session.start mem c.1) hlife hev rfl rfl signal
  simp only [runDebugger, debug_bind, debug_pure, hlines, zero_add]
  exact ⟨trivial, hrequests⟩

/-- Two `NOP`s and an exit. -/
theorem runDebugger_counts_three :
    let mem : Memory 64 := fun p => if p = 0x1002 then 0x0f else 0x90
    let exit : Event := ⟨.exited 0, (trapAt 0).regs⟩
    (runDebugger zeroHost.toHost (.stopped SIGTRAP) [trapAt 0x1001, trapAt 0x1002, exit]
      (Session.start mem (childAt 0x1000).1)).1.1.getLast? = some (.executed 3) := by
  intro mem exit
  have hlife : Life nops mem (childAt 0x1000) [childAt 0x1000, childAt 0x1001, childAt 0x1002] :=
    .moves rfl (.moves rfl (.ends rfl))
  have hev : List.Forall₂ (fun c ev => Reports (nops.exec mem c) ev)
      [childAt 0x1000, childAt 0x1001, childAt 0x1002] [trapAt 0x1001, trapAt 0x1002, exit] :=
    .cons rfl (.cons rfl (.cons rfl .nil))
  have h := (runDebugger_counts nops zeroHost mem (childAt 0x1000) _ _ SIGTRAP hlife hev).1
  rw [h, ← List.cons_append]
  exact List.getLast?_concat

end ProgramAnalysis.Debugger
