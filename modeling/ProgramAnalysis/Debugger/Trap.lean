import ProgramAnalysis.Debugger.Command

/-!
# Running into a planted trap

* `RunsInto`: the command makes the child execute the trap of a breakpoint;
* `TrapHandled`: the child stands before the instruction again, with its byte back and the breakpoint
  gone;
* `trapHandled_of_continue`, `not_trapHandled_of_step`: `Continue` does that with the saved byte,
  `nexti` does not;
* **`traps_handled_iff`**: a run handles its traps exactly when no step runs into one, as long as the
  saved bytes are the original ones.
-/

namespace ProgramAnalysis.Debugger

open Lib

/-- The line resumes the child, which executes the trap at `addr`: a step does when it starts there. -/
structure RunsInto (i : Input) (s : Session) (addr : BitVec 32) : Prop where
  resumes : ContinueLine i.line ∨ StepLine i.line
  active : addr ∈ s.breakpoints
  planted : s.mem (pointer addr) = 0xcc
  start : StepLine i.line → s.regs.rip = pointer addr
  status : i.event.status = .stopped SIGTRAP
  rip : i.event.regs.rip = pointer addr + 1

/-- The trap at `addr` was taken back. -/
structure TrapHandled (mem : Memory 64) (addr : BitVec 32) (t : Session) : Prop where
  rip : t.regs.rip = pointer addr
  byte : t.mem (pointer addr) = mem (pointer addr)
  removed : addr ∉ t.breakpoints

/-- Every trap the line runs into is handled. -/
def Handles (H : ReliableHost) (mem : Memory 64) (i : Input) (s : Session) : Prop :=
  ∀ addr, RunsInto i s addr → TrapHandled mem addr (command H i s)

/-- No step runs into a trap. -/
def NoStepInto (i : Input) (s : Session) : Prop := ∀ addr, RunsInto i s addr → ContinueLine i.line

/-- The trap the line runs into has the original byte saved. -/
def SavedAt (mem : Memory 64) (i : Input) (s : Session) : Prop :=
  ∀ addr data, RunsInto i s addr → s.breakpoints.lookup addr = some data →
    byte data 0 = mem (pointer addr)

section Trap

variable (H : ReliableHost) {mem : Memory 64} {i : Input} {s : Session} {addr data : BitVec 32}

theorem RunsInto.hits (h : RunsInto i s addr) (hdata : s.breakpoints.lookup addr = some data) :
    s.Hits i.event addr data := by
  refine ⟨h.status, ?_, hdata⟩
  have hback : pointer addr + 1 - 1 = pointer addr := BitVec.add_sub_cancel _ _
  rw [Event.addr, h.rip, hback]
  refine BitVec.eq_of_toNat_eq ?_
  rw [BitVec.toNat_setWidth, pointer_toNat, Nat.mod_eq_of_lt addr.isLt]

/-- **`Continue` takes the trap back**, and the byte is the saved one. -/
theorem trapHandled_of_continue (h : RunsInto i s addr) (hline : ContinueLine i.line)
    (hdata : s.breakpoints.lookup addr = some data) :
    TrapHandled mem addr (command H i s) ↔ byte data 0 = mem (pointer addr) := by
  have haction : i.action H s = some (.continue i.event) := if_pos hline
  have hsame := command_of_action H haction
  obtain ⟨hmem, hregs, hbreakpoints, -⟩ := continue_of_hits H s (h.hits hdata)
  have hbyte : (command H i s).mem (pointer addr) = byte data 0 := by
    rw [hsame.mem, act, hmem, restored_self]
  constructor
  · intro ht
    rw [← hbyte, ht.byte]
  · intro hsaved
    refine ⟨?_, hbyte.trans hsaved, ?_⟩
    · have hback : pointer addr + 1 - 1 = pointer addr := BitVec.add_sub_cancel _ _
      rw [hsame.regs, act, hregs, Regs.back, h.rip, hback]
    · rw [hsame.breakpoints, act, hbreakpoints, Finmap.mem_erase]
      exact fun hmem => hmem.1 rfl

/-- **`nexti` leaves `rip` behind the trap.** -/
theorem not_trapHandled_of_step (h : RunsInto i s addr) (hline : StepLine i.line) :
    ¬ TrapHandled mem addr (command H i s) := by
  intro ht
  have hrip := ht.rip
  rw [(command_of_step H hline).regs, h.rip] at hrip
  have hnat := congrArg BitVec.toNat hrip
  rw [BitVec.toNat_add, pointer_toNat] at hnat
  have hlt := addr.isLt
  have hone : (1 : BitVec 64).toNat = 1 := rfl
  omega

/-- A line handles its trap exactly when it is `continue` and the saved byte is the original one. -/
theorem handles_iff : Handles H mem i s ↔ NoStepInto i s ∧ SavedAt mem i s := by
  constructor
  · intro h
    have hcontinue : NoStepInto i s := fun addr hinto =>
      hinto.resumes.resolve_right fun hstep => not_trapHandled_of_step H hinto hstep (h addr hinto)
    refine ⟨hcontinue, fun addr data hinto hdata => ?_⟩
    exact (trapHandled_of_continue H hinto (hcontinue addr hinto) hdata).mp (h addr hinto)
  · rintro ⟨hcontinue, hsaved⟩ addr hinto
    obtain ⟨data, hdata⟩ := Finmap.mem_iff.mp hinto.active
    exact (trapHandled_of_continue H hinto (hcontinue addr hinto) hdata).mpr
      (hsaved addr data hinto hdata)

end Trap

/-- **Traps are handled** in a run of lines exactly when no step runs into one and those run into
have the original byte saved; and in a run whose breakpoints and hits spare the memory, exactly when
no step runs into one. -/
theorem traps_handled_iff (H : ReliableHost) (mem : Memory 64) (regs : Regs) (is : List Input) :
    (EachStep (command H) (Handles H mem) (Session.start mem regs) is ↔
      EachStep (command H) (fun i s => NoStepInto i s ∧ SavedAt mem i s)
        (Session.start mem regs) is) ∧
    (EachStep (command H) (Input.Spares H) (Session.start mem regs) is →
      (EachStep (command H) (Handles H mem) (Session.start mem regs) is ↔
        EachStep (command H) NoStepInto (Session.start mem regs) is)) := by
  have hiff : EachStep (command H) (Handles H mem) (Session.start mem regs) is ↔
      EachStep (command H) (fun i s => NoStepInto i s ∧ SavedAt mem i s)
        (Session.start mem regs) is := by
    constructor
    · exact fun h done i rest his => (handles_iff H).mp (h done i rest his)
    · exact fun h done i rest his => (handles_iff H).mpr (h done i rest his)
  refine ⟨hiff, fun hspares => hiff.trans ⟨fun h done i rest his => (h done i rest his).1, ?_⟩⟩
  intro h done i rest his
  have hsaved := (undamaged_commands_iff H mem regs is).2 hspares done (i :: rest) his
  exact ⟨h done i rest his, fun addr data _ hdata => hsaved addr data hdata⟩

/-- A breakpoint at the instruction the child stands at, and a step. -/
theorem step_onto_breakpoint_not_handled :
    let mem : Memory 64 := fun _ => 0x90
    let regs := (trapAt 0x1000).regs
    let set : Input := ⟨"break 0x1000".toList, trapAt 0, by decide⟩
    let step : Input := ⟨"nexti".toList, trapAt 0x1001, by decide⟩
    let s := run (command zeroHost) (Session.start mem regs) [set]
    let t := command zeroHost step s
    RunsInto step s 0x1000 ∧ t.regs.rip = 0x1001 ∧ t.mem 0x1000 = 0xcc ∧ 0x1000 ∈ t.breakpoints := by
  refine ⟨⟨by decide, by decide, by decide, fun _ => by decide, rfl, by decide⟩, ?_⟩
  decide

end ProgramAnalysis.Debugger
