import ProgramAnalysis.Debugger.Main
import ProgramAnalysis.Lib.Keeps

/-!
# The requests of a session

What the debugger asks of the system in any session, whatever its requests and its waits come to.

* `Request.Asks`: requests that read, or let the child run;
* `Logged`: the logs the debugger can have, with what they make of the memory and the breakpoints: it
  writes traps, each over the word it has read, and takes them back with the data it read, after which it
  sets `rip` to the place of the trap, as far as 32 bits tell;
* `Session.Logged`, `handleCommand_logged`: the log of a session; every command keeps it one;
* **`mainLoop_logged`**: the log of any session, which ends if the child is killed.
-/

namespace ProgramAnalysis.Debugger

open Lib

/-- The request reads, or lets the child run. -/
def Request.Asks : Request → Prop
  | .cont => True
  | .singlestep => True
  | .getregs => True
  | .peektext _ => True
  | _ => False

/-- The breakpoints, with the data saved for each. -/
abbrev Saved : Type := Finmap fun _ : BitVec 32 => BitVec 32

/-- What a log can be, and what the memory and the breakpoints are after it. -/
inductive Logged (H : Host) (mem : Memory 64) : List Request → Memory 64 → Saved → Prop
  | nil : Logged H mem [] mem ∅
  | asks {rs : List Request} {m : Memory 64} {B : Saved} {r : Request} :
    Logged H mem rs m B → r.Asks → Logged H mem (rs ++ [r]) m B
  /-- a trap over the word that was read -/
  | plants {rs : List Request} {m : Memory 64} {B : Saved} (addr data : BitVec 32) :
    Logged H mem rs m B →
      data = (if H.succeeds rs.length then (peek m (pointer addr) 8).setWidth 32 else -1) →
        Logged H mem
          (rs ++ [.peektext (pointer addr), .poketext (pointer addr) (pointer (withTrap data))])
          (if H.succeeds (rs.length + 1) then poke m (pointer addr) 8 (pointer (withTrap data)) else m)
          (if addr ∈ B then B else B.insert addr data)
  /-- a write of the saved data that fails -/
  | restores {rs : List Request} {m : Memory 64} {B : Saved} {addr data : BitVec 32} :
    Logged H mem rs m B → B.lookup addr = some data → H.succeeds rs.length = false →
        Logged H mem (rs ++ [.poketext (pointer addr) (pointer data)]) m B
  /-- one that succeeds, and the child sent back -/
  | moves {rs : List Request} {m : Memory 64} {B : Saved} {addr data : BitVec 32} (regs : Regs) :
    Logged H mem rs m B → B.lookup addr = some data → H.succeeds rs.length = true →
      regs.rip.setWidth 32 = addr →
        Logged H mem (rs ++ [.poketext (pointer addr) (pointer data), .setregs regs])
          (poke m (pointer addr) 8 (pointer data))
          (if H.succeeds (rs.length + 1) then B.erase addr else B)

/-- The log of the session is one, and has led to its memory and its breakpoints. -/
def Session.Logged (H : Host) (mem : Memory 64) (s : Session) : Prop :=
  Debugger.Logged H mem s.requests s.mem s.breakpoints

section Requests

variable (H : Host) {mem : Memory 64} {t : Session}

/-- With a log, a memory and breakpoints that come next. -/
theorem logged_of_eq {rs : List Request} {m : Memory 64} {B : Saved} (h : Logged H mem rs m B)
    (hrequests : t.requests = rs) (hmem : t.mem = m) (hbreakpoints : t.breakpoints = B) :
    t.Logged H mem := by
  unfold Session.Logged
  rw [hrequests, hmem, hbreakpoints]
  exact h

theorem print_logged (m : Message) : Preserves (Session.Logged H mem) (print m) :=
  .modify fun _ hs => hs

theorem request_logged {r : Request} (hr : r.Asks) : Preserves (Session.Logged H mem) (request H r) :=
  fun _ hs => hs.asks hr

theorem peektext_logged (addr : BitVec 64) : Preserves (Session.Logged H mem) (peektext H addr) :=
  .bind .get fun _ => .bind (request_logged H trivial) fun _ =>
    .ite (fun _ => .ret _) fun _ => .ret _

theorem getregs_logged : Preserves (Session.Logged H mem) (getregs H) :=
  .bind .get fun _ => .bind (request_logged H trivial) fun _ =>
    .ite (fun _ => .ret _) fun _ => .ret _

theorem resume_logged {r : Request} (hr : r.Asks) (ev : Event) :
    Preserves (Session.Logged H mem) (resume H r ev) := by
  intro s hs
  rw [resume_host]
  exact hs.asks hr

/-- **A set** plants its trap over the word it has read. -/
theorem setBreakpoint_logged (addr : BitVec 32) :
    Preserves (Session.Logged H mem) (setBreakpoint H addr) := by
  intro s hs
  obtain ⟨hmem, -, hbreakpoints, hrequests⟩ := setBreakpoint_host H s addr
  have hplants := Logged.plants addr (setData H addr s) hs rfl
  have hlog := hplants.asks (r := .peektext (pointer addr)) trivial
  rw [List.append_assoc] at hlog
  exact logged_of_eq H hlog hrequests hmem hbreakpoints

/-- **A hit** takes its trap back. -/
theorem handleTrap_logged (regs : Regs) : Preserves (Session.Logged H mem) (handleTrap H regs) := by
  intro s hs
  rcases hlookup : s.breakpoints.lookup ((regs.rip - 1).setWidth 32) with - | data
  · unfold handleTrap
    simp only [debug_bind, print_apply, debug_get, hlookup]
    exact hs
  cases hok : H.ok s 0
  · have hfails : H.succeeds s.requests.length = false := hok
    have hlog := hs.restores hlookup hfails
    unfold handleTrap
    simp only [debug_bind, print_apply, debug_get, hlookup, poketext_host, Session.log, Host.ok,
      Nat.add_zero, hfails, Bool.false_eq_true, if_false]
    exact hlog
  · obtain ⟨hmem, -, hbreakpoints, hrequests⟩ := handleTrap_writes H s hlookup hok
    have hlog := Logged.moves regs.back hs hlookup hok rfl
    exact logged_of_eq H hlog hrequests hmem hbreakpoints

theorem continue_logged (ev : Event) : Preserves (Session.Logged H mem) (Continue H ev) := by
  refine .bind (resume_logged H (r := .cont) trivial ev) fun _ => ?_
  split
  · refine .bind (getregs_logged H) fun regs => ?_
    refine .ite (fun _ => handleTrap_logged H regs) fun _ => ?_
    exact .ite (fun _ => print_logged H _) fun _ => print_logged H _
  · exact print_logged H _

theorem recordStep_logged (rip : BitVec 64) : Preserves (Session.Logged H mem) (recordStep rip) := by
  intro s hs
  obtain ⟨hmem, -, hbreakpoints⟩ := recordStep_rest s rip
  have hrequests : (recordStep rip s).2.requests = s.requests := by
    by_cases hseen : s.hasExecuted rip
    · simp [recordStep, hseen]
    · by_cases hfull : s.instructionCount < maxExecutedInstructions <;>
        simp [recordStep, hseen, hfull]
  exact logged_of_eq H hs hrequests hmem hbreakpoints

theorem nexti_logged (ev : Event) : Preserves (Session.Logged H mem) (nexti H ev) := by
  refine .bind (resume_logged H (r := .singlestep) trivial ev) fun ok =>
    .ite (fun _ => ?_) fun _ => print_logged H _
  split
  · exact .bind (getregs_logged H) fun regs => recordStep_logged H _
  · exact print_logged H _

theorem listFrom_logged (i : ℕ) (addrs : List (BitVec 32)) :
    Preserves (Session.Logged H mem) (listFrom i addrs) := by
  induction addrs generalizing i with
  | nil => exact .ret _
  | cons addr addrs ih => exact .bind (print_logged H _) fun _ => ih (i + 1)

/-- **Every command but `exit`** keeps the log. -/
theorem handleCommand_logged {line : List Char} (ev : Event) (h : line ≠ "exit".toList) :
    Preserves (Session.Logged H mem) (handleCommand H line ev) := by
  have hlast : ∀ flow, Preserves (Session.Logged H mem)
      (do setLastCommand line; return flow : Debug Flow) :=
    fun flow => .bind (.modify fun _ hs => hs) fun _ => .ret flow
  -- one case for each branch of the chain, in its order
  refine .ite (fun hexit => absurd hexit h) fun _ => .ite (fun _ => ?_) fun _ => .ite (fun _ => ?_)
    fun _ => .ite (fun _ => ?_) fun _ => .ite (fun _ => ?_) fun _ => .ite (fun _ => ?_) fun _ =>
      .ite (fun _ => ?_) fun _ => .ite (fun _ => ?_) fun _ => ?_
  · exact .bind (.ret ()) fun _ => hlast _
  · exact .bind (continue_logged H ev) fun _ => hlast _
  · exact .bind (nexti_logged H ev) fun _ => hlast _
  · exact .bind (.bind .get fun _ => setBreakpoint_logged H _) fun _ => hlast _
  · refine .bind (.bind .get fun _ => .bind (request_logged H (r := .getregs) trivial) fun _ => ?_)
      fun _ => hlast _
    exact print_logged H _
  · refine .bind (.bind (print_logged H _) fun _ => .bind .get fun s => ?_) fun _ => hlast _
    exact listFrom_logged H 0 _
  · refine .bind (.modify fun _ hs => hs) fun _ => ?_
    exact .bind (nexti_logged H ev) fun _ => hlast _
  · exact .bind (print_logged H _) fun _ => .bind (.modify fun _ hs => hs) fun _ => .ret _

theorem loopTest_logged (waitStatus : WaitStatus) :
    Preserves (Session.Logged H mem) (loopTest H waitStatus) := by
  cases waitStatus with
  | exited code => exact .bind (print_logged H _) fun _ => .ret _
  | signaled signal => exact .bind (print_logged H _) fun _ => .ret _
  | stopped signal =>
    exact .bind (getregs_logged H) fun _ => .bind (peektext_logged H _) fun _ =>
      .bind (print_logged H _) fun _ => .ret _

theorem handleCommand_exit (ev : Event) (s : Session) :
    (handleCommand H "exit".toList ev s).1 = .exited ∧
      (handleCommand H "exit".toList ev s).2.requests = s.requests ++ [.kill] ∧
      (handleCommand H "exit".toList ev s).2.mem = s.mem ∧
      (handleCommand H "exit".toList ev s).2.breakpoints = s.breakpoints := ⟨rfl, rfl, rfl, rfl⟩

/-- The loop from a session whose log is one. -/
theorem mainLoop_logged_of (waitStatus : WaitStatus) (ts : List Turn) {s : Session}
    (hs : s.Logged H mem) :
    let r := mainLoop H waitStatus ts s
    r.2.Logged H mem ∨
      r.1.1 = .exited ∧ ∃ rs, Logged H mem rs r.2.mem r.2.breakpoints ∧ r.2.requests = rs ++ [.kill] := by
  induction ts generalizing s with
  | nil =>
    refine .inl ?_
    have h := loopTest_logged H waitStatus s hs
    cases waitStatus <;> exact h
  | cons t ts ih =>
    cases waitStatus with
    | exited code => exact .inl (loopTest_logged H (.exited code) s hs)
    | signaled signal => exact .inl (loopTest_logged H (.signaled signal) s hs)
    | stopped signal =>
      have hprompt : (prompted H s).Logged H mem := loopTest_logged H (.stopped SIGTRAP) s hs
      rcases hflow : (handleCommand H t.line t.event (prompted H s)).1 with - | -
      · rw [mainLoop_cons_returned H hflow]
        refine ih (handleCommand_logged H t.event ?_ _ hprompt)
        intro hexit
        rw [hexit, (handleCommand_exit H t.event _).1] at hflow
        cases hflow
      · rw [mainLoop_cons_exited H hflow]
        by_cases hexit : t.line = "exit".toList
        · obtain ⟨-, hrequests, hmem, hbreakpoints⟩ := handleCommand_exit H t.event (prompted H s)
          refine .inr ⟨rfl, (prompted H s).requests, ?_, hexit ▸ hrequests⟩
          rw [hexit]
          show Logged H mem _ (handleCommand H "exit".toList t.event (prompted H s)).2.mem
            (handleCommand H "exit".toList t.event (prompted H s)).2.breakpoints
          rw [hmem, hbreakpoints]
          exact hprompt
        · exact .inl (handleCommand_logged H t.event hexit _ hprompt)

end Requests

/-- **The log of a session.** Whatever its lines, its waits and the outcomes of its requests, the
debugger writes nothing but traps, each over the word it has just read, and the data of a trap it planted
and has not taken back, as it was read when the breakpoint was made; it sets registers only after such a
write, with the low half of `rip` at the place of the trap; and it kills the child in its last request. -/
theorem mainLoop_logged (H : Host) (mem : Memory 64) (regs : Regs) (waitStatus : WaitStatus)
    (ts : List Turn) :
    let r := mainLoop H waitStatus ts (Session.start mem regs)
    Logged H mem r.2.requests r.2.mem r.2.breakpoints ∨
      r.1.1 = .exited ∧ ∃ rs, Logged H mem rs r.2.mem r.2.breakpoints ∧
        r.2.requests = rs ++ [.kill] :=
  mainLoop_logged_of H waitStatus ts .nil

end ProgramAnalysis.Debugger
