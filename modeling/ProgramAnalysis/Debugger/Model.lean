import Mathlib.Data.Finmap
import Mathlib.Data.Finset.Sort
import ProgramAnalysis.Lib.Bytes

/-!
# The debugger

The code of `debugger/PL Project/de.cpp` on an explicit state.

* `Host`, `Event`: what the system decides: which requests succeed, what unset variables hold, how
  the child stops;
* `Session`: the child and the globals of the debugger, with what was requested and printed;
* `setBreakpoint`, `Continue`, `nexti`: the commands on the child;
* `extractHex`: the stream extraction of an address;
* `handleCommand`: one command line.

The child does not write its own memory; it only moves from one stop to the next.
-/

namespace ProgramAnalysis.Debugger

open Lib

/-! ## The system -/

/-- The registers the debugger reads or prints. -/
structure Regs where
  rax : BitVec 64
  rbx : BitVec 64
  rcx : BitVec 64
  rdx : BitVec 64
  rsp : BitVec 64
  rbp : BitVec 64
  rsi : BitVec 64
  rdi : BitVec 64
  rip : BitVec 64
  deriving DecidableEq

/-- What `wait` stores. -/
inductive WaitStatus
  | exited (code : ℕ)
  | signaled (signal : ℕ)
  | stopped (signal : ℕ)
  deriving DecidableEq

def SIGTRAP : ℕ := 5

def SIGSEGV : ℕ := 11

/-- How the child comes to rest after it was resumed: what `wait` reports, and its registers. -/
structure Event where
  status : WaitStatus
  regs : Regs

/-- A request about the child. -/
inductive Request
  | cont
  | singlestep
  | getregs
  | setregs (regs : Regs)
  | peektext (addr : BitVec 64)
  | poketext (addr data : BitVec 64)
  | kill
  deriving DecidableEq

/-- What the system decides, by the number of requests made before. -/
structure Host where
  /-- does the request succeed -/
  succeeds : ℕ → Bool
  /-- what an uninitialised `regs` holds -/
  unsetRegs : ℕ → Regs
  /-- what an uninitialised `uiaddr` holds -/
  unsetAddr : ℕ → BitVec 32

/-- What is printed, by message. -/
inductive Message
  | rule
  | dataAt (addr data : BitVec 32)
  | breakpointSet (addr : BitVec 32)
  | afterTrap (addr afterEdit : BitVec 32)
  | breakpointHit (rip : BitVec 64)
  | currentRip (rip : BitVec 64) (addr : BitVec 32)
  | restoringData (addr data : BitVec 32)
  | errorRestoring
  | adjustedRip (rip : BitVec 64)
  | errorSettingRegisters
  | breakpointRestored
  | noMatchingBreakpoint
  | sigsegv (rip : BitVec 64)
  | unexpectedSignal (signal : ℕ)
  | unexpectedWaitStatus (status : WaitStatus)
  | errorSinglestep
  | detectedLoop (rip : BitVec 64)
  | limitReached
  | singleStepCompleted (rip : BitVec 64)
  | registers (regs : Regs)
  | breakpointsHeader
  | breakpoint (i : ℕ) (addr : BitVec 32)
  | unknownCommand
  | debuggerStopped
  | targetFinished
  | prompt (rip : BitVec 64)

/-! ## The state -/

/-- The child, the globals of the debugger, and what it requested and printed so far. -/
structure Session where
  mem : Memory 64
  regs : Regs
  breakpoints : Finmap fun _ : BitVec 32 => BitVec 32
  executedInstructions : ℕ → BitVec 64
  instructionCount : ℕ
  lastCommand : List Char
  requests : List Request
  output : List Message

/-- The session when the first command is read: globals empty, the child stopped. -/
def Session.start (mem : Memory 64) (regs : Regs) : Session :=
  ⟨mem, regs, ∅, fun _ => 0, 0, [], [], []⟩

/-- Code that reads and writes the session. -/
abbrev Debug (α : Type) : Type := StateM Session α

/-- `(void*)addr`: the 32-bit address, zero-extended. -/
def pointer (addr : BitVec 32) : BitVec 64 := addr.setWidth 64

def print (m : Message) : Debug Unit := modify fun s => { s with output := s.output ++ [m] }

section Requests

variable (H : Host)

/-- A request: its success, and its place in the log. -/
def request (r : Request) : Debug Bool := fun s =>
  (H.succeeds s.requests.length, { s with requests := s.requests ++ [r] })

/-- `ptrace(PTRACE_PEEKTEXT, child, addr, 0)`: one word, or `-1`. -/
def peektext (addr : BitVec 64) : Debug (BitVec 64) := do
  let s ← get
  if ← request H (.peektext addr) then
    return peek s.mem addr 8
  else
    return -1

/-- `ptrace(PTRACE_POKETEXT, child, addr, data)`: one word. -/
def poketext (addr data : BitVec 64) : Debug Bool := do
  let ok ← request H (.poketext addr data)
  if ok then
    modify fun s => { s with mem := poke s.mem addr 8 data }
  return ok

/-- `ptrace(PTRACE_GETREGS, child, 0, &regs)` on an uninitialised `regs`. -/
def getregs : Debug Regs := do
  let s ← get
  if ← request H .getregs then
    return s.regs
  else
    return H.unsetRegs s.requests.length

/-- `ptrace(PTRACE_SETREGS, child, 0, &regs)`. -/
def setregs (regs : Regs) : Debug Bool := do
  let ok ← request H (.setregs regs)
  if ok then
    modify fun s => { s with regs := regs }
  return ok

/-- A request that lets the child run up to its next stop. -/
def resume (r : Request) (ev : Event) : Debug Bool := do
  let ok ← request H r
  if ok then
    modify fun s => { s with regs := ev.regs }
  return ok

/-! ## The commands on the child -/

/-- `Breakpoints.insert`: an entry that exists is kept. -/
def insertBreakpoint (addr data : BitVec 32) : Debug Unit := modify fun s =>
  if addr ∈ s.breakpoints then s
  else { s with breakpoints := s.breakpoints.insert addr data }

/-- `data_with_trap`: the lowest byte becomes `INT 3`. -/
def withTrap (data : BitVec 32) : BitVec 32 := (data &&& 0xffffff00#32) ||| 0xcc#32

/-- `Set_breakpoint`. -/
def setBreakpoint (addr : BitVec 32) : Debug Unit := do
  let data := (← peektext H (pointer addr)).setWidth 32
  print .rule
  print (.dataAt addr data)
  let dataWithTrap := withTrap data
  let _ ← poketext H (pointer addr) (pointer dataWithTrap)
  print (.breakpointSet addr)
  let afterEdit := (← peektext H (pointer addr)).setWidth 32
  print (.afterTrap addr afterEdit)
  print .rule
  insertBreakpoint addr data

/-- The branch of `Continue` for `SIGTRAP`. -/
def handleTrap (regs : Regs) : Debug Unit := do
  print (.breakpointHit regs.rip)
  let addr : BitVec 32 := (regs.rip - 1).setWidth 32
  print (.currentRip regs.rip addr)
  match (← get).breakpoints.lookup addr with
  | some originalData =>
    print (.restoringData addr originalData)
    if ← poketext H (pointer addr) (pointer originalData) then
      let regs := { regs with rip := regs.rip - 1 }
      print (.adjustedRip regs.rip)
      if ← setregs H regs then
        modify fun s => { s with breakpoints := s.breakpoints.erase addr }
        print .breakpointRestored
      else
        print .errorSettingRegisters
    else
      print .errorRestoring
  | none => print .noMatchingBreakpoint

/-- `Continue`; the result of `PTRACE_CONT` is not looked at. -/
def Continue (ev : Event) : Debug Unit := do
  let _ ← resume H .cont ev
  match ev.status with
  | .stopped signal =>
    let regs ← getregs H
    if signal = SIGTRAP then
      handleTrap H regs
    else if signal = SIGSEGV then
      print (.sigsegv regs.rip)
    else
      print (.unexpectedSignal signal)
  | status => print (.unexpectedWaitStatus status)

def maxExecutedInstructions : ℕ := 100000

/-- The search through the executed instructions. -/
def Session.hasExecuted (s : Session) (rip : BitVec 64) : Bool :=
  (List.range s.instructionCount).any fun i => s.executedInstructions i == rip

/-- What `nexti` does with the address of a stop. -/
def recordStep (rip : BitVec 64) : Debug Unit := do
  let s ← get
  if s.hasExecuted rip then
    print (.detectedLoop rip)
  else
    if s.instructionCount < maxExecutedInstructions then
      set { s with
        executedInstructions := Function.update s.executedInstructions s.instructionCount rip
        instructionCount := s.instructionCount + 1 }
    else
      print .limitReached
    print (.singleStepCompleted rip)

def nexti (ev : Event) : Debug Unit := do
  if ← resume H .singlestep ev then
    match ev.status with
    | .stopped _ =>
      let regs ← getregs H
      recordStep regs.rip
    | status => print (.unexpectedWaitStatus status)
  else
    print .errorSinglestep

/-! ## The commands that only show something -/

/-- `Info_registers`: the request gets no place to store them, so `regs` stays unset. -/
def infoRegisters : Debug Unit := do
  let s ← get
  let _ ← request H .getregs
  print (.registers (H.unsetRegs s.requests.length))

/-- The loop of `List_breakpoints`, after `i` breakpoints. -/
def listFrom (i : ℕ) : List (BitVec 32) → Debug Unit
  | [] => pure ()
  | addr :: addrs => do
    print (.breakpoint (i + 1) addr)
    listFrom (i + 1) addrs

/-- `List_breakpoints`: the keys in their order. -/
def listBreakpoints : Debug Unit := do
  print .breakpointsHeader
  listFrom 0 ((← get).breakpoints.keys.sort)

/-- `disassemble` runs in a process of its own, away from the child and the globals. -/
def disassemble : Debug Unit := pure ()

end Requests

/-! ## Command lines -/

/-- The position of the last `c`. -/
def lastIndexOf (c : Char) : List Char → Option ℕ
  | [] => none
  | x :: xs =>
    match lastIndexOf c xs with
    | some i => some (i + 1)
    | none => if x = c then some 0 else none

/-- `std::string::npos`. -/
def npos : ℕ := 2 ^ 64 - 1

/-- `command.find_last_of(c)`. -/
def findLastOf (command : List Char) (c : Char) : ℕ := (lastIndexOf c command).getD npos

/-- `command.substr(Lastword + 1)`: the addition wraps. -/
def lastWord (command : List Char) : List Char :=
  command.drop ((findLastOf command ' ' + 1) % 2 ^ 64)

/-- The white space a stream skips. -/
def isSpace (c : Char) : Bool := c ∈ [' ', '\t', '\n', '\x0b', '\x0c', '\r']

/-- The value of a hexadecimal digit. -/
def hexValue (c : Char) : Option ℕ :=
  if '0' ≤ c ∧ c ≤ '9' then some (c.toNat - '0'.toNat)
  else if 'a' ≤ c ∧ c ≤ 'f' then some (c.toNat - 'a'.toNat + 10)
  else if 'A' ≤ c ∧ c ≤ 'F' then some (c.toNat - 'A'.toNat + 10)
  else none

/-- The number that the leading hexadecimal digits denote, after `n`. -/
def readHex (n : ℕ) : List Char → ℕ
  | [] => n
  | c :: cs =>
    match hexValue c with
    | some d => readHex (16 * n + d) cs
    | none => n

/-- An optional sign, and whether it is a minus. -/
def takeSign : List Char → Bool × List Char
  | '-' :: cs => (true, cs)
  | '+' :: cs => (false, cs)
  | cs => (false, cs)

/-- An optional `0x`. -/
def dropHexPrefix : List Char → List Char
  | '0' :: 'x' :: cs => cs
  | '0' :: 'X' :: cs => cs
  | cs => cs

/-- `hexstring >> uiaddr` in base 16. Nothing is stored at the end of the stream; what is not a number
stores 0, what is too large the greatest value, a negative number its value modulo the width. -/
def extractHex (uiaddr : BitVec 32) (hexstring : List Char) : BitVec 32 :=
  match hexstring.dropWhile isSpace with
  | [] => uiaddr
  | cs =>
    let signed := takeSign cs
    let n := readHex 0 (dropHexPrefix signed.2)
    if 2 ^ 32 ≤ n then BitVec.allOnes 32
    else if signed.1 then -BitVec.ofNat 32 n
    else BitVec.ofNat 32 n

/-- Does the debugger go on after a command. -/
inductive Flow
  | returned
  | exited
  deriving DecidableEq

section Commands

variable (H : Host)

/-- The branch of `handle_command` for `break`. -/
def handleBreak (command : List Char) : Debug Unit := do
  let uiaddr := H.unsetAddr (← get).requests.length
  setBreakpoint H (extractHex uiaddr (lastWord command))

def setLastCommand (command : List Char) : Debug Unit :=
  modify fun s => { s with lastCommand := command }

/-- `handle_command`; `ev` is what becomes of the child if the command resumes it. -/
def handleCommand (command : List Char) (ev : Event) : Debug Flow := do
  if command = "exit".toList then
    let _ ← request H .kill
    print .debuggerStopped
    return .exited
  if "disass".toList.isPrefixOf command || "dis".toList.isPrefixOf command then
    disassemble
  else if command = "continue".toList ∨ command = "c".toList then
    Continue H ev
  else if command = "next".toList ∨ command = "nexti".toList then
    nexti H ev
  else if "break".toList.isPrefixOf command then
    handleBreak H command
  else if command = "info registers".toList ∨ command = "i r".toList then
    infoRegisters H
  else if command = "info breakpoints".toList ∨ command = "i b".toList then
    listBreakpoints
  else if command = [] then
    setLastCommand command
    nexti H ev
  else
    print .unknownCommand
    setLastCommand []
    return .returned
  setLastCommand command
  return .returned

end Commands

end ProgramAnalysis.Debugger
