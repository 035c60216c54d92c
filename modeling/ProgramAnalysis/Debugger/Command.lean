import ProgramAnalysis.Debugger.Memory

/-!
# Command lines

What `handle_command` does with a line, and runs of lines.

* `ContinueLine`, `StepLine`, `BreakLine`: the lines that act on the child;
* `Input`, `command`: a line other than `exit`, and the session after it;
* `Input.action`, **`command_of_action`**, **`command_of_no_action`**: a line sets a breakpoint,
  continues, steps, or leaves the child alone;
* **`undamaged_commands_iff`**: the memory under runs of lines.
-/

namespace ProgramAnalysis.Debugger

open Lib

/-! ## Kinds of lines -/

def ContinueLine (line : List Char) : Prop := line = "continue".toList ∨ line = "c".toList

def StepLine (line : List Char) : Prop :=
  line = "next".toList ∨ line = "nexti".toList ∨ line = []

def BreakLine (line : List Char) : Prop := "break".toList <+: line

instance (line : List Char) : Decidable (ContinueLine line) := inferInstanceAs (Decidable (_ ∨ _))

instance (line : List Char) : Decidable (StepLine line) := inferInstanceAs (Decidable (_ ∨ _))

instance (line : List Char) : Decidable (BreakLine line) :=
  inferInstanceAs (Decidable (_ <+: _))

section Dispatch

variable (H : Host) {line : List Char} (ev : Event) (s : Session)

theorem handleCommand_continue (h : ContinueLine line) : handleCommand H line ev s =
    (.returned, { (Continue H ev s).2 with lastCommand := line }) := by
  rcases h with rfl | rfl <;> rfl

/-- The empty line is stored before the step. -/
theorem handleCommand_step (h : StepLine line) : ∃ t : Session,
    t = { s with lastCommand := t.lastCommand } ∧
    handleCommand H line ev s = (.returned, { (nexti H ev t).2 with lastCommand := line }) := by
  rcases h with rfl | rfl | rfl
  · exact ⟨s, rfl, rfl⟩
  · exact ⟨s, rfl, rfl⟩
  · exact ⟨{ s with lastCommand := [] }, rfl, rfl⟩

theorem handleCommand_break (h : BreakLine line) : handleCommand H line ev s =
    (.returned, { (handleBreak H line s).2 with lastCommand := line }) := by
  obtain ⟨rest, rfl⟩ := h
  rfl

/-- Where the line `break …` sets its breakpoint. -/
def breakAddr (line : List Char) : BitVec 32 :=
  extractHex (H.unsetAddr s.requests.length) (lastWord line)

theorem handleBreak_apply (line : List Char) :
    handleBreak H line s = setBreakpoint H (breakAddr H s line) s := rfl

end Dispatch

/-! ## What a line does to the child -/

/-- Two sessions with the same child and the same breakpoints. -/
structure SameChild (s t : Session) : Prop where
  mem : t.mem = s.mem
  regs : t.regs = s.regs
  breakpoints : t.breakpoints = s.breakpoints

theorem SameChild.active {s t : Session} (h : SameChild s t) (p : BitVec 64) :
    t.Active p ↔ s.Active p := by
  unfold Session.Active
  rw [h.breakpoints]

/-- Printing, and requests that only read. -/
theorem listFrom_sameChild (i : ℕ) (addrs : List (BitVec 32)) (s : Session) :
    SameChild s (listFrom i addrs s).2 := by
  induction addrs generalizing i s with
  | nil => exact ⟨rfl, rfl, rfl⟩
  | cons addr addrs ih =>
    have h := ih (i + 1) { s with output := s.output ++ [.breakpoint (i + 1) addr] }
    exact ⟨h.mem, h.regs, h.breakpoints⟩

theorem listBreakpoints_sameChild (s : Session) : SameChild s (listBreakpoints s).2 := by
  have h := listFrom_sameChild 0 s.breakpoints.keys.sort
    { s with output := s.output ++ [.breakpointsHeader] }
  exact ⟨h.mem, h.regs, h.breakpoints⟩

theorem handleCommand_other (H : Host) {line : List Char} (ev : Event) (s : Session)
    (hexit : line ≠ "exit".toList) (hcontinue : ¬ ContinueLine line) (hstep : ¬ StepLine line)
    (hbreak : ¬ BreakLine line) : SameChild s (handleCommand H line ev s).2 := by
  have hprefix : ("break".toList.isPrefixOf line) ≠ true := fun h =>
    hbreak (List.isPrefixOf_iff_prefix.mp h)
  have hnext : ¬ (line = "next".toList ∨ line = "nexti".toList) := fun h => hstep (by
    rcases h with h | h
    · exact .inl h
    · exact .inr (.inl h))
  have hempty : line ≠ [] := fun h => hstep (.inr (.inr h))
  unfold handleCommand
  split_ifs with hline hdis hcont
  · exact absurd hline hexit
  · exact ⟨rfl, rfl, rfl⟩
  · exact absurd hcont hcontinue
  · exact ⟨rfl, rfl, rfl⟩
  · have h := listBreakpoints_sameChild s
    exact ⟨h.mem, h.regs, h.breakpoints⟩
  · exact ⟨rfl, rfl, rfl⟩

/-! ## Runs of lines -/

/-- A line that does not end the debugger, and what becomes of the child if it is resumed. -/
structure Input where
  line : List Char
  event : Event
  goesOn : line ≠ "exit".toList

/-- The session after a line. -/
def command (H : ReliableHost) (i : Input) (s : Session) : Session :=
  (handleCommand H.toHost i.line i.event s).2

/-- The step that a line takes on memory and breakpoints, if any. -/
def Input.action (H : ReliableHost) (i : Input) (s : Session) : Option Action :=
  if ContinueLine i.line then some (.continue i.event)
  else if BreakLine i.line then some (.set (breakAddr H.toHost s i.line))
  else none

/-- The step of a line spares the memory. -/
def Input.Spares (H : ReliableHost) (i : Input) (s : Session) : Prop :=
  ∀ a, i.action H s = some a → ProgramAnalysis.Debugger.Spares a s

section Lines

variable (H : ReliableHost) {i : Input} {s : Session}

theorem command_of_action {a : Action} (h : i.action H s = some a) :
    SameChild (act H a s) (command H i s) := by
  unfold Input.action at h
  split_ifs at h with hcontinue hbreak
  · cases h
    unfold command
    rw [handleCommand_continue _ _ _ hcontinue]
    exact ⟨rfl, rfl, rfl⟩
  · cases h
    unfold command
    rw [handleCommand_break _ _ _ hbreak, handleBreak_apply]
    exact ⟨rfl, rfl, rfl⟩

theorem command_of_step (h : StepLine i.line) :
    SameChild { s with regs := i.event.regs } (command H i s) := by
  obtain ⟨t, ht, heq⟩ := handleCommand_step H.toHost i.event s h
  obtain ⟨hmem, hregs, hbreakpoints⟩ := nexti_rest H t i.event
  unfold command
  rw [heq]
  refine ⟨hmem.trans ?_, hregs, hbreakpoints.trans ?_⟩
  · rw [ht]
  · rw [ht]

/-- Every other line leaves memory and breakpoints alone. -/
theorem command_of_no_action (h : i.action H s = none) :
    (command H i s).mem = s.mem ∧ (command H i s).breakpoints = s.breakpoints := by
  by_cases hstep : StepLine i.line
  · have hsame := command_of_step H (s := s) hstep
    exact ⟨hsame.mem, hsame.breakpoints⟩
  · unfold Input.action at h
    split_ifs at h with hcontinue hbreak
    have hsame := handleCommand_other H.toHost i.event s i.goesOn hcontinue hstep hbreak
    exact ⟨hsame.mem, hsame.breakpoints⟩

variable {mem : Memory 64}

theorem undamaged_congr {t : Session} (hmem : t.mem = s.mem)
    (hbreakpoints : t.breakpoints = s.breakpoints) : t.Undamaged mem ↔ s.Undamaged mem := by
  unfold Session.Undamaged Session.Active
  rw [hmem, hbreakpoints]

theorem savedOriginal_congr {t : Session} (h : t.breakpoints = s.breakpoints) :
    t.SavedOriginal mem ↔ s.SavedOriginal mem := by
  unfold Session.SavedOriginal
  rw [h]

theorem undamaged_command (hs : s.Undamaged mem) (hsaved : s.SavedOriginal mem) :
    (command H i s).Undamaged mem ↔ i.Spares H s := by
  unfold Input.Spares
  rcases hact : i.action H s with - | a
  · obtain ⟨hmem, hbreakpoints⟩ := command_of_no_action H hact
    rw [undamaged_congr hmem hbreakpoints]
    exact ⟨fun _ _ h => (by cases h), fun _ => hs⟩
  · have hsame := command_of_action H hact
    rw [undamaged_congr hsame.mem hsame.breakpoints, undamaged_step H hs hsaved]
    exact ⟨fun h b hb => Option.some.inj hb ▸ h, fun h => h a rfl⟩

theorem savedOriginal_command (hs : s.Undamaged mem) (hsaved : s.SavedOriginal mem) :
    (command H i s).SavedOriginal mem := by
  rcases hact : i.action H s with - | a
  · exact (savedOriginal_congr (command_of_no_action H hact).2).mpr hsaved
  · rw [savedOriginal_congr (command_of_action H hact).breakpoints]
    exact savedOriginal_step H hs hsaved a

end Lines

/-- **The memory under runs of lines** stays undamaged exactly as long as every line spares it, and
then the saved bytes are the original ones. -/
theorem undamaged_commands_iff (H : ReliableHost) (mem : Memory 64) (regs : Regs)
    (is : List Input) :
    (Always (command H) (Session.Undamaged mem) (Session.start mem regs) is ↔
      EachStep (command H) (Input.Spares H) (Session.start mem regs) is) ∧
    (EachStep (command H) (Input.Spares H) (Session.start mem regs) is →
      Always (command H) (Session.SavedOriginal mem) (Session.start mem regs) is) := by
  have hsaved := start_savedOriginal mem regs
  have hiff : Always (command H) (Session.Undamaged mem) (Session.start mem regs) is ↔
      EachStep (command H) (Input.Spares H) (Session.start mem regs) is :=
    always_iff_eachStep hsaved (fun p _ => rfl)
      (fun _ _ hJ hP _ => savedOriginal_command H hP hJ) (fun _ _ hJ hP => undamaged_command H hP hJ)
  refine ⟨hiff, fun hsteps => ?_⟩
  exact (hiff.mpr hsteps).invariant hsaved fun _ _ hJ hP _ => savedOriginal_command H hP hJ

end ProgramAnalysis.Debugger
