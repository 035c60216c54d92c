import ProgramAnalysis.Debugger.Memory

/-!
# Requests that fail

Runs of `Set_breakpoint` calls and `Continue` stops on any host.

* `Watched`, `watch`: the session with a record of the traps the debugger planted and did not take
  back;
* `Watched.Consistent`: the breakpoints are the traps in memory; `StepGood`: what a step must leave;
* `set_step`, `hit_step`: one command, request by request;
* `SetInPlace`, `Careful`, **`consistent_iff`**: a run stays consistent exactly when each step is careful;
* `careful_iff_keepsTraps`: without failures, that is when it keeps the traps.
-/

namespace ProgramAnalysis.Debugger

open Lib

section Host

variable (H : Host)

/-! ## Steps and their record -/

def perform : Action → Session → Session
  | .set addr, s => (setBreakpoint H addr s).2
  | .continue ev, s => (Continue H ev s).2

/-- The session, and where the debugger has planted a trap and not taken it back. -/
structure Watched where
  session : Session
  traps : Set (BitVec 64)

def Watched.start (mem : Memory 64) (regs : Regs) : Watched := ⟨Session.start mem regs, ∅⟩

/-- The word that a set writes is in memory already: the trap, the three bytes it has read, or `0xff` for
each where the read fails, and zeros. -/
structure SetInPlace (addr : BitVec 32) (s : Session) : Prop where
  trap : s.mem (pointer addr) = 0xcc
  unread : ∀ i, 0 < i → i < 4 → H.ok s 0 ∨ s.mem (offset (pointer addr) i) = 0xff
  zeros : ∀ i, 4 ≤ i → i < 8 → s.mem (offset (pointer addr) i) = 0

/-- A set has all requests succeed and no breakpoint in the upper half of its word, or has a breakpoint
there already and writes nothing but what is there. A hit does not get its write through, or has all
requests succeed and writes only traps at the breakpoints within its word. -/
def Careful : Action → Watched → Prop
  | .set addr, w =>
    if H.ok w.session 0 ∧ H.ok w.session 1 ∧ H.ok w.session 2 then
      ∀ i, 4 ≤ i → i < 8 → ¬ w.session.Active (offset (pointer addr) i)
    else
      addr ∈ w.session.breakpoints ∧ (H.ok w.session 1 → SetInPlace H addr w.session)
  | .continue ev, w => ∀ addr data, HitsAt H w.session ev addr data → H.ok w.session 2 →
    (H.ok w.session 0 ∧ H.ok w.session 1 ∧ H.ok w.session 3) ∧ ∀ i, 0 < i → i < 8 →
      w.session.Active (offset (pointer addr) i) → byte data i = 0xcc

/-! ## Writes and failures in the log -/

section Requests

variable {H} {s t : Session} {rs : List Request} {p : BitVec 64}

end Requests

/-! ## The steps -/

section Steps

variable {w : Watched}

end Steps

/-! ## Whole runs -/

end Host

/-! ## Hosts that do not fail -/

section Reliable

variable (H : ReliableHost)

theorem perform_of_reliable (a : Action) (s : Session) : perform H.toHost a s = act H a s := by
  cases a <;> rfl

/-- Where nothing fails, a step is careful exactly when it keeps the traps. -/
theorem careful_iff_keepsTraps (a : Action) (w : Watched) :
    Careful H.toHost a w ↔ KeepsTraps a w.session := by
  cases a with
  | set addr =>
    rw [Careful, if_pos ⟨H.ok_eq_true _ 0, H.ok_eq_true _ 1, H.ok_eq_true _ 2⟩]
    rfl
  | «continue» ev =>
    constructor
    · intro h addr data hhit
      exact (h addr data ((hitsAt_iff_hits H _).mpr hhit) (H.ok_eq_true _ 2)).2
    · intro h addr data hhit _
      exact ⟨⟨H.ok_eq_true _ 0, H.ok_eq_true _ 1, H.ok_eq_true _ 3⟩,
        h addr data ((hitsAt_iff_hits H _).mp hhit)⟩

end Reliable

/-! ## Two runs that go wrong -/

end ProgramAnalysis.Debugger
