import ProgramAnalysis.Debugger.Address
import ProgramAnalysis.Debugger.History
import ProgramAnalysis.Lib.Processor
import ProgramAnalysis.Lib.Simulation

/-!
# Debugging a running child

The debugger and its child as one system, and what the debugger is for: the child runs as it does
without a debugger, and stops where it comes to a breakpoint.

* `Cpu`: what executes the child; `Reports`: what `wait` tells of it;
* `Native`, `Native.Obeys`: a debugger that stops the child without writing anything; a breakpoint is
  gone after its stop;
* `Debugged`, `Round`: the session with the rest of its child; a round of the main loop;
* `Order.Careful`: the child does not read what the traps and their words have overwritten, has no trap of
  its own that would pass for a breakpoint, and is not stepped from one;
* **`rounds_iff_native`**: the runs of careful rounds are those of the native debugger, on the original
  memory;
* `Order.Quiet`, `Native.Follows`: orders that end without a signal of the child's own; a child that has
  come to where it comes to alone;
* **`child_runs_natively`**: up to a signal, which the debugger discards, the child runs as it does alone.

The memory is what the child does not write; the rest of the child is `κ`.
-/

namespace ProgramAnalysis.Debugger

open Lib Relation

variable {κ : Type}

/-! ## The child -/

/-- The registers the debugger knows, and everything else that the child may change. -/
abbrev Child (κ : Type) : Type := Regs × κ

/-- The registers with `rip` one on. -/
def Regs.ahead (regs : Regs) : Regs := { regs with rip := regs.rip + 1 }

theorem back_ahead (regs : Regs) : regs.ahead.back = regs := by
  have hrip : regs.rip + 1 - 1 = regs.rip := BitVec.add_sub_cancel _ _
  simp only [Regs.back, Regs.ahead, hrip]

/-- A processor that stops with a signal, or ends as `wait` reports it. `INT 3` stops it behind itself. -/
structure Cpu (κ : Type) extends Processor (BitVec 64) (BitVec 8) (Child κ) ℕ WaitStatus where
  int3 : ∀ m c, m c.1.rip = 0xcc → exec m c = .stops (c.1.ahead, c.2) SIGTRAP
  ended : ∀ m c status signal, exec m c = .ends status → status ≠ .stopped signal

/-- What `wait` reports, and the registers. A single step that goes on stops by a trap. -/
def Reports : Executed (Child κ) ℕ WaitStatus → Event → Prop
  | .goes c, ev => ev = ⟨.stopped SIGTRAP, c.1⟩
  | .stops c signal, ev => ev = ⟨.stopped signal, c.1⟩
  | .ends status, ev => ev.status = status

/-- The child stands at a breakpoint. -/
def AtBreakpoint (B : Finset (BitVec 32)) (c : Child κ) : Prop := ∃ addr ∈ B, pointer addr = c.1.rip

/-! ## The native debugger -/

inductive Order
  | set (addr : BitVec 32)
  | continue
  | step
  | other
  deriving DecidableEq

/-- The child, unless it has ended, and the breakpoints. -/
structure Native (κ : Type) where
  child : Option (Child κ)
  breakpoints : Finset (BitVec 32)

/-- What an order does to a child that has not ended; a signal it has stopped with is discarded. -/
inductive Native.Obeys (P : Cpu κ) (mem : Memory 64) : Native κ → Order → Native κ → Prop
  | other (c : Child κ) (B : Finset (BitVec 32)) : Obeys P mem ⟨some c, B⟩ .other ⟨some c, B⟩
  | set (c : Child κ) (B : Finset (BitVec 32)) (addr : BitVec 32) :
    Obeys P mem ⟨some c, B⟩ (.set addr) ⟨some c, insert addr B⟩
  | step (c : Child κ) (B : Finset (BitVec 32)) :
    Obeys P mem ⟨some c, B⟩ .step ⟨(P.exec mem c).state, B⟩
  | reaches {c d : Child κ} {B : Finset (BitVec 32)} {addr : BitVec 32} :
    P.First (AtBreakpoint B) mem c d → pointer addr = d.1.rip →
      Obeys P mem ⟨some c, B⟩ .continue ⟨some d, B.erase addr⟩
  | rests {c : Child κ} {B : Finset (BitVec 32)} {o : Executed (Child κ) ℕ WaitStatus} :
    P.RestsBefore (AtBreakpoint B) mem c o → Obeys P mem ⟨some c, B⟩ .continue ⟨o.state, B⟩

/-! ## The debugger and its child -/

/-- The session, and the rest of the child unless it has ended. -/
structure Debugged (κ : Type) where
  session : Session
  rest : Option κ

def Debugged.start (mem : Memory 64) (c : Child κ) : Debugged κ := ⟨Session.start mem c.1, some c.2⟩

/-- What a native debugger has of it. -/
def Debugged.native (d : Debugged κ) : Native κ :=
  ⟨d.rest.map fun k => (d.session.regs, k), d.session.breakpoints.keys⟩

/-- A round of the main loop while the child lives, and the order its line gives. -/
inductive Round (P : Cpu κ) (H : ReliableHost) : Debugged κ → Order → Debugged κ → Prop
  | continue {s : Session} {k : κ} {t : Turn} {o : Executed (Child κ) ℕ WaitStatus} :
    ContinueLine t.line → P.Rests s.mem (s.regs, k) o → Reports o t.event →
      Round P H ⟨s, some k⟩ .continue ⟨turn H.toHost t s, o.state.map Prod.snd⟩
  | step {s : Session} {k : κ} {t : Turn} :
    StepLine t.line → Reports (P.exec s.mem (s.regs, k)) t.event →
      Round P H ⟨s, some k⟩ .step
        ⟨turn H.toHost t s, (P.exec s.mem (s.regs, k)).state.map Prod.snd⟩
  | set {s : Session} {k : κ} {t : Turn} : BreakLine t.line →
    Round P H ⟨s, some k⟩ (.set (breakAddr H.toHost (prompted H.toHost s) t.line))
      ⟨turn H.toHost t s, some k⟩
  | other {s : Session} {k : κ} {t : Turn} : t.line ≠ "exit".toList → ¬ ContinueLine t.line →
    ¬ StepLine t.line → ¬ BreakLine t.line →
      Round P H ⟨s, some k⟩ .other ⟨turn H.toHost t s, some k⟩

/-- What an order needs. A set leaves the traps alone. Up to the first breakpoint, or in the step, the
child reads nothing that has been overwritten; the breakpoint it comes to leaves the other traps alone;
it has no trap of its own that would pass for one; and a step does not start at a breakpoint. -/
def Order.Careful (P : Cpu κ) (mem : Memory 64) : Order → Debugged κ → Prop
  | .set addr, d => KeepsTraps (.set addr) d.session
  | .continue, d => ∀ c, d.native.child = some c →
    P.Intact (AtBreakpoint d.native.breakpoints) mem d.session.mem c ∧
    (∀ c', P.First (AtBreakpoint d.native.breakpoints) mem c c' →
      KeepsTraps (.continue ⟨.stopped SIGTRAP, c'.1.ahead⟩) d.session) ∧
    ∀ c', P.RestsBefore (AtBreakpoint d.native.breakpoints) mem c (.stops c' SIGTRAP) →
      (c'.1.rip - 1).setWidth 32 ∉ d.session.breakpoints
  | .step, d => ∀ c, d.native.child = some c → ¬ AtBreakpoint d.native.breakpoints c ∧
    ∀ a ∈ P.reads mem c, d.session.mem a = mem a
  | .other, _ => True

/-! ## Rounds -/

section Rounds

variable (H : ReliableHost) {s : Session} {t : Turn}

/-- The prompt reads the registers and the instruction. -/
theorem prompted_eq (s : Session) : prompted H.toHost s = { s with
    requests := (prompted H.toHost s).requests, output := (prompted H.toHost s).output } := by
  unfold prompted loopTest
  simp only [debug_bind, getregs_host, peektext_host, print_apply, debug_pure, Session.log]

theorem prompted_sameChild (s : Session) : SameChild s (prompted H.toHost s) := by
  rw [prompted_eq H s]
  exact ⟨rfl, rfl, rfl⟩

theorem hits_prompted {ev : Event} {addr data : BitVec 32} :
    (prompted H.toHost s).Hits ev addr data ↔ s.Hits ev addr data := by
  rw [prompted_eq H s]
  exact ⟨fun h => ⟨h.trap, h.found, h.saved⟩, fun h => ⟨h.trap, h.found, h.saved⟩⟩

theorem keepsTraps_prompted {a : Action} (h : KeepsTraps a s) :
    KeepsTraps a (prompted H.toHost s) := by
  cases a with
  | set addr => exact fun i hlow hi => mt ((prompted_sameChild H s).active _).mp (h i hlow hi)
  | «continue» ev =>
    intro addr data hhit i hpos hi hactive
    refine h addr data ((hits_prompted H).mp hhit) i hpos hi ?_
    exact ((prompted_sameChild H s).active _).mp hactive

theorem allTrapped_congr {s' : Session} (h : SameChild s s') (hs : s.AllTrapped) : s'.AllTrapped := by
  intro p hp
  rw [h.mem]
  exact hs p ((h.active p).mp hp)

/-- There is a line for every breakpoint. -/
theorem exists_breakLine (s : Session) (addr : BitVec 32) :
    ∃ line, BreakLine line ∧ breakAddr H.toHost s line = addr := by
  refine ⟨breakCommand (pointer addr), ⟨" 0x".toList ++ Nat.toDigits 16 (pointer addr).toNat, rfl⟩, ?_⟩
  exact pointer_injective ((breakAddr_iff H).mpr (pointer_lt addr))

theorem turn_continue (h : ContinueLine t.line) :
    SameChild (act H (.continue t.event) (prompted H.toHost s)) (turn H.toHost t s) := by
  unfold turn
  rw [handleCommand_continue _ _ _ h]
  exact ⟨rfl, rfl, rfl⟩

theorem turn_set (h : BreakLine t.line) : SameChild
    (act H (.set (breakAddr H.toHost (prompted H.toHost s) t.line)) (prompted H.toHost s))
    (turn H.toHost t s) := by
  unfold turn
  rw [handleCommand_break _ _ _ h, handleBreak_apply]
  exact ⟨rfl, rfl, rfl⟩

theorem turn_step (h : StepLine t.line) :
    SameChild { s with regs := t.event.regs } (turn H.toHost t s) := by
  have hexit : t.line ≠ "exit".toList := by
    rcases h with h | h | h <;> rw [h] <;> decide
  have hsame := command_of_step H (i := ⟨t.line, t.event, hexit⟩) (s := prompted H.toHost s) h
  have hprompt := prompted_sameChild H s
  exact ⟨hsame.mem.trans hprompt.mem, hsame.regs, hsame.breakpoints.trans hprompt.breakpoints⟩

theorem turn_other (hexit : t.line ≠ "exit".toList) (hcontinue : ¬ ContinueLine t.line)
    (hstep : ¬ StepLine t.line) (hbreak : ¬ BreakLine t.line) :
    SameChild s (turn H.toHost t s) := by
  have hsame := handleCommand_other H.toHost t.event (prompted H.toHost s) hexit hcontinue hstep hbreak
  have hprompt := prompted_sameChild H s
  exact ⟨hsame.mem.trans hprompt.mem, hsame.regs.trans hprompt.regs,
    hsame.breakpoints.trans hprompt.breakpoints⟩

end Rounds

/-! ## What a native debugger has -/

section Native

variable (P : Cpu κ) (H : ReliableHost) {mem : Memory 64} {s : Session} {t : Turn} {k : κ}
  {c : Child κ} {o : Executed (Child κ) ℕ WaitStatus}

theorem keys_insert (B : Finmap fun _ : BitVec 32 => BitVec 32) (addr data : BitVec 32) :
    (if addr ∈ B then B else B.insert addr data).keys = insert addr B.keys := by
  ext b
  rw [Finset.mem_insert, Finmap.mem_keys, Finmap.mem_keys]
  split_ifs with h
  · exact ⟨.inr, fun hb => hb.elim (fun he => he ▸ h) id⟩
  · exact Finmap.mem_insert

theorem atBreakpoint_iff : AtBreakpoint s.breakpoints.keys c ↔ s.Active c.1.rip := by
  unfold AtBreakpoint Session.Active
  simp only [Finmap.mem_keys]

/-- The registers of an event go with the rest of the child. -/
theorem child_of_reports {ev : Event} (h : Reports o ev) :
    (o.state.map Prod.snd).map (fun k => (ev.regs, k)) = o.state := by
  cases o with
  | goes c =>
    cases h
    rfl
  | stops c signal =>
    cases h
    rfl
  | ends status => rfl

/-- What a child at a breakpoint does with the trap there. -/
theorem exec_of_trapped (hs : s.AllTrapped) (h : AtBreakpoint s.breakpoints.keys c) :
    P.exec s.mem c = .stops (c.1.ahead, c.2) SIGTRAP :=
  P.int3 s.mem c (hs _ (atBreakpoint_iff.mp h))

/-- **A continue that comes to a breakpoint.** -/
theorem native_of_first {addr : BitVec 32} (hline : ContinueLine t.line)
    (hrip : pointer addr = c.1.rip) (haddr : addr ∈ s.breakpoints)
    (hev : t.event = ⟨.stopped SIGTRAP, c.1.ahead⟩) :
    (⟨turn H.toHost t s, some c.2⟩ : Debugged κ).native = ⟨some c, s.breakpoints.keys.erase addr⟩ := by
  obtain ⟨data, hdata⟩ := Finmap.mem_iff.mp haddr
  have hback : c.1.ahead.rip - 1 = pointer addr := by
    rw [hrip]
    exact BitVec.add_sub_cancel _ _
  have hhit : s.Hits t.event addr data := by
    refine ⟨by rw [hev], ?_, hdata⟩
    rw [hev, Event.addr, hback, setWidth_pointer]
  have hsame := turn_continue H hline (s := s)
  obtain ⟨-, hregs, hbreakpoints, -⟩ := continue_of_hits H _ ((hits_prompted H).mpr hhit)
  unfold Debugged.native
  rw [hsame.breakpoints, hsame.regs, act, hregs, hbreakpoints, hev, back_ahead,
    (prompted_sameChild H s).breakpoints, Finmap.keys_erase]
  rfl

/-- **A continue that rests before.** -/
theorem native_of_restsBefore (hline : ContinueLine t.line) (hev : Reports o t.event)
    (hown : ∀ addr data, ¬ s.Hits t.event addr data) :
    (⟨turn H.toHost t s, o.state.map Prod.snd⟩ : Debugged κ).native =
      ⟨o.state, s.breakpoints.keys⟩ := by
  have hsame := turn_continue H hline (s := s)
  obtain ⟨-, hregs, hbreakpoints, -⟩ := continue_of_not_hits H (prompted H.toHost s)
    fun addr data h => hown addr data ((hits_prompted H).mp h)
  unfold Debugged.native
  rw [hsame.breakpoints, hsame.regs, act, hregs, hbreakpoints, child_of_reports hev,
    (prompted_sameChild H s).breakpoints]

theorem native_of_step (hline : StepLine t.line) (hev : Reports o t.event) :
    (⟨turn H.toHost t s, o.state.map Prod.snd⟩ : Debugged κ).native =
      ⟨o.state, s.breakpoints.keys⟩ := by
  have hsame := turn_step H hline (s := s)
  unfold Debugged.native
  rw [hsame.breakpoints, hsame.regs, child_of_reports hev]

theorem native_of_set (hline : BreakLine t.line) :
    (⟨turn H.toHost t s, some k⟩ : Debugged κ).native = ⟨some (s.regs, k),
      insert (breakAddr H.toHost (prompted H.toHost s) t.line) s.breakpoints.keys⟩ := by
  have hsame := turn_set H hline (s := s)
  have hregs := (setBreakpoint_host H.toHost (prompted H.toHost s)
    (breakAddr H.toHost (prompted H.toHost s) t.line)).2.1
  unfold Debugged.native
  rw [hsame.breakpoints, hsame.regs, act, hregs, setBreakpoint_breakpoints, keys_insert,
    (prompted_sameChild H s).breakpoints, (prompted_sameChild H s).regs]
  rfl

/-- What a continue can do: it comes to a breakpoint, or rests before. -/
theorem rests_iff (hs : s.AllTrapped)
    (hintact : P.Intact (AtBreakpoint s.breakpoints.keys) mem s.mem c) :
    P.Rests s.mem c o ↔
      (∃ d, P.First (AtBreakpoint s.breakpoints.keys) mem c d ∧
        o = .stops (d.1.ahead, d.2) SIGTRAP) ∨
      P.RestsBefore (AtBreakpoint s.breakpoints.keys) mem c o :=
  Processor.rests_iff_of_traps (fun _ => Executed.atRest_stops _ _)
    (fun _ h => exec_of_trapped P hs h) hintact

/-- A stop before a breakpoint does not pass for one. -/
theorem not_hits_of_restsBefore (ho : P.RestsBefore (AtBreakpoint s.breakpoints.keys) mem c o)
    (hev : Reports o t.event) (hown : ∀ c',
      P.RestsBefore (AtBreakpoint s.breakpoints.keys) mem c (.stops c' SIGTRAP) →
        (c'.1.rip - 1).setWidth 32 ∉ s.breakpoints)
    (addr data : BitVec 32) : ¬ s.Hits t.event addr data := by
  rintro ⟨htrap, hfound, hsaved⟩
  obtain ⟨e, -, -, hexec, hrest⟩ := id ho
  cases o with
  | goes c' => exact hrest c' rfl
  | stops c' signal =>
    obtain ⟨line, event⟩ := t
    cases hev
    cases htrap
    refine hown c' ho (Finmap.mem_iff.mpr ⟨data, ?_⟩)
    rw [← hsaved, ← hfound]
    rfl
  | ends status => exact P.ended mem e status SIGTRAP hexec ((show _ = _ from hev) ▸ htrap)

theorem exists_reports (o : Executed (Child κ) ℕ WaitStatus) (regs : Regs) : ∃ ev, Reports o ev := by
  cases o with
  | goes c => exact ⟨_, rfl⟩
  | stops c signal => exact ⟨_, rfl⟩
  | ends status => exact ⟨⟨status, regs⟩, rfl⟩

end Native

/-! ## One round -/

section Steps

variable {P : Cpu κ} {H : ReliableHost} {mem : Memory 64} {d d' : Debugged κ} {a : Order}

/-- **A careful round is one of the native debugger.** -/
theorem round_obeys (hs : d.session.AllTrapped) (hcareful : Order.Careful P mem a d)
    (h : Round P H d a d') : Native.Obeys P mem d.native a d'.native ∧ d'.session.AllTrapped := by
  have hprompt : (prompted H.toHost d.session).AllTrapped :=
    allTrapped_congr (prompted_sameChild H d.session) hs
  cases h with
  | @«continue» s k t o hline hrests hev =>
    obtain ⟨hintact, hkeeps, hown⟩ := hcareful (s.regs, k) rfl
    have htrapped : KeepsTraps (.continue t.event) s → (turn H.toHost t s).AllTrapped := fun h =>
      allTrapped_congr (turn_continue H hline)
        ((allTrapped_continue H hprompt t.event).mpr (keepsTraps_prompted H h))
    rcases (rests_iff P hs hintact).mp hrests with ⟨c, hfirst, rfl⟩ | hbefore
    · obtain ⟨addr, haddr, hrip⟩ := hfirst.2
      have hnative : (⟨turn H.toHost t s, some c.2⟩ : Debugged κ).native = _ :=
        native_of_first H hline hrip (Finmap.mem_keys.mp haddr) hev
      refine ⟨?_, htrapped ?_⟩
      · show Native.Obeys P mem _ _ (⟨turn H.toHost t s, some c.2⟩ : Debugged κ).native
        rw [hnative]
        exact .reaches hfirst hrip
      · rw [show t.event = _ from hev]
        exact hkeeps c hfirst
    · have hno := not_hits_of_restsBefore P hbefore hev hown
      refine ⟨?_, htrapped fun addr data hhit => absurd hhit (hno addr data)⟩
      rw [native_of_restsBefore H hline hev hno]
      exact .rests hbefore
  | @step s k t hline hev =>
    obtain ⟨-, hreads⟩ := hcareful (s.regs, k) rfl
    have hexec : P.exec s.mem (s.regs, k) = P.exec mem (s.regs, k) := P.exec_congr hreads
    refine ⟨?_, ?_⟩
    · rw [native_of_step H hline hev, hexec]
      exact .step _ _
    · exact allTrapped_congr (turn_step H hline) fun p hp => hs p hp
  | @set s k t hline =>
    refine ⟨?_, ?_⟩
    · rw [native_of_set H hline]
      exact .set _ _ _
    · exact allTrapped_congr (turn_set H hline)
        ((allTrapped_set H hprompt _).mpr (keepsTraps_prompted H hcareful))
  | @other s k t hexit hcontinue hstep hbreak =>
    have hsame := turn_other H hexit hcontinue hstep hbreak (s := s)
    refine ⟨?_, allTrapped_congr hsame hs⟩
    have hnative : (⟨turn H.toHost t s, some k⟩ : Debugged κ).native =
        (⟨s, some k⟩ : Debugged κ).native := by
      unfold Debugged.native
      rw [hsame.regs, hsame.breakpoints]
    rw [hnative]
    exact .other _ _

/-- **What the native debugger does, a careful round does.** -/
theorem round_of_obeys {u : Native κ} (hs : d.session.AllTrapped) (hcareful : Order.Careful P mem a d)
    (h : Native.Obeys P mem d.native a u) : ∃ d', Round P H d a d' ∧ d'.native = u := by
  obtain ⟨s, rest⟩ := d
  cases rest with
  | none => cases h
  | some k =>
    change Native.Obeys P mem ⟨some (s.regs, k), s.breakpoints.keys⟩ a u at h
    cases h with
    | other =>
      have hround : Round P H ⟨s, some k⟩ .other
          ⟨turn H.toHost ⟨"i b".toList, trapAt 0⟩ s, some k⟩ :=
        .other (by decide) (by decide) (by decide) (by decide)
      have hsame := turn_other H (s := s) (t := ⟨"i b".toList, trapAt 0⟩) (by decide) (by decide)
        (by decide) (by decide)
      refine ⟨_, hround, ?_⟩
      unfold Debugged.native
      rw [hsame.regs, hsame.breakpoints]
      rfl
    | set _ _ addr =>
      obtain ⟨line, hline, haddr⟩ := exists_breakLine H (prompted H.toHost s) addr
      have hround : Round P H ⟨s, some k⟩ (.set (breakAddr H.toHost (prompted H.toHost s) line)) _ :=
        .set (t := ⟨line, trapAt 0⟩) hline
      rw [haddr] at hround
      refine ⟨_, hround, ?_⟩
      rw [native_of_set H hline, haddr]
    | step =>
      obtain ⟨-, hreads⟩ := hcareful (s.regs, k) rfl
      have hexec : P.exec s.mem (s.regs, k) = P.exec mem (s.regs, k) := P.exec_congr hreads
      obtain ⟨ev, hev⟩ := exists_reports (P.exec s.mem (s.regs, k)) s.regs
      have hline : StepLine "nexti".toList := .inr (.inl rfl)
      refine ⟨_, .step (t := ⟨"nexti".toList, ev⟩) hline hev, ?_⟩
      rw [native_of_step H hline hev, hexec]
    | @reaches _ c _ addr hfirst hrip =>
      obtain ⟨hintact, -, -⟩ := hcareful (s.regs, k) rfl
      have hrests := (rests_iff P hs hintact).mpr (.inl ⟨c, hfirst, rfl⟩)
      have haddr : addr ∈ s.breakpoints := by
        obtain ⟨b, hb, hrip'⟩ := hfirst.2
        rw [← pointer_injective (hrip'.trans hrip.symm)]
        exact Finmap.mem_keys.mp hb
      have hline : ContinueLine "c".toList := .inr rfl
      exact ⟨_, .continue (t := ⟨_, _⟩) hline hrests rfl, native_of_first H hline hrip haddr rfl⟩
    | @rests _ _ o hbefore =>
      obtain ⟨hintact, -, hown⟩ := hcareful (s.regs, k) rfl
      have hrests := (rests_iff P hs hintact).mpr (.inr hbefore)
      obtain ⟨ev, hev⟩ := exists_reports o s.regs
      have hline : ContinueLine "c".toList := .inr rfl
      have hno := not_hits_of_restsBefore P (t := ⟨"c".toList, ev⟩) hbefore hev hown
      exact ⟨_, .continue (t := ⟨_, ev⟩) hline hrests hev, native_of_restsBefore H hline hev hno⟩

end Steps

/-! ## A row of `NOP`s -/

/-- A processor that knows `NOP`, `INT 3` and a system call, which exits; anything else is illegal,
signal 4. -/
def nops : Cpu Unit where
  exec m c :=
    if m c.1.rip = 0xcc then .stops (c.1.ahead, c.2) SIGTRAP
    else if m c.1.rip = 0x90 then .goes (c.1.ahead, c.2)
    else if m c.1.rip = 0x0f then .ends (.exited 0)
    else .stops c 4
  reads _ c := {c.1.rip}
  exec_congr := by
    intro m m' c h
    rw [h c.1.rip rfl]
  int3 m c h := if_pos h
  ended := by
    intro m c status signal h
    split_ifs at h
    cases h
    exact WaitStatus.noConfusion

def row : Memory 64 := fun _ => 0x90

/-- A child at an address. -/
def childAt (rip : BitVec 64) : Child Unit := ((trapAt rip).regs, ())

theorem nops_row (c : Child Unit) : nops.exec row c = .goes (c.1.ahead, c.2) := rfl

/-- From `0x1000` to a breakpoint at `0x1002`. -/
theorem before_row {c : Child Unit}
    (h : ReflTransGen (nops.Before (AtBreakpoint {0x1002}) row) (childAt 0x1000) c) :
    c = childAt 0x1000 ∨ c = childAt 0x1001 ∨ c = childAt 0x1002 := by
  induction h with
  | refl => exact .inl rfl
  | tail _ hstep ih =>
    obtain ⟨hB, hgoes⟩ := hstep
    cases hgoes
    rcases ih with rfl | rfl | rfl
    · exact .inr (.inl rfl)
    · exact .inr (.inr rfl)
    · exact absurd ⟨0x1002, by decide, rfl⟩ hB

theorem first_row : nops.First (AtBreakpoint {0x1002}) row (childAt 0x1000) (childAt 0x1002) := by
  have hstep : ∀ a : BitVec 64, a ≠ 0x1002 →
      nops.Before (AtBreakpoint {0x1002}) row (childAt a) (childAt (a + 1)) := by
    rintro a ha
    refine ⟨?_, rfl⟩
    rintro ⟨addr, haddr, hrip⟩
    cases Finset.mem_singleton.mp haddr
    exact ha hrip.symm
  refine ⟨(ReflTransGen.single (hstep 0x1000 (by decide))).tail (hstep 0x1001 (by decide)), ?_⟩
  exact ⟨0x1002, by decide, rfl⟩

theorem round_set_cases {P : Cpu κ} {H : ReliableHost} {d d' : Debugged κ} {addr : BitVec 32}
    (h : Round P H d (.set addr) d') : d'.native = ⟨d.native.child, insert addr d.native.breakpoints⟩ ∧
      d'.session.mem = planted d.session.mem addr := by
  generalize ha : Order.set addr = a at h
  cases h with
  | «continue» => cases ha
  | step => cases ha
  | @set s k t hline =>
    cases ha
    refine ⟨native_of_set H hline, ?_⟩
    rw [(turn_set H hline).mem, act, setBreakpoint_mem, (prompted_sameChild H s).mem]
  | other => cases ha

/-- Setting the breakpoint and continuing to it. -/
theorem guarded_row (H : ReliableHost) : Guarded (Round nops H) (Order.Careful nops row)
    (Debugged.start row (childAt 0x1000)) [.set 0x1002, .continue] := by
  intro done a rest d has hd
  rcases done with _ | ⟨b, _ | ⟨b', done⟩⟩
  · cases has
    cases hd.nil_cases
    exact fun i _ _ => start_not_active _ _ _
  · cases has
    obtain ⟨e, he, hround⟩ := Trace.concat_cases (show Trace _ _ ([] ++ [Order.set 0x1002]) d from hd)
    cases he.nil_cases
    obtain ⟨hnative, hmem⟩ := round_set_cases hround
    have hbreakpoints : d.session.breakpoints.keys = {0x1002} := congrArg Native.breakpoints hnative
    intro c hc
    rw [hnative] at hc ⊢
    cases hc
    refine ⟨fun c hrun hB a ha => ?_, fun c _ addr data hhit i hpos hi hactive => ?_, ?_⟩
    · -- the child reads before the breakpoint, where nothing is written
      cases ha
      rw [hmem]
      rcases before_row hrun with rfl | rfl | rfl
      · exact planted_of_ne (by decide)
      · exact planted_of_ne (by decide)
      · exact absurd ⟨0x1002, by decide, rfl⟩ hB
    · -- there is no other breakpoint
      have hkey : ∀ b, b ∈ d.session.breakpoints → b = 0x1002 := fun b hb => by
        rwa [← Finmap.mem_keys, hbreakpoints, Finset.mem_singleton] at hb
      obtain ⟨b, hb, he⟩ := hactive
      have haddr := hkey addr (Finmap.mem_iff.mpr ⟨data, hhit.saved⟩)
      rw [hkey b hb, ← haddr] at he
      exact absurd he.symm (offset_ne_self hpos hi)
    · rintro c' ⟨e, -, -, hexec, -⟩
      rw [nops_row] at hexec
      cases hexec
  · have hlength := congrArg List.length has
    simp at hlength

/-! ## Whole sessions -/

theorem start_allTrapped (mem : Memory 64) (c : Child κ) :
    (Debugged.start mem c).session.AllTrapped := fun p h => absurd h (start_not_active mem c.1 p)

/-- **Native debugging.** As long as its rounds are careful, what the debugger and its child can do on
any orders is what the native debugger does on them, and where they come to is where it comes to. Both
discard the signals of the child: it goes on from a stop as if there had been none. -/
theorem rounds_iff_native (P : Cpu κ) (H : ReliableHost) (mem : Memory 64) (c : Child κ)
    (orders : List Order) (n : Native κ)
    (h : Guarded (Round P H) (Order.Careful P mem) (Debugged.start mem c) orders) :
    (∃ d, Trace (Round P H) (Debugged.start mem c) orders d ∧ d.native = n) ↔
      Trace (Native.Obeys P mem) ⟨some c, ∅⟩ orders n :=
  trace_image_iff (I := fun d => d.session.AllTrapped) (fun _ _ _ hs hC hR => round_obeys hs hC hR)
    (fun _ _ _ hs hC hS => round_of_obeys hs hC hS) (start_allTrapped mem c) h n

/-- The native debugger on the row of `NOP`s. -/
theorem obeys_row : Trace (Native.Obeys nops row) ⟨some (childAt 0x1000), ∅⟩ [.set 0x1002, .continue]
    ⟨some (childAt 0x1002), ∅⟩ := by
  have hset : Native.Obeys nops row ⟨some (childAt 0x1000), ∅⟩ (.set 0x1002)
      ⟨some (childAt 0x1000), {0x1002}⟩ := .set (childAt 0x1000) ∅ 0x1002
  have hcontinue : Native.Obeys nops row ⟨some (childAt 0x1000), {0x1002}⟩ .continue
      ⟨some (childAt 0x1002), ∅⟩ :=
    Finset.erase_singleton (0x1002 : BitVec 32) ▸ .reaches first_row rfl
  have htrace : Trace (Native.Obeys nops row) _ ([] ++ [.set 0x1002] ++ [.continue]) _ :=
    .concat (.concat .nil hset) hcontinue
  exact htrace

theorem rounds_iff_native_row : ∃ d, Trace (Round nops zeroHost) (Debugged.start row (childAt 0x1000))
    [.set 0x1002, .continue] d ∧ d.native = ⟨some (childAt 0x1002), ∅⟩ :=
  (rounds_iff_native nops zeroHost row (childAt 0x1000) _ _ (guarded_row zeroHost)).mpr obeys_row

/-! ## The child alone -/

/-- The order does not end with a signal of the child's own. -/
def Order.Quiet (P : Cpu κ) (mem : Memory 64) : Order → Native κ → Prop
  | .continue, n => ∀ c, n.child = some c →
    ∀ c' signal, ¬ P.RestsBefore (AtBreakpoint n.breakpoints) mem c (.stops c' signal)
  | .step, n => ∀ c, n.child = some c → ∀ c' signal, P.exec mem c ≠ .stops c' signal
  | _, _ => True

/-- The child has come to where a processor comes to that nobody stops, or has ended as it ends there. -/
structure Native.Follows (P : Cpu κ) (mem : Memory 64) (c : Child κ) (n : Native κ) : Prop where
  comes : ∀ d, n.child = some d → P.Comes mem c d
  ends : n.child = none → ∃ status, P.Rests mem c (.ends status)

section Alone

variable {P : Cpu κ} {mem : Memory 64} {n n' : Native κ} {a : Order} {c : Child κ}

theorem follows_of_goes {d : Child κ} {B : Finset (BitVec 32)} (h : ReflTransGen (P.Goes mem) c d) :
    Native.Follows P mem c ⟨some d, B⟩ := by
  refine ⟨fun d' hd => ?_, fun hd => ?_⟩
  · cases hd
    exact .of_goes h
  · cases hd

/-- One instruction after a run that goes on. -/
theorem follows_of_exec {d : Child κ} {B : Finset (BitVec 32)} (h : ReflTransGen (P.Goes mem) c d) :
    Native.Follows P mem c ⟨(P.exec mem d).state, B⟩ := by
  refine ⟨fun d' hd => .of_state h hd, fun hd => ?_⟩
  obtain ⟨status, hends⟩ := Executed.of_no_state hd
  refine ⟨status, d, h, hends, fun d' hgoes => ?_⟩
  cases hgoes

/-- An order to a child that has gone on so far. -/
theorem Native.Obeys.follows (h : n.Obeys P mem a n')
    (hn : ∀ d, n.child = some d → ReflTransGen (P.Goes mem) c d) : n'.Follows P mem c := by
  cases h with
  | other d B => exact follows_of_goes (hn d rfl)
  | set d B addr => exact follows_of_goes (hn d rfl)
  | step d B => exact follows_of_exec (hn d rfl)
  | reaches hfirst hrip => exact follows_of_goes ((hn _ rfl).trans (Processor.goes_of_before hfirst.1))
  | rests hbefore =>
    obtain ⟨u, hu, -, rfl, -⟩ := hbefore
    exact follows_of_exec ((hn _ rfl).trans (Processor.goes_of_before hu))

/-- After a quiet order it still does. -/
theorem Native.Obeys.goes (h : n.Obeys P mem a n') (hquiet : a.Quiet P mem n)
    (hn : ∀ d, n.child = some d → ReflTransGen (P.Goes mem) c d) {d : Child κ}
    (hd : n'.child = some d) : ReflTransGen (P.Goes mem) c d := by
  cases h with
  | other c' B => exact hn d hd
  | set c' B addr => exact hn d hd
  | step c' B =>
    rcases Executed.of_state hd with hgoes | ⟨signal, hstops⟩
    · exact (hn c' rfl).tail hgoes
    · exact absurd hstops (hquiet c' rfl d signal)
  | reaches hfirst hrip =>
    cases hd
    exact (hn _ rfl).trans (Processor.goes_of_before hfirst.1)
  | @rests c' B o hbefore =>
    rcases Executed.of_state hd with rfl | ⟨signal, rfl⟩
    · obtain ⟨-, -, -, -, hrest⟩ := hbefore
      exact absurd rfl (hrest d)
    · exact absurd hbefore (hquiet c' rfl d signal)

variable {H : ReliableHost} {orders : List Order} {d : Debugged κ}

/-- A session of careful and quiet rounds. -/
theorem goes_of_quiet (h : Guarded (Round P H) (Order.Careful P mem) (Debugged.start mem c) orders)
    (hquiet : Guarded (Round P H) (fun a d => a.Quiet P mem d.native) (Debugged.start mem c) orders)
    (hd : Trace (Round P H) (Debugged.start mem c) orders d) {c' : Child κ}
    (hc' : d.native.child = some c') : ReflTransGen (P.Goes mem) c c' := by
  have himage := hd.image (f := Debugged.native) (I := fun d => d.session.AllTrapped)
    (S := fun n a n' => n.Obeys P mem a n' ∧ a.Quiet P mem n)
    (fun _ _ _ hs hC hR => ⟨⟨(round_obeys hs hC.1 hR).1, hC.2⟩, (round_obeys hs hC.1 hR).2⟩)
    (start_allTrapped mem c) (h.and hquiet)
  have hkeeps := himage.1.keeps (I := fun n => ∀ d, n.child = some d → ReflTransGen (P.Goes mem) c d)
    (fun _ _ _ hstep hn _ hd => hstep.1.goes hstep.2 hn hd) fun d hd => by cases hd; exact .refl
  exact hkeeps c' hc'

end Alone

/-- **The child runs natively.** In a session of careful rounds, of which none but the last ends with a
signal of the child's own, the child comes to where it comes to without a debugger, and has ended where
it ends there; if the last one does not either, it is where it goes on. -/
theorem child_runs_natively (P : Cpu κ) (H : ReliableHost) (mem : Memory 64) (c : Child κ)
    (orders : List Order) (d : Debugged κ)
    (h : Guarded (Round P H) (Order.Careful P mem) (Debugged.start mem c) orders)
    (hquiet : Guarded (Round P H) (fun a d => a.Quiet P mem d.native) (Debugged.start mem c)
      orders.dropLast)
    (hd : Trace (Round P H) (Debugged.start mem c) orders d) :
    d.native.Follows P mem c ∧
      (Guarded (Round P H) (fun a d => a.Quiet P mem d.native) (Debugged.start mem c) orders →
        ∀ c', d.native.child = some c' → ReflTransGen (P.Goes mem) c c') := by
  refine ⟨?_, fun hall c' hc' => goes_of_quiet h hall hd hc'⟩
  cases hd with
  | nil => exact follows_of_goes .refl
  | @concat e _ orders a hdone hlast =>
    rw [List.dropLast_concat] at hquiet
    have htrapped := (hdone.image (I := fun d => d.session.AllTrapped)
      (fun _ _ _ hs hC hR => round_obeys hs hC hR) (start_allTrapped mem c) h.prefix).2
    have hobeys := (round_obeys htrapped (h.last hdone) hlast).1
    exact hobeys.follows fun c' hc' => goes_of_quiet h.prefix hquiet hdone hc'

theorem child_runs_natively_row : ∃ d, Trace (Round nops zeroHost)
    (Debugged.start row (childAt 0x1000)) [.set 0x1002, .continue] d ∧
      d.native.child = some (childAt 0x1002) ∧
        ReflTransGen (nops.Goes row) (childAt 0x1000) (childAt 0x1002) := by
  have hcareful := guarded_row zeroHost
  have hquiet : ∀ orders, Guarded (Round nops zeroHost) (fun a d => a.Quiet nops row d.native)
      (Debugged.start row (childAt 0x1000)) orders := by
    intro orders _ a _ d _ _
    cases a with
    | «continue» =>
      rintro c - c' signal ⟨e, -, -, hexec, -⟩
      rw [nops_row] at hexec
      cases hexec
    | step =>
      intro c _ c' signal hexec
      rw [nops_row] at hexec
      cases hexec
    | _ => trivial
  obtain ⟨d, hd, hnative⟩ := (trace_image_iff (I := fun d => d.session.AllTrapped)
    (fun _ _ _ hs hC hR => round_obeys hs hC hR) (fun _ _ _ hs hC hS => round_of_obeys hs hC hS)
    (start_allTrapped row (childAt 0x1000)) hcareful _).mpr obeys_row
  have hchild : d.native.child = some (childAt 0x1002) := congrArg Native.child hnative
  have hruns := child_runs_natively nops zeroHost row (childAt 0x1000) _ d hcareful (hquiet _) hd
  exact ⟨d, hd, hchild, hruns.2 (hquiet _) _ hchild⟩

end ProgramAnalysis.Debugger
