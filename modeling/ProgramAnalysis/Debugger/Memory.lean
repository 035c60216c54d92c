import ProgramAnalysis.Debugger.Effect
import ProgramAnalysis.Lib.Run

/-!
# The child's memory under breakpoints

Runs of `Set_breakpoint` calls and `Continue` stops. Both write a whole word for the sake of its first
byte.

* `Action`, `act`: the steps of such runs;
* `Session.Undamaged`, `Spares`, **`undamaged_iff`**: the memory away from the breakpoints stays the
  original one exactly as long as no step writes other bytes over it;
* `Session.AllTrapped`, `KeepsTraps`, **`allTrapped_iff`**: every breakpoint keeps its trap exactly as
  long as no step writes another byte over one.
-/

namespace ProgramAnalysis.Debugger

open Lib

/-! ## Runs -/

/-- A step: a breakpoint is set, or the child continues up to a stop. -/
inductive Action
  | set (addr : BitVec 32)
  | continue (ev : Event)

/-- The session after a step. -/
def act (H : ReliableHost) : Action → Session → Session
  | .set addr, s => (setBreakpoint H.toHost addr s).2
  | .continue ev, s => (Continue H.toHost ev s).2

/-- `p` is the address of a breakpoint. -/
def Session.Active (s : Session) (p : BitVec 64) : Prop :=
  ∃ addr, addr ∈ s.breakpoints ∧ pointer addr = p

/-- Away from the breakpoints, the memory is the original one. -/
def Session.Undamaged (mem : Memory 64) (s : Session) : Prop := ∀ p, ¬ s.Active p → s.mem p = mem p

/-- Every breakpoint has its trap in memory. -/
def Session.AllTrapped (s : Session) : Prop := ∀ p, s.Active p → s.mem p = 0xcc

/-- The byte saved for every breakpoint is the original one. -/
def Session.SavedOriginal (mem : Memory 64) (s : Session) : Prop :=
  ∀ addr data, s.breakpoints.lookup addr = some data → byte data 0 = mem (pointer addr)

/-- The step puts no other byte in the place of one that is not at a breakpoint: a set has zeros for
the upper half of its word, a hit has the saved data and zeros. -/
def Spares : Action → Session → Prop
  | .set addr, s => ∀ i, 4 ≤ i → i < 8 →
    s.Active (offset (pointer addr) i) ∨ s.mem (offset (pointer addr) i) = 0
  | .continue ev, s => ∀ addr data, s.Hits ev addr data → ∀ i, 0 < i → i < 8 →
    s.Active (offset (pointer addr) i) ∨ s.mem (offset (pointer addr) i) = byte data i

/-- The step writes nothing but traps at the breakpoints within its word. -/
def KeepsTraps : Action → Session → Prop
  | .set addr, s => ∀ i, 4 ≤ i → i < 8 → ¬ s.Active (offset (pointer addr) i)
  | .continue ev, s => ∀ addr data, s.Hits ev addr data → ∀ i, 0 < i → i < 8 →
    s.Active (offset (pointer addr) i) → byte data i = 0xcc

/-! ## Writing one word -/

section Word

variable {s t : Session} {addr : BitVec 32} {mem : Memory 64} {p : BitVec 64}

/-- `t` is `s` after a write of the word at `addr`, where a breakpoint may have come or gone. -/
structure Rewrites (s t : Session) (addr : BitVec 32) : Prop where
  outside : ∀ p, (∀ i, i < 8 → p ≠ offset (pointer addr) i) → t.mem p = s.mem p
  active : ∀ p, p ≠ pointer addr → (t.Active p ↔ s.Active p)

/-- The first byte, the rest of the word, everything else. -/
theorem window_cases (addr : BitVec 32) (p : BitVec 64) : p = pointer addr ∨
    (∃ i, 0 < i ∧ i < 8 ∧ p = offset (pointer addr) i) ∨
      ∀ i, i < 8 → p ≠ offset (pointer addr) i := by
  by_cases h : ∃ i, i < 8 ∧ p = offset (pointer addr) i
  · obtain ⟨i, hi, hp⟩ := h
    rcases Nat.eq_zero_or_pos i with rfl | hpos
    · exact .inl (hp.trans (offset_zero _))
    · exact .inr (.inl ⟨i, hpos, hi, hp⟩)
  · exact .inr (.inr fun i hi hp => h ⟨i, hi, hp⟩)

theorem ne_pointer_of_outside (hout : ∀ i, i < 8 → p ≠ offset (pointer addr) i) :
    p ≠ pointer addr := fun h => hout 0 (by omega) (h.trans (offset_zero _).symm)

/-- The breakpoints after an insertion that keeps the entry that exists. -/
theorem active_of_insert {data : BitVec 32} (h : t.breakpoints =
    if addr ∈ s.breakpoints then s.breakpoints else s.breakpoints.insert addr data) :
    t.Active p ↔ p = pointer addr ∨ s.Active p := by
  unfold Session.Active
  rw [h]
  constructor
  · rintro ⟨b, hb, rfl⟩
    by_cases hba : b = addr
    · exact .inl (congrArg pointer hba)
    · refine .inr ⟨b, ?_, rfl⟩
      split_ifs at hb with hmem
      · exact hb
      · exact (Finmap.mem_insert.mp hb).resolve_left hba
  · rintro (rfl | ⟨b, hb, rfl⟩)
    · refine ⟨addr, ?_, rfl⟩
      split_ifs with hmem
      · exact hmem
      · exact Finmap.mem_insert.mpr (.inl rfl)
    · refine ⟨b, ?_, rfl⟩
      split_ifs with hmem
      · exact hb
      · exact Finmap.mem_insert.mpr (.inr hb)

theorem active_of_erase (h : t.breakpoints = s.breakpoints.erase addr) :
    t.Active p ↔ p ≠ pointer addr ∧ s.Active p := by
  unfold Session.Active
  rw [h]
  constructor
  · rintro ⟨b, hb, rfl⟩
    have hb' := Finmap.mem_erase.mp hb
    exact ⟨fun he => hb'.1 (pointer_injective he), b, hb'.2, rfl⟩
  · rintro ⟨hne, b, hb, rfl⟩
    exact ⟨b, Finmap.mem_erase.mpr ⟨fun he => hne (congrArg pointer he), hb⟩, rfl⟩

theorem Rewrites.undamaged_after (hw : Rewrites s t addr) (hs : s.Undamaged mem)
    (hself : ¬ t.Active (pointer addr) → t.mem (pointer addr) = mem (pointer addr)) :
    t.Undamaged mem ↔ ∀ i, 0 < i → i < 8 →
      s.Active (offset (pointer addr) i) ∨
        s.mem (offset (pointer addr) i) = t.mem (offset (pointer addr) i) := by
  constructor
  · intro ht i hpos hi
    by_cases hactive : s.Active (offset (pointer addr) i)
    · exact .inl hactive
    · have hactive' : ¬ t.Active (offset (pointer addr) i) := fun h =>
        hactive ((hw.active _ (offset_ne_self hpos hi)).mp h)
      exact .inr ((hs _ hactive).trans (ht _ hactive').symm)
  · intro h p hp
    rcases window_cases addr p with rfl | ⟨i, hpos, hi, rfl⟩ | hout
    · exact hself hp
    · have hactive : ¬ s.Active (offset (pointer addr) i) := fun h =>
        hp ((hw.active _ (offset_ne_self hpos hi)).mpr h)
      rcases h i hpos hi with h | h
      · exact absurd h hactive
      · exact h.symm.trans (hs _ hactive)
    · have hne := ne_pointer_of_outside hout
      have hactive : ¬ s.Active p := fun h => hp ((hw.active p hne).mpr h)
      rw [hw.outside p hout, hs p hactive]

theorem Rewrites.allTrapped_after (hw : Rewrites s t addr) (hs : s.AllTrapped)
    (hself : t.Active (pointer addr) → t.mem (pointer addr) = 0xcc) :
    t.AllTrapped ↔ ∀ i, 0 < i → i < 8 → s.Active (offset (pointer addr) i) →
      t.mem (offset (pointer addr) i) = 0xcc := by
  constructor
  · intro ht i hpos hi hactive
    exact ht _ ((hw.active _ (offset_ne_self hpos hi)).mpr hactive)
  · intro h p hp
    rcases window_cases addr p with rfl | ⟨i, hpos, hi, rfl⟩ | hout
    · exact hself hp
    · exact h i hpos hi ((hw.active _ (offset_ne_self hpos hi)).mp hp)
    · have hne := ne_pointer_of_outside hout
      rw [hw.outside p hout]
      exact hs p ((hw.active p hne).mp hp)

end Word

/-! ## The steps -/

section Steps

variable (H : ReliableHost) {s : Session} {mem : Memory 64}

theorem active_set {addr : BitVec 32} {p : BitVec 64} :
    (act H (.set addr) s).Active p ↔ p = pointer addr ∨ s.Active p :=
  active_of_insert (setBreakpoint_breakpoints H s addr)

theorem active_hit {ev : Event} {addr data : BitVec 32} (h : s.Hits ev addr data) {p : BitVec 64} :
    (act H (.continue ev) s).Active p ↔ p ≠ pointer addr ∧ s.Active p :=
  active_of_erase (continue_of_hits H s h).2.2.1

theorem rewrites_set (addr : BitVec 32) : Rewrites s (act H (.set addr) s) addr := by
  refine ⟨fun p hout => ?_, fun p hne => ?_⟩
  · rw [act, setBreakpoint_mem, planted_of_ne hout]
  · rw [active_set]
    exact ⟨fun h => h.resolve_left hne, .inr⟩

theorem rewrites_hit {ev : Event} {addr data : BitVec 32} (h : s.Hits ev addr data) :
    Rewrites s (act H (.continue ev) s) addr := by
  refine ⟨fun p hout => ?_, fun p hne => ?_⟩
  · rw [act, (continue_of_hits H s h).1, restored_of_ne hout]
  · rw [active_hit H h]
    exact ⟨fun h => h.2, fun h => ⟨hne, h⟩⟩

theorem Session.Hits.unique {ev : Event} {addr data addr' data' : BitVec 32}
    (h : s.Hits ev addr data) (h' : s.Hits ev addr' data') : addr' = addr ∧ data' = data := by
  have haddr : addr' = addr := h'.found.symm.trans h.found
  subst haddr
  exact ⟨rfl, Option.some.inj (h'.saved.symm.trans h.saved)⟩

/-- A stop at a breakpoint, or one that leaves memory and breakpoints as they are. -/
theorem continue_cases (s : Session) (ev : Event) : (∃ addr data, s.Hits ev addr data) ∨
    (∀ addr data, ¬ s.Hits ev addr data) ∧ (act H (.continue ev) s).mem = s.mem ∧
      (act H (.continue ev) s).breakpoints = s.breakpoints := by
  by_cases hhit : ∃ addr data, s.Hits ev addr data
  · exact .inl hhit
  · have hno : ∀ addr data, ¬ s.Hits ev addr data := fun addr data h => hhit ⟨addr, data, h⟩
    obtain ⟨hmem, -, hbreakpoints, -⟩ := continue_of_not_hits H s hno
    exact .inr ⟨hno, hmem, hbreakpoints⟩

theorem undamaged_set (hs : s.Undamaged mem) (addr : BitVec 32) :
    (act H (.set addr) s).Undamaged mem ↔ Spares (.set addr) s := by
  have hself : ¬ (act H (.set addr) s).Active (pointer addr) →
      (act H (.set addr) s).mem (pointer addr) = mem (pointer addr) := fun h =>
    absurd ((active_set H).mpr (.inl rfl)) h
  have hmem : (act H (.set addr) s).mem = planted s.mem addr := setBreakpoint_mem H s addr
  rw [(rewrites_set H addr).undamaged_after hs hself, hmem]
  constructor
  · intro h i hlow hi
    rw [← planted_high s.mem addr hlow hi]
    exact h i (by omega) hi
  · intro h i hpos hi
    by_cases hlow : i < 4
    · exact .inr (planted_low s.mem addr hpos hlow).symm
    · rw [planted_high s.mem addr (by omega) hi]
      exact h i (by omega) hi

theorem undamaged_continue (hs : s.Undamaged mem) (hsaved : s.SavedOriginal mem) (ev : Event) :
    (act H (.continue ev) s).Undamaged mem ↔ Spares (.continue ev) s := by
  rcases continue_cases H s ev with ⟨addr, data, hhit⟩ | ⟨hno, hmem, hbreakpoints⟩
  · have hmem : (act H (.continue ev) s).mem = restored s.mem addr data :=
      (continue_of_hits H s hhit).1
    have hself : ¬ (act H (.continue ev) s).Active (pointer addr) →
        (act H (.continue ev) s).mem (pointer addr) = mem (pointer addr) := by
      intro _
      rw [hmem, restored_self]
      exact hsaved addr data hhit.saved
    rw [(rewrites_hit H hhit).undamaged_after hs hself, hmem]
    constructor
    · intro h addr' data' hhit' i hpos hi
      obtain ⟨rfl, rfl⟩ := hhit.unique hhit'
      rw [← restored_offset s.mem addr' data' hi]
      exact h i hpos hi
    · intro h i hpos hi
      rw [restored_offset s.mem addr data hi]
      exact h addr data hhit i hpos hi
  · have hundamaged : (act H (.continue ev) s).Undamaged mem := by
      unfold Session.Undamaged Session.Active
      rw [hmem, hbreakpoints]
      exact hs
    exact ⟨fun _ addr data h => absurd h (hno addr data), fun _ => hundamaged⟩

/-- **A step keeps the memory undamaged exactly when it spares it.** -/
theorem undamaged_step (hs : s.Undamaged mem) (hsaved : s.SavedOriginal mem) (a : Action) :
    (act H a s).Undamaged mem ↔ Spares a s := by
  cases a with
  | set addr => exact undamaged_set H hs addr
  | «continue» ev => exact undamaged_continue H hs hsaved ev

/-- A byte saved while the memory is undamaged is the original one. -/
theorem savedOriginal_step (hs : s.Undamaged mem) (hsaved : s.SavedOriginal mem) (a : Action) :
    (act H a s).SavedOriginal mem := by
  intro b d hb
  cases a with
  | set addr =>
    rw [act, setBreakpoint_breakpoints] at hb
    split_ifs at hb with hmem
    · exact hsaved b d hb
    · by_cases hba : b = addr
      · subst hba
        rw [Finmap.lookup_insert] at hb
        have hactive : ¬ s.Active (pointer b) := by
          rintro ⟨c, hc, he⟩
          exact hmem (pointer_injective he ▸ hc)
        have hbyte := byte_dataAt s.mem b (i := 0) (by omega)
        rw [offset_zero, Option.some.inj hb] at hbyte
        rw [hbyte, hs _ hactive]
      · rw [Finmap.lookup_insert_of_ne _ hba] at hb
        exact hsaved b d hb
  | «continue» ev =>
    rcases continue_cases H s ev with ⟨addr, data, hhit⟩ | ⟨-, -, hbreakpoints⟩
    · rw [act, (continue_of_hits H s hhit).2.2.1] at hb
      by_cases hba : b = addr
      · rw [hba, Finmap.lookup_erase] at hb
        cases hb
      · rw [Finmap.lookup_erase_ne hba] at hb
        exact hsaved b d hb
    · rw [hbreakpoints] at hb
      exact hsaved b d hb

theorem allTrapped_set (hs : s.AllTrapped) (addr : BitVec 32) :
    (act H (.set addr) s).AllTrapped ↔ KeepsTraps (.set addr) s := by
  have hmem : (act H (.set addr) s).mem = planted s.mem addr := setBreakpoint_mem H s addr
  have hself : (act H (.set addr) s).Active (pointer addr) →
      (act H (.set addr) s).mem (pointer addr) = 0xcc := by
    intro _
    rw [hmem, planted_self]
  rw [(rewrites_set H addr).allTrapped_after hs hself, hmem]
  constructor
  · intro h i hlow hi hactive
    have htrap := h i (by omega) hi hactive
    rw [planted_high s.mem addr hlow hi] at htrap
    exact absurd htrap (by decide)
  · intro h i hpos hi hactive
    by_cases hlow : i < 4
    · rw [planted_low s.mem addr hpos hlow]
      exact hs _ hactive
    · exact absurd hactive (h i (by omega) hi)

theorem allTrapped_continue (hs : s.AllTrapped) (ev : Event) :
    (act H (.continue ev) s).AllTrapped ↔ KeepsTraps (.continue ev) s := by
  rcases continue_cases H s ev with ⟨addr, data, hhit⟩ | ⟨hno, hmem, hbreakpoints⟩
  · have hmem : (act H (.continue ev) s).mem = restored s.mem addr data :=
      (continue_of_hits H s hhit).1
    have hself : (act H (.continue ev) s).Active (pointer addr) →
        (act H (.continue ev) s).mem (pointer addr) = 0xcc := fun h =>
      absurd rfl ((active_hit H hhit).mp h).1
    rw [(rewrites_hit H hhit).allTrapped_after hs hself, hmem]
    constructor
    · intro h addr' data' hhit' i hpos hi hactive
      obtain ⟨rfl, rfl⟩ := hhit.unique hhit'
      rw [← restored_offset s.mem addr' data' hi]
      exact h i hpos hi hactive
    · intro h i hpos hi hactive
      rw [restored_offset s.mem addr data hi]
      exact h addr data hhit i hpos hi hactive
  · have htrapped : (act H (.continue ev) s).AllTrapped := by
      unfold Session.AllTrapped Session.Active
      rw [hmem, hbreakpoints]
      exact hs
    exact ⟨fun _ addr data h => absurd h (hno addr data), fun _ => htrapped⟩

/-- **A step keeps every trap exactly when it writes nothing else over one.** -/
theorem allTrapped_step (hs : s.AllTrapped) (a : Action) :
    (act H a s).AllTrapped ↔ KeepsTraps a s := by
  cases a with
  | set addr => exact allTrapped_set H hs addr
  | «continue» ev => exact allTrapped_continue H hs ev

end Steps

/-! ## Whole runs -/

section Runs

variable (H : ReliableHost) (mem : Memory 64) (regs : Regs) (as : List Action)

theorem start_not_active (p : BitVec 64) : ¬ (Session.start mem regs).Active p := by
  rintro ⟨addr, h, -⟩
  exact Finmap.notMem_empty h

theorem start_savedOriginal : (Session.start mem regs).SavedOriginal mem := by
  intro addr data h
  rw [Session.start, Finmap.lookup_empty] at h
  cases h

/-- **Collateral damage.** In a run from any memory, the bytes away from the breakpoints are the
original ones in every state exactly when every step spares them; and then, once no breakpoint is
left, the memory is the original one. -/
theorem undamaged_iff :
    (Always (act H) (Session.Undamaged mem) (Session.start mem regs) as ↔
      EachStep (act H) Spares (Session.start mem regs) as) ∧
    (EachStep (act H) Spares (Session.start mem regs) as →
      (run (act H) (Session.start mem regs) as).breakpoints = ∅ →
        (run (act H) (Session.start mem regs) as).mem = mem) := by
  have hsaved := start_savedOriginal mem regs
  have hiff : Always (act H) (Session.Undamaged mem) (Session.start mem regs) as ↔
      EachStep (act H) Spares (Session.start mem regs) as :=
    always_iff_eachStep hsaved (fun p _ => rfl)
      (fun a s hJ hP _ => savedOriginal_step H hP hJ a) (fun a s hJ hP => undamaged_step H hP hJ a)
  refine ⟨hiff, fun hsteps hempty => funext fun p => ?_⟩
  refine (hiff.mpr hsteps).last p ?_
  rintro ⟨addr, h, -⟩
  rw [hempty] at h
  exact Finmap.notMem_empty h

/-- **Lost breakpoints.** In a run from any memory, every breakpoint has its trap in every state
exactly when no step writes anything else over one. -/
theorem allTrapped_iff :
    Always (act H) Session.AllTrapped (Session.start mem regs) as ↔
      EachStep (act H) KeepsTraps (Session.start mem regs) as :=
  always_iff_eachStep (J := fun _ => True) trivial
    (fun p h => absurd h (start_not_active mem regs p)) (fun _ _ _ _ _ => trivial)
    (fun a _ _ hP => allTrapped_step H hP a)

end Runs

/-! ## Two runs that go wrong -/

/-- Every request succeeds, and what is unset is zero. -/
def zeroHost : ReliableHost :=
  ⟨⟨fun _ => true, fun _ => ⟨0, 0, 0, 0, 0, 0, 0, 0, 0⟩, fun _ => 0⟩, fun _ => rfl⟩

/-- A stop at `rip` by a trap. -/
def trapAt (rip : BitVec 64) : Event := ⟨.stopped SIGTRAP, ⟨0, 0, 0, 0, 0, 0, 0, 0, rip⟩⟩

/-- One breakpoint in a row of `NOP`s, set and hit: four bytes of the program stay zero. -/
theorem hit_breakpoint_leaves_damage :
    let mem : Memory 64 := fun _ => 0x90
    let regs := (trapAt 0x1000).regs
    let s := run (act zeroHost) (Session.start mem regs) [.set 0x1000, .continue (trapAt 0x1001)]
    s.breakpoints = ∅ ∧ s.mem 0x1004 = 0 ∧ mem 0x1004 = 0x90 := by
  decide

/-- A second breakpoint four bytes below the first: the first stays listed without its trap. -/
theorem second_breakpoint_loses_first :
    let mem : Memory 64 := fun _ => 0x90
    let regs := (trapAt 0x1000).regs
    let s := run (act zeroHost) (Session.start mem regs) [.set 0x1004, .set 0x1000]
    0x1004 ∈ s.breakpoints ∧ s.mem 0x1004 = 0 := by
  decide

end ProgramAnalysis.Debugger
