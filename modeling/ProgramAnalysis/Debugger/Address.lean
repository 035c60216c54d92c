import ProgramAnalysis.Debugger.Command

/-!
# Addresses of breakpoints

What becomes of a 64-bit address on its way through `break` and `Continue`.

* `breakCommand`: the line `break 0x…` for an address;
* `readHex_toDigits`, **`breakAddr_breakCommand`**: what is read from it: the address, or the greatest
  one that fits;
* `pokes`, `madeBy`: the words written by a command;
* `PlantsAt`, `HitsExactly`, **`full_width_iff`**: the addresses for which a trap is planted, and taken
  back, where it should be, and nowhere else.
-/

namespace ProgramAnalysis.Debugger

open Lib

/-! ## Reading an address -/

/-- The line that sets a breakpoint at `a`. -/
def breakCommand (a : BitVec 64) : List Char := "break 0x".toList ++ Nat.toDigits 16 a.toNat

theorem hexValue_digitChar {d : ℕ} (h : d < 16) : hexValue (Nat.digitChar d) = some d := by
  have hall : ∀ d, d < 16 → hexValue (Nat.digitChar d) = some d := by decide
  exact hall d h

/-- One more digit at the end. -/
theorem readHex_append {cs : List Char} (hcs : ∀ c ∈ cs, (hexValue c).isSome) {c : Char} {d : ℕ}
    (hc : hexValue c = some d) (n : ℕ) : readHex n (cs ++ [c]) = 16 * readHex n cs + d := by
  induction cs generalizing n with
  | nil => simp only [List.nil_append, readHex, hc]
  | cons b cs ih =>
    obtain ⟨m, hm⟩ := Option.isSome_iff_exists.mp (hcs b List.mem_cons_self)
    have htail := ih (fun c hc => hcs c (List.mem_cons_of_mem _ hc)) (16 * n + m)
    simp only [List.cons_append, readHex, hm]
    exact htail

/-- **The digits of a number are read as the number.** -/
theorem readHex_toDigits (n : ℕ) : (∀ c ∈ Nat.toDigits 16 n, (hexValue c).isSome) ∧
    readHex 0 (Nat.toDigits 16 n) = n := by
  induction n using Nat.strongRecOn with
  | ind n ih =>
    by_cases hn : n < 16
    · have hvalue := hexValue_digitChar hn
      rw [Nat.toDigits_of_lt_base hn]
      refine ⟨fun c hc => ?_, ?_⟩
      · rw [List.mem_singleton.mp hc, hvalue]
        rfl
      · simp only [readHex, hvalue]
        omega
    · have hvalue := hexValue_digitChar (Nat.mod_lt n (Nat.succ_pos 15))
      obtain ⟨hdigits, hread⟩ := ih (n / 16) (by omega)
      rw [Nat.toDigits_of_base_le (by omega) (by omega)]
      refine ⟨fun c hc => ?_, ?_⟩
      · rcases List.mem_append.mp hc with hc | hc
        · exact hdigits c hc
        · rw [List.mem_singleton.mp hc, hvalue]
          rfl
      · rw [readHex_append hdigits hvalue, hread]
        omega

theorem lastIndexOf_of_notMem {c : Char} {cs : List Char} (h : c ∉ cs) : lastIndexOf c cs = none := by
  induction cs with
  | nil => rfl
  | cons b cs ih =>
    rw [List.mem_cons, not_or] at h
    simp only [lastIndexOf, ih h.2, if_neg (Ne.symm h.1)]

theorem lastIndexOf_append {c : Char} {cs : List Char} (h : c ∉ cs) (bs : List Char) :
    lastIndexOf c (bs ++ c :: cs) = some bs.length := by
  induction bs with
  | nil => simp only [List.nil_append, lastIndexOf, lastIndexOf_of_notMem h, if_true, List.length_nil]
  | cons b bs ih => simp only [List.cons_append, lastIndexOf, ih, List.length_cons]

/-- The word after `break` is all of the number, as it has no space. -/
theorem lastWord_breakCommand (a : BitVec 64) :
    lastWord (breakCommand a) = '0' :: 'x' :: Nat.toDigits 16 a.toNat := by
  have hspace : ' ' ∉ '0' :: 'x' :: Nat.toDigits 16 a.toNat := by
    intro h
    rcases List.mem_cons.mp h with h | h
    · exact absurd h (by decide)
    rcases List.mem_cons.mp h with h | h
    · exact absurd h (by decide)
    · exact absurd ((readHex_toDigits a.toNat).1 ' ' h) (by decide)
  have hbreak : breakCommand a =
      "break".toList ++ ' ' :: '0' :: 'x' :: Nat.toDigits 16 a.toNat := rfl
  unfold lastWord findLastOf
  rw [hbreak, lastIndexOf_append hspace]
  rfl

/-- **What `break 0x…` reads**: the address when it fits, else the greatest one. -/
theorem breakAddr_breakCommand (H : Host) (s : Session) (a : BitVec 64) :
    breakAddr H s (breakCommand a) =
      if 2 ^ 32 ≤ a.toNat then BitVec.allOnes 32 else BitVec.ofNat 32 a.toNat := by
  unfold breakAddr
  rw [lastWord_breakCommand]
  change (if 2 ^ 32 ≤ readHex 0 (Nat.toDigits 16 a.toNat) then BitVec.allOnes 32
    else BitVec.ofNat 32 (readHex 0 (Nat.toDigits 16 a.toNat))) = _
  rw [(readHex_toDigits a.toNat).2]

/-! ## Planting and taking back -/

/-- The requests a command makes. -/
def madeBy {α : Type} (x : Debug α) (s : Session) : List Request :=
  (x s).2.requests.drop s.requests.length

/-- The addresses of the words written. -/
def pokes (rs : List Request) : List (BitVec 64) := rs.filterMap fun r =>
  match r with
  | .poketext addr _ => some addr
  | _ => none

/-- The line `break 0x…` for `a` plants its trap at `a`, lists it, and writes no other word. -/
structure PlantsAt (H : ReliableHost) (a : BitVec 64) (ev : Event) (s : Session) : Prop where
  pokes : pokes (madeBy (handleCommand H.toHost (breakCommand a) ev) s) = [a]
  trap : (handleCommand H.toHost (breakCommand a) ev s).2.mem a = 0xcc
  listed : (handleCommand H.toHost (breakCommand a) ev s).2.Active a

/-- `t` is the session after a hit of the breakpoint at `addr`: the byte saved for it is back, no other
byte has changed, `rip` is at it, and it is gone. -/
structure TakesBack (s t : Session) (regs : Regs) (addr data : BitVec 32) : Prop where
  mem : t.mem = Function.update s.mem (pointer addr) (byte data 0)
  regs : t.regs = { regs with rip := pointer addr }
  breakpoints : t.breakpoints = s.breakpoints.erase addr

/-- `Continue` takes the stop as a hit exactly when `rip - 1` is the address of a breakpoint, and then
takes that breakpoint back; otherwise it writes nothing. -/
structure HitsExactly (H : ReliableHost) (ev : Event) (s : Session) : Prop where
  hit : ∀ addr data, s.breakpoints.lookup addr = some data → pointer addr = ev.regs.rip - 1 →
    TakesBack s (Continue H.toHost ev s).2 ev.regs addr data ∧
      pokes (madeBy (Continue H.toHost ev) s) = [pointer addr]
  miss : ¬ s.Active (ev.regs.rip - 1) → (Continue H.toHost ev s).2.mem = s.mem ∧
    (Continue H.toHost ev s).2.regs = ev.regs ∧
      (Continue H.toHost ev s).2.breakpoints = s.breakpoints ∧
        pokes (madeBy (Continue H.toHost ev) s) = []

/-- The memory has the saved data, and zeros behind it, all but the first byte. -/
def Session.RestInPlace (s : Session) (addr data : BitVec 32) : Prop :=
  ∀ i, 0 < i → i < 8 → s.mem (offset (pointer addr) i) = byte data i

section Addresses

variable (H : ReliableHost) {s : Session} {a : BitVec 64}

theorem madeBy_of_append {α : Type} {x : Debug α} {rs : List Request}
    (h : (x s).2.requests = s.requests ++ rs) : madeBy x s = rs := by
  rw [madeBy, h, List.drop_left]

theorem pointer_lt (addr : BitVec 32) : (pointer addr).toNat < 2 ^ 32 := by
  rw [pointer_toNat]
  exact addr.isLt

/-- An address is reached through 32 bits exactly when it fits. -/
theorem pointer_setWidth_iff : pointer (a.setWidth 32) = a ↔ a.toNat < 2 ^ 32 := by
  constructor
  · intro h
    rw [← h]
    exact pointer_lt _
  · intro h
    refine BitVec.eq_of_toNat_eq ?_
    rw [pointer_toNat, BitVec.toNat_setWidth, Nat.mod_eq_of_lt h]

theorem setWidth_pointer (addr : BitVec 32) : (pointer addr).setWidth 32 = addr :=
  pointer_injective (pointer_setWidth_iff.mpr (pointer_lt addr))

theorem breakAddr_iff : pointer (breakAddr H.toHost s (breakCommand a)) = a ↔ a.toNat < 2 ^ 32 := by
  rw [breakAddr_breakCommand]
  split_ifs with h
  · have hlt := pointer_lt (BitVec.allOnes 32)
    constructor
    · intro he
      rw [← he]
      exact hlt
    · omega
  · have hfits : BitVec.ofNat 32 a.toNat = a.setWidth 32 :=
      BitVec.eq_of_toNat_eq (by rw [BitVec.toNat_ofNat, BitVec.toNat_setWidth])
    rw [hfits, pointer_setWidth_iff]

/-- The line sets its breakpoint and is remembered. -/
theorem breakCommand_apply (ev : Event) : (handleCommand H.toHost (breakCommand a) ev s).2 =
    { (setBreakpoint H.toHost (breakAddr H.toHost s (breakCommand a)) s).2 with
      lastCommand := breakCommand a } := by
  have hline : BreakLine (breakCommand a) := ⟨" 0x".toList ++ Nat.toDigits 16 a.toNat, rfl⟩
  rw [handleCommand_break _ _ _ hline, handleBreak_apply]

theorem plantsAt_iff (ev : Event) : PlantsAt H a ev s ↔ a.toNat < 2 ^ 32 := by
  have hpokes : pokes (madeBy (handleCommand H.toHost (breakCommand a) ev) s) =
      [pointer (breakAddr H.toHost s (breakCommand a))] := by
    have hrequests := congrArg Session.requests (breakCommand_apply H ev (s := s) (a := a))
    rw [madeBy_of_append (hrequests.trans (setBreakpoint_requests H s _))]
    rfl
  constructor
  · intro h
    have hpoke := hpokes.symm.trans h.pokes
    exact (breakAddr_iff H).mp (List.cons.inj hpoke).1
  · intro h
    have haddr := (breakAddr_iff H (s := s)).mpr h
    have htrap := planted_self s.mem (breakAddr H.toHost s (breakCommand a))
    rw [haddr] at htrap
    refine ⟨by rw [hpokes, haddr], ?_, ?_⟩
    · rw [breakCommand_apply, setBreakpoint_mem]
      exact htrap
    · rw [breakCommand_apply]
      exact (active_of_insert (setBreakpoint_breakpoints H s _)).mpr (.inl haddr.symm)

/-- The only breakpoint that can be at `rip - 1`. -/
theorem active_iff : s.Active a ↔ a.setWidth 32 ∈ s.breakpoints ∧ a.toNat < 2 ^ 32 := by
  constructor
  · rintro ⟨addr, h, rfl⟩
    rw [setWidth_pointer]
    exact ⟨h, pointer_lt addr⟩
  · rintro ⟨h, hlt⟩
    exact ⟨a.setWidth 32, h, pointer_setWidth_iff.mpr hlt⟩

/-- A hit changes no other byte exactly when the rest of its word is in place. -/
theorem restored_eq_update_iff {addr data : BitVec 32} :
    restored s.mem addr data = Function.update s.mem (pointer addr) (byte data 0) ↔
      s.RestInPlace addr data := by
  constructor
  · intro h i hpos hi
    have hbyte := congrFun h (offset (pointer addr) i)
    rw [restored_offset _ _ _ hi, Function.update_of_ne (offset_ne_self hpos hi)] at hbyte
    exact hbyte.symm
  · intro h
    funext p
    rcases window_cases addr p with rfl | ⟨i, hpos, hi, rfl⟩ | hout
    · rw [restored_self, Function.update_self]
    · rw [restored_offset _ _ _ hi, Function.update_of_ne (offset_ne_self hpos hi), h i hpos hi]
    · rw [restored_of_ne hout, Function.update_of_ne (ne_pointer_of_outside hout)]

/-- A stop where no breakpoint is found. -/
theorem hitsExactly_of_notMem {ev : Event} (h : ev.addr ∉ s.breakpoints) : HitsExactly H ev s := by
  have hlookup := Finmap.lookup_eq_none.mpr h
  have hno : ∀ addr data, ¬ s.Hits ev addr data := by
    rintro addr data ⟨-, rfl, hsaved⟩
    rw [hlookup] at hsaved
    cases hsaved
  obtain ⟨hmem, hregs, hbreakpoints, rs, hrequests, hrs⟩ := continue_of_not_hits H s hno
  have hpokes : pokes (madeBy (Continue H.toHost ev) s) = [] := by
    rw [madeBy_of_append hrequests, pokes, List.filterMap_eq_nil_iff]
    intro r hr
    cases r with
    | poketext addr data => exact absurd hr (hrs addr data)
    | _ => rfl
  refine ⟨fun addr data hsaved haddr => ?_, fun _ => ⟨hmem, hregs, hbreakpoints, hpokes⟩⟩
  have hfound : ev.addr = addr := by rw [Event.addr, ← haddr, setWidth_pointer]
  rw [hfound, hsaved] at hlookup
  cases hlookup

/-- A stop where one is found. -/
theorem hitsExactly_iff_of_hits {ev : Event} {addr data : BitVec 32} (h : s.Hits ev addr data) :
    HitsExactly H ev s ↔ (ev.regs.rip - 1).toNat < 2 ^ 32 ∧ s.RestInPlace addr data := by
  obtain ⟨hmem, hregs, hbreakpoints, hrequests⟩ := continue_of_hits H s h
  have hlt : pointer addr = ev.regs.rip - 1 ↔ (ev.regs.rip - 1).toNat < 2 ^ 32 := by
    rw [← h.found]
    exact pointer_setWidth_iff
  constructor
  · intro hexact
    have hnarrow : (ev.regs.rip - 1).toNat < 2 ^ 32 := by
      by_contra hwide
      -- a wide address is no breakpoint's, yet `rip` has been moved
      have hmiss := (hexact.miss fun hactive => hwide (active_iff.mp hactive).2).2.1
      have hrip : ev.regs.rip - 1 = ev.regs.rip := congrArg Regs.rip (hregs.symm.trans hmiss)
      bv_omega
    have hback := (hexact.hit addr data h.saved (hlt.mpr hnarrow)).1.mem
    exact ⟨hnarrow, restored_eq_update_iff.mp (hmem.symm.trans hback)⟩
  · rintro ⟨hnarrow, hrest⟩
    have haddr := hlt.mpr hnarrow
    have hactive : s.Active (ev.regs.rip - 1) := ⟨addr, Finmap.mem_iff.mpr ⟨data, h.saved⟩, haddr⟩
    refine ⟨fun addr' data' hsaved haddr' => ?_, fun hno => absurd hactive hno⟩
    cases pointer_injective (haddr'.trans haddr.symm)
    cases hsaved.symm.trans h.saved
    refine ⟨⟨hmem.trans (restored_eq_update_iff.mpr hrest), ?_, hbreakpoints⟩, ?_⟩
    · rw [hregs, Regs.back, haddr]
    · rw [madeBy_of_append hrequests]
      rfl

/-- **Full width.** `break 0x…` plants at its address exactly when that fits in 32 bits. And a stop by a
trap is taken for what it is, with its byte and no other restored, exactly when no breakpoint has the low
32 bits of `rip - 1`, or `rip - 1` fits and the rest of the word to write is in memory already. -/
theorem full_width_iff (H : ReliableHost) (s : Session) :
    (∀ a ev, PlantsAt H a ev s ↔ a.toNat < 2 ^ 32) ∧
    (∀ regs, HitsExactly H ⟨.stopped SIGTRAP, regs⟩ s ↔
      ∀ data, s.breakpoints.lookup ((regs.rip - 1).setWidth 32) = some data →
        (regs.rip - 1).toNat < 2 ^ 32 ∧ s.RestInPlace ((regs.rip - 1).setWidth 32) data) := by
  refine ⟨fun _ ev => plantsAt_iff H ev, fun regs => ?_⟩
  rcases hlookup : s.breakpoints.lookup ((regs.rip - 1).setWidth 32) with - | data
  · refine iff_of_true (hitsExactly_of_notMem H (Finmap.lookup_eq_none.mp hlookup)) fun data h => ?_
    cases h
  · have hhits : s.Hits ⟨.stopped SIGTRAP, regs⟩ ((regs.rip - 1).setWidth 32) data := ⟨rfl, rfl, hlookup⟩
    have hiff := hitsExactly_iff_of_hits H hhits
    constructor
    · intro hexact data' h
      cases h
      exact hiff.mp hexact
    · intro h
      exact hiff.mpr (h data rfl)

end Addresses

/-- An address of a position-independent executable; a stop 4 GiB above a breakpoint; and a hit two bytes
below another breakpoint, whose trap it wipes. -/
theorem wide_addresses_alias :
    let mem : Memory 64 := fun _ => 0x90
    let regs := (trapAt 0x401000).regs
    let s := run (act zeroHost) (Session.start mem regs) [.set 0x401000]
    let s' := run (act zeroHost) (Session.start mem regs) [.set 0x401000, .set 0x401002]
    pokes (madeBy (handleCommand zeroHost.toHost (breakCommand 0x555555554000) (trapAt 0)) s) =
        [0xffffffff] ∧
      ¬ (0x100401001 - 1 : BitVec 64).toNat < 2 ^ 32 ∧
      pokes (madeBy (Continue zeroHost.toHost (trapAt 0x100401001)) s) = [0x401000] ∧
      s'.mem 0x401002 = 0xcc ∧ (Continue zeroHost.toHost (trapAt 0x401001) s').2.mem 0x401002 = 0x90 := by
  decide

end ProgramAnalysis.Debugger
