import Mathlib.Data.Nat.Digits.Defs
import ProgramAnalysis.Debugger.Address

/-!
# Lines that set a breakpoint

* `Denotes`, `WellFormed`: the lines `break <address>`, by what the address denotes;
* `BreakInput`: any line that starts with `break`;
* `lastWord_append`, `extractHex_denotes`, **`breakAddr_wellFormed`**: a well-formed line is read as
  what it denotes;
* `sets_iff`, **`breakProper_iff`**: every line sets some breakpoint, so only well-formed ones do what
  they should.
-/

namespace ProgramAnalysis.Debugger

open Lib

/-! ## Well-formed lines -/

/-- Hexadecimal digits and the number they denote, the first digit counting most. -/
def Denotes (digits : List Char) (n : ℕ) : Prop :=
  ∃ ds : List ℕ, digits.map hexValue = ds.map some ∧ Nat.ofDigits 16 ds.reverse = n

/-- The line is the word `break`, one or more spaces, and a hexadecimal numeral for `v`, with or without
`0x`. -/
def WellFormed (line : List Char) (v : BitVec 32) : Prop :=
  ∃ k pre digits, line = "break".toList ++ List.replicate (k + 1) ' ' ++ (pre ++ digits) ∧
    (pre = [] ∨ pre = "0x".toList) ∧ digits ≠ [] ∧ Denotes digits v.toNat

/-- A line that starts with `break`. No string is as long as `npos`. -/
structure BreakInput where
  line : List Char
  isBreak : BreakLine line
  short : line.length < npos

/-- The line calls `Set_breakpoint` with `v`, and is remembered. -/
def Sets (H : Host) (s : Session) (ev : Event) (line : List Char) (v : BitVec 32) : Prop :=
  (handleCommand H line ev s).2 = { (setBreakpoint H v s).2 with lastCommand := line }

/-- The line sets the breakpoint it denotes; if it denotes none, memory and breakpoints stay as they
are. -/
structure BreakProper (H : Host) (s : Session) (ev : Event) (line : List Char) : Prop where
  acts : ∀ v, Sets H s ev line v ↔ WellFormed line v
  rests : (∀ v, ¬ WellFormed line v) → (handleCommand H line ev s).2.mem = s.mem ∧
    (handleCommand H line ev s).2.breakpoints = s.breakpoints

/-! ## Reading -/

/-- **Digits are read as what they denote.** -/
theorem readHex_denotes {digits : List Char} {n : ℕ} (h : Denotes digits n) :
    (∀ c ∈ digits, (hexValue c).isSome) ∧ readHex 0 digits = n := by
  induction digits using List.reverseRecOn generalizing n with
  | nil =>
    obtain ⟨ds, hds, rfl⟩ := h
    obtain rfl := List.map_eq_nil_iff.mp hds.symm
    exact ⟨fun c hc => absurd hc List.not_mem_nil, rfl⟩
  | append_singleton cs c ih =>
    obtain ⟨ds, hds, rfl⟩ := h
    rw [List.map_append] at hds
    obtain ⟨front, last, rfl, hfront, hlast⟩ := List.map_eq_append_iff.mp hds.symm
    obtain ⟨d, rest, rfl, hd, hrest⟩ := List.map_eq_cons_iff.mp hlast
    obtain rfl := List.map_eq_nil_iff.mp hrest
    obtain ⟨hdigits, hread⟩ := ih ⟨front, hfront.symm, rfl⟩
    refine ⟨fun b hb => ?_, ?_⟩
    · rcases List.mem_append.mp hb with hb | hb
      · exact hdigits b hb
      · rw [List.mem_singleton.mp hb, ← hd]
        rfl
    · rw [readHex_append hdigits hd.symm, hread, List.reverse_append, List.reverse_singleton,
        List.singleton_append, Nat.ofDigits_cons]
      omega

/-- The last word of a line, after the last space. -/
theorem lastWord_append {bs word : List Char} (hspace : ' ' ∉ word)
    (hshort : (bs ++ ' ' :: word).length < npos) : lastWord (bs ++ ' ' :: word) = word := by
  have hlt : bs.length + 1 < 2 ^ 64 := by
    rw [List.length_append, List.length_cons, npos] at hshort
    omega
  rw [lastWord, findLastOf, lastIndexOf_append hspace, Option.getD_some, Nat.mod_eq_of_lt hlt]
  rw [List.append_cons]
  exact List.drop_left' (by rw [List.length_append, List.length_singleton])

/-- A digit is no space, no sign and no `x`. -/
theorem ne_of_digit {c b : Char} (hc : (hexValue c).isSome) (hb : hexValue b = none) : c ≠ b := by
  rintro rfl
  rw [hb] at hc
  cases hc

theorem not_isSpace_of_digit {c : Char} (hc : (hexValue c).isSome) : isSpace c = false := by
  refine Bool.eq_false_iff.mpr fun hspace => ?_
  have hmem : c ∈ [' ', '\t', '\n', '\x0b', '\x0c', '\r'] := of_decide_eq_true hspace
  simp only [List.mem_cons, List.not_mem_nil, or_false] at hmem
  rcases hmem with rfl | rfl | rfl | rfl | rfl | rfl <;> exact absurd hc (by decide)

theorem takeSign_of_digit {c : Char} (hc : (hexValue c).isSome) (cs : List Char) :
    takeSign (c :: cs) = (false, c :: cs) := by
  unfold takeSign
  split
  · next heq => exact absurd (List.cons.inj heq).1 (ne_of_digit hc (by decide))
  · next heq => exact absurd (List.cons.inj heq).1 (ne_of_digit hc (by decide))
  · rfl

theorem dropHexPrefix_of_digits {cs : List Char} (hcs : ∀ c ∈ cs, (hexValue c).isSome) :
    dropHexPrefix cs = cs := by
  have hx : ∀ b, hexValue b = none → b ∉ cs := fun b hb hmem => ne_of_digit (hcs b hmem) hb rfl
  unfold dropHexPrefix
  split
  · exact absurd (List.mem_cons_of_mem _ List.mem_cons_self) (hx 'x' (by decide))
  · exact absurd (List.mem_cons_of_mem _ List.mem_cons_self) (hx 'X' (by decide))
  · rfl

/-- **A numeral is read as what it denotes.** -/
theorem extractHex_denotes (u : BitVec 32) {pre digits : List Char} {v : BitVec 32}
    (hpre : pre = [] ∨ pre = "0x".toList) (hne : digits ≠ []) (h : Denotes digits v.toNat) :
    extractHex u (pre ++ digits) = v := by
  obtain ⟨hdigits, hread⟩ := readHex_denotes h
  have hfits : (if 2 ^ 32 ≤ readHex 0 digits then BitVec.allOnes 32
      else BitVec.ofNat 32 (readHex 0 digits)) = v := by
    rw [hread, if_neg (Nat.not_le.mpr v.isLt), BitVec.ofNat_toNat, BitVec.setWidth_eq]
  rcases hpre with rfl | rfl
  · obtain ⟨c, cs, rfl⟩ := List.exists_cons_of_ne_nil hne
    have hc := hdigits c List.mem_cons_self
    have hword : (c :: cs).dropWhile isSpace = c :: cs :=
      List.dropWhile_cons_of_neg (by rw [not_isSpace_of_digit hc]; exact Bool.false_ne_true)
    simp only [List.nil_append, extractHex, hword, takeSign_of_digit hc,
      dropHexPrefix_of_digits hdigits]
    exact hfits
  · exact hfits

/-- **A well-formed line is read as what it denotes.** -/
theorem breakAddr_wellFormed (H : Host) (s : Session) {line : List Char} {v : BitVec 32}
    (h : WellFormed line v) (hshort : line.length < npos) : breakAddr H s line = v := by
  obtain ⟨k, pre, digits, rfl, hpre, hne, hdenotes⟩ := h
  have hspace : ' ' ∉ pre ++ digits := by
    intro hmem
    rcases List.mem_append.mp hmem with hmem | hmem
    · rcases hpre with rfl | rfl
      · exact List.not_mem_nil hmem
      · exact absurd hmem (by decide)
    · exact ne_of_digit ((readHex_denotes hdenotes).1 ' ' hmem) (by decide) rfl
  have hline : "break".toList ++ List.replicate (k + 1) ' ' ++ (pre ++ digits) =
      ("break".toList ++ List.replicate k ' ') ++ ' ' :: (pre ++ digits) := by
    rw [List.replicate_succ', ← List.append_assoc "break".toList, ← List.append_cons]
  rw [hline] at hshort ⊢
  rw [breakAddr, lastWord_append hspace hshort]
  exact extractHex_denotes _ hpre hne hdenotes

/-! ## What a line sets -/

section Sets

variable (H : Host) (s : Session) (ev : Event) {line : List Char}

/-- Every line that starts with `break` sets one breakpoint. -/
theorem sets_iff (hline : BreakLine line) (v : BitVec 32) :
    Sets H s ev line v ↔ v = breakAddr H s line := by
  have happly : (handleCommand H line ev s).2 =
      { (setBreakpoint H (breakAddr H s line) s).2 with lastCommand := line } := by
    rw [handleCommand_break H ev s hline, handleBreak_apply]
  rw [Sets, happly]
  constructor
  · intro hsame
    have hrequests := congrArg Session.requests hsame
    dsimp only at hrequests
    rw [(setBreakpoint_host H s _).2.2.2, (setBreakpoint_host H s v).2.2.2] at hrequests
    have hpeek := (List.cons.inj (List.append_cancel_left hrequests)).1
    exact (pointer_injective (Request.peektext.inj hpeek)).symm
  · rintro rfl
    rfl

end Sets

/-- **The break command acts as it should exactly on well-formed lines**: every other line sets a
breakpoint too. -/
theorem breakProper_iff (H : Host) (s : Session) (ev : Event) (i : BreakInput) :
    BreakProper H s ev i.line ↔ ∃ v, WellFormed i.line v := by
  constructor
  · intro h
    exact ⟨_, (h.acts _).mp ((sets_iff H s ev i.isBreak _).mpr rfl)⟩
  · rintro ⟨v, hv⟩
    have hread : ∀ u, WellFormed i.line u → breakAddr H s i.line = u := fun u hu =>
      breakAddr_wellFormed H s hu i.short
    refine ⟨fun u => ?_, fun hnone => absurd hv (hnone v)⟩
    rw [sets_iff H s ev i.isBreak]
    constructor
    · rintro rfl
      rw [hread v hv]
      exact hv
    · exact fun hu => (hread u hu).symm

/-- The word `break` alone sets a breakpoint at `0xb`, and a number with a space after it one at whatever
the variable held. -/
theorem malformed_lines_set_breakpoints :
    let H : Host := { zeroHost.toHost with unsetAddr := fun _ => 0x7777 }
    let s := Session.start (fun _ => 0x90) (trapAt 0x1000).regs
    let after (line : List Char) := (handleCommand H line (trapAt 0) s).2
    ¬ BreakProper H s (trapAt 0) "break".toList ∧ (∀ v, ¬ WellFormed "break".toList v) ∧
      (after "break".toList).mem 0xb = 0xcc ∧ (after "break".toList).breakpoints.keys = {0xb} ∧
      (after "break 0x1000 ".toList).breakpoints.keys = {0x7777} := by
  intro H s after
  have hmalformed : ∀ v, ¬ WellFormed "break".toList v := by
    rintro v ⟨k, pre, digits, hline, -⟩
    have hlength := congrArg List.length hline
    simp only [List.length_append, List.length_replicate] at hlength
    omega
  have hmem : (after "break".toList).mem 0xb = 0xcc := by decide
  refine ⟨fun h => ?_, hmalformed, hmem, by decide, by decide⟩
  have hsame := congrFun (h.rests hmalformed).1 0xb
  rw [hmem] at hsame
  exact absurd hsame (by decide)

end ProgramAnalysis.Debugger
