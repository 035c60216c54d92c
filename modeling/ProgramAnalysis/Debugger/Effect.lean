import ProgramAnalysis.Debugger.Model

/-!
# What the commands do

The commands on any host, request by request, and on one whose requests all succeed.

* `Host.ok`, `Session.log`: one lemma for each request;
* `planted`, `restored`: the memory after the writes of `setBreakpoint` and `Continue`, byte by byte;
* **`setBreakpoint_host`**: the effect of setting a breakpoint;
* `HitsAt`, `continue_untouched`, **`continue_writes`**: the effect of `Continue`, where it writes and
  elsewhere;
* `ReliableHost`: `setBreakpoint_mem`, `setBreakpoint_breakpoints`, `Session.Hits`, `continue_of_hits`,
  `continue_of_not_hits`;
* `nexti_failed`, `nexti_ended`, **`nexti_stopped`**, `nexti_rest`: a step, by how it ends; it moves the
  child and nothing else.
-/

namespace ProgramAnalysis.Debugger

open Lib

/-! ## Requests -/

section Debug

variable {α β : Type} (s : Session)

@[simp] theorem debug_pure (a : α) : (pure a : Debug α) s = (a, s) := rfl

@[simp] theorem debug_bind (x : Debug α) (f : α → Debug β) :
    (x >>= f) s = f (x s).1 (x s).2 := rfl

@[simp] theorem debug_map (f : α → β) (x : Debug α) : (f <$> x) s = (f (x s).1, (x s).2) := rfl

@[simp] theorem debug_get : (get : Debug Session) s = (s, s) := rfl

@[simp] theorem debug_set (t : Session) : (set t : Debug Unit) s = ((), t) := rfl

@[simp] theorem debug_modify (f : Session → Session) : (modify f : Debug Unit) s = ((), f s) := rfl

@[simp] theorem print_apply (m : Message) : print m s = ((), { s with output := s.output ++ [m] }) :=
  rfl

end Debug

section Requests

variable (H : Host) (s : Session)

/-- Does request `k` of the step from `s` succeed. -/
def Host.ok (s : Session) (k : ℕ) : Bool := H.succeeds (s.requests.length + k)

/-- The session with one more request. -/
def Session.log (s : Session) (r : Request) : Session := { s with requests := s.requests ++ [r] }

/-- A request that follows others. -/
theorem ok_of_append {H : Host} {s t : Session} (rs : List Request)
    (h : t.requests = s.requests ++ rs) (k : ℕ) : H.ok t k = H.ok s (rs.length + k) := by
  rw [Host.ok, Host.ok, h, List.length_append, Nat.add_assoc]

theorem request_host (r : Request) : request H r s = (H.ok s 0, s.log r) := rfl

theorem peektext_host (addr : BitVec 64) : peektext H addr s =
    (if H.ok s 0 then peek s.mem addr 8 else -1, s.log (.peektext addr)) := by
  cases hok : H.ok s 0 <;> simp [peektext, request_host, hok, Session.log]

theorem poketext_host (addr data : BitVec 64) : poketext H addr data s =
    (H.ok s 0, { s.log (.poketext addr data) with
      mem := if H.ok s 0 then poke s.mem addr 8 data else s.mem }) := by
  cases hok : H.ok s 0 <;> simp [poketext, request_host, hok, Session.log]

theorem getregs_host : getregs H s =
    (if H.ok s 0 then s.regs else H.unsetRegs s.requests.length, s.log .getregs) := by
  cases hok : H.ok s 0 <;> simp [getregs, request_host, hok, Session.log]

theorem setregs_host (regs : Regs) : setregs H regs s =
    (H.ok s 0, { s.log (.setregs regs) with regs := if H.ok s 0 then regs else s.regs }) := by
  cases hok : H.ok s 0 <;> simp [setregs, request_host, hok, Session.log]

theorem resume_host (r : Request) (ev : Event) : resume H r ev s =
    (H.ok s 0, { s.log r with regs := if H.ok s 0 then ev.regs else s.regs }) := by
  cases hok : H.ok s 0 <;> simp [resume, request_host, hok, Session.log]

end Requests

/-! ## Words in memory -/

theorem pointer_toNat (a : BitVec 32) : (pointer a).toNat = a.toNat := by
  have hlt : a.toNat < 2 ^ 64 := by omega
  rw [pointer, BitVec.toNat_setWidth, Nat.mod_eq_of_lt hlt]

theorem pointer_injective {a b : BitVec 32} (h : pointer a = pointer b) : a = b := by
  have hnat := congrArg BitVec.toNat h
  rw [pointer_toNat, pointer_toNat] at hnat
  exact BitVec.eq_of_toNat_eq hnat

/-- A 32-bit value passed as a word has zeros above. -/
theorem byte_pointer (d : BitVec 32) {i : ℕ} (h : i < 8) : byte (pointer d) i = byte d i :=
  byte_setWidth (by omega)

theorem byte_pointer_of_le (d : BitVec 32) {i : ℕ} (h : 4 ≤ i) (hi : i < 8) :
    byte (pointer d) i = 0 := by
  rw [byte_pointer d hi]
  exact byte_of_le (by omega)

/-- The lowest byte of a word with a trap is `INT 3`. -/
theorem byte_withTrap_zero (d : BitVec 32) : byte (withTrap d) 0 = 0xcc#8 := by
  refine BitVec.eq_of_getLsbD_eq fun j hj => ?_
  have hmask : ∀ j, j < 8 → (0xffffff00#32).getLsbD j = false := by decide
  have htrap : ∀ j, j < 8 → (0xcc#32).getLsbD j = (0xcc#8).getLsbD j := by decide
  rw [getLsbD_byte, Nat.mul_zero, Nat.zero_add, withTrap, BitVec.getLsbD_or, BitVec.getLsbD_and,
    hmask j hj, htrap j hj, decide_eq_true hj, Bool.and_false, Bool.false_or, Bool.true_and]

/-- The other bytes are those of the word. -/
theorem byte_withTrap (d : BitVec 32) {i : ℕ} (h : 0 < i) : byte (withTrap d) i = byte d i := by
  by_cases hi : i < 4
  · refine byte_eq_of_getLsbD fun j hj => ?_
    have hmask : ∀ k, k < 32 → 8 ≤ k → (0xffffff00#32).getLsbD k = true := by decide
    have htrap : ∀ k, k < 32 → 8 ≤ k → (0xcc#32).getLsbD k = false := by decide
    have hlt : 8 * i + j < 32 := by omega
    have hge : 8 ≤ 8 * i + j := by omega
    rw [withTrap, BitVec.getLsbD_or, BitVec.getLsbD_and, hmask _ hlt hge, htrap _ hlt hge,
      Bool.and_true, Bool.or_false]
  · rw [byte_of_le (x := withTrap d) (by omega), byte_of_le (x := d) (by omega)]

/-- The four bytes `Set_breakpoint` keeps of the word at an address. -/
def dataAt (m : Memory 64) (addr : BitVec 32) : BitVec 32 := (peek m (pointer addr) 8).setWidth 32

theorem byte_dataAt (m : Memory 64) (addr : BitVec 32) {i : ℕ} (h : i < 4) :
    byte (dataAt m addr) i = m (offset (pointer addr) i) := by
  have hk : i < 8 := by omega
  rw [dataAt, byte_setWidth (by omega)]
  exact byte_peek m (pointer addr) hk

/-- The memory after `Set_breakpoint` wrote its word. -/
def planted (m : Memory 64) (addr : BitVec 32) : Memory 64 :=
  poke m (pointer addr) 8 (pointer (withTrap (dataAt m addr)))

/-- The memory after `Continue` wrote the saved data back. -/
def restored (m : Memory 64) (addr data : BitVec 32) : Memory 64 :=
  poke m (pointer addr) 8 (pointer data)

section Bytes

variable {m : Memory 64} {addr data : BitVec 32} {i : ℕ} {p : BitVec 64}

theorem poke_offset_pointer (m : Memory 64) (addr : BitVec 32) (x : BitVec 64) (h : i < 8) :
    poke m (pointer addr) 8 x (offset (pointer addr) i) = byte x i :=
  poke_offset (by omega) h

/-- The trap. -/
theorem planted_self (m : Memory 64) (addr : BitVec 32) : planted m addr (pointer addr) = 0xcc := by
  have h := poke_offset_pointer m addr (pointer (withTrap (dataAt m addr))) (Nat.succ_pos 7)
  rw [offset_zero, byte_pointer _ (by omega), byte_withTrap_zero] at h
  exact h

/-- The rest of the four bytes. -/
theorem planted_low (m : Memory 64) (addr : BitVec 32) (hpos : 0 < i) (h : i < 4) :
    planted m addr (offset (pointer addr) i) = m (offset (pointer addr) i) := by
  have hi : i < 8 := by omega
  rw [planted, poke_offset_pointer _ _ _ hi, byte_pointer _ hi, byte_withTrap _ hpos, byte_dataAt _ _ h]

/-- The upper half of the word. -/
theorem planted_high (m : Memory 64) (addr : BitVec 32) (h : 4 ≤ i) (hi : i < 8) :
    planted m addr (offset (pointer addr) i) = 0 := by
  rw [planted, poke_offset_pointer _ _ _ hi, byte_pointer_of_le _ h hi]

theorem planted_of_ne (h : ∀ i, i < 8 → p ≠ offset (pointer addr) i) : planted m addr p = m p :=
  poke_of_ne h

theorem restored_offset (m : Memory 64) (addr data : BitVec 32) (h : i < 8) :
    restored m addr data (offset (pointer addr) i) = byte data i := by
  rw [restored, poke_offset_pointer _ _ _ h, byte_pointer _ h]

theorem restored_self (m : Memory 64) (addr data : BitVec 32) :
    restored m addr data (pointer addr) = byte data 0 := by
  have h := restored_offset m addr data (Nat.succ_pos 7)
  rwa [offset_zero] at h

theorem restored_of_ne (h : ∀ i, i < 8 → p ≠ offset (pointer addr) i) :
    restored m addr data p = m p := poke_of_ne h

/-- The bytes after the first are at other addresses. -/
theorem offset_ne_self (hpos : 0 < i) (h : i < 8) : offset (pointer addr) i ≠ pointer addr := by
  intro he
  rw [← offset_zero (pointer addr), offset_offset, Nat.zero_add] at he
  have hzero : i = 0 := offset_injective (by omega) (by omega) he
  omega

end Bytes

/-! ## Setting a breakpoint -/

section Host

variable (H : Host) (s : Session)

/-- What `Set_breakpoint` takes for the data at the address. -/
def setData (addr : BitVec 32) (s : Session) : BitVec 32 :=
  if H.ok s 0 then dataAt s.mem addr else -1

/-- The word it writes. -/
def setWord (addr : BitVec 32) (s : Session) : BitVec 64 := pointer (withTrap (setData H addr s))

/-- **The effect of `Set_breakpoint`**; an entry that exists is kept, with the data it has. -/
theorem setBreakpoint_host (addr : BitVec 32) : (setBreakpoint H addr s).2.mem =
      (if H.ok s 1 then poke s.mem (pointer addr) 8 (setWord H addr s) else s.mem) ∧
    (setBreakpoint H addr s).2.regs = s.regs ∧
    (setBreakpoint H addr s).2.breakpoints =
      (if addr ∈ s.breakpoints then s.breakpoints
        else s.breakpoints.insert addr (setData H addr s)) ∧
    (setBreakpoint H addr s).2.requests = s.requests ++ [.peektext (pointer addr),
      .poketext (pointer addr) (setWord H addr s), .peektext (pointer addr)] := by
  cases hread : H.succeeds s.requests.length <;> by_cases hmem : addr ∈ s.breakpoints <;>
    simp [setBreakpoint, peektext_host, poketext_host, insertBreakpoint, Session.log, Host.ok,
      setWord, setData, dataAt, hread, hmem]

/-! ## Continuing -/

/-- The registers of the child when it has come to rest. -/
def restRegs (ev : Event) (s : Session) : Regs := if H.ok s 0 then ev.regs else s.regs

/-- What `Continue` has in `regs`. -/
def stopRegs (ev : Event) (s : Session) : Regs :=
  if H.ok s 1 then restRegs H ev s else H.unsetRegs (s.requests.length + 1)

/-- The stop is taken as a hit of the breakpoint at `addr` with the saved `data`. -/
structure HitsAt (s : Session) (ev : Event) (addr data : BitVec 32) : Prop where
  trap : ev.status = .stopped SIGTRAP
  found : ((stopRegs H ev s).rip - 1).setWidth 32 = addr
  saved : s.breakpoints.lookup addr = some data

/-- The registers with `rip` one back. -/
def Regs.back (regs : Regs) : Regs := { regs with rip := regs.rip - 1 }

/-- Without a breakpoint there, or with a write that does not get through, nothing changes. -/
theorem handleTrap_untouched {regs : Regs}
    (h : ∀ data, s.breakpoints.lookup ((regs.rip - 1).setWidth 32) = some data →
      H.ok s 0 = false) :
    (handleTrap H regs s).2.mem = s.mem ∧ (handleTrap H regs s).2.regs = s.regs ∧
    (handleTrap H regs s).2.breakpoints = s.breakpoints ∧
    ∃ rs, (handleTrap H regs s).2.requests = s.requests ++ rs ∧
      ∀ k p data, rs[k]? = some (.poketext p data) → H.ok s k = false := by
  rcases hlookup : s.breakpoints.lookup ((regs.rip - 1).setWidth 32) with _ | data
  · have hstate : ∃ output, (handleTrap H regs s).2 = { s with output := output } := by
      unfold handleTrap
      simp only [debug_bind, print_apply, debug_get, hlookup]
      exact ⟨_, rfl⟩
    obtain ⟨output, hstate⟩ := hstate
    rw [hstate]
    refine ⟨rfl, rfl, rfl, [], (List.append_nil _).symm, ?_⟩
    intro k p data hk
    cases hk
  · have hok := h data hlookup
    have hsucceeds : H.succeeds s.requests.length = false := hok
    have hstate : ∃ output, (handleTrap H regs s).2 =
        { s.log (.poketext (pointer ((regs.rip - 1).setWidth 32)) (pointer data)) with
          output := output } := by
      unfold handleTrap
      simp only [debug_bind, print_apply, debug_get, hlookup, poketext_host]
      simp only [Session.log, Host.ok, Nat.add_zero, hsucceeds, Bool.false_eq_true, if_false]
      exact ⟨_, rfl⟩
    obtain ⟨output, hstate⟩ := hstate
    rw [hstate]
    refine ⟨rfl, rfl, rfl, _, rfl, ?_⟩
    intro k p data' hk
    obtain ⟨hk, -⟩ := List.getElem?_eq_some_iff.mp hk
    have hzero : k = 0 := Nat.lt_one_iff.mp hk
    rw [hzero, hok]

theorem handleTrap_writes {regs : Regs} {data : BitVec 32}
    (h : s.breakpoints.lookup ((regs.rip - 1).setWidth 32) = some data) (hok : H.ok s 0 = true) :
    (handleTrap H regs s).2.mem = restored s.mem ((regs.rip - 1).setWidth 32) data ∧
    (handleTrap H regs s).2.regs = (if H.ok s 1 then regs.back else s.regs) ∧
    (handleTrap H regs s).2.breakpoints =
      (if H.ok s 1 then s.breakpoints.erase ((regs.rip - 1).setWidth 32) else s.breakpoints) ∧
    (handleTrap H regs s).2.requests = s.requests ++
      [.poketext (pointer ((regs.rip - 1).setWidth 32)) (pointer data), .setregs regs.back] := by
  rw [Host.ok, Nat.add_zero] at hok
  unfold handleTrap
  simp only [debug_bind, print_apply, debug_get, h, poketext_host]
  cases hset : H.succeeds (s.requests.length + 1) <;>
    simp [setregs_host, Session.log, Host.ok, hok, hset, restored, Regs.back]

/-- The session when `Continue` has looked at the registers. -/
def rested (ev : Event) (s : Session) : Session :=
  { s with regs := restRegs H ev s, requests := s.requests ++ [.cont, .getregs] }

theorem continue_stopped {ev : Event} {signal : ℕ} (h : ev.status = .stopped signal) :
    Continue H ev s =
      (if signal = SIGTRAP then handleTrap H (stopRegs H ev s)
        else if signal = SIGSEGV then print (.sigsegv (stopRegs H ev s).rip)
        else print (.unexpectedSignal signal)) (rested H ev s) := by
  have hregs : getregs H (resume H .cont ev s).2 = (stopRegs H ev s, rested H ev s) := by
    have hnext : H.ok (resume H .cont ev s).2 0 = H.ok s 1 :=
      ok_of_append [.cont] (by rw [resume_host]; rfl) 0
    rw [getregs_host, hnext, resume_host]
    simp [stopRegs, restRegs, rested, Session.log]
  simp only [Continue, debug_bind, h, hregs]

theorem continue_ended {ev : Event} (h : ∀ signal, ev.status ≠ .stopped signal) :
    Continue H ev s = print (.unexpectedWaitStatus ev.status) (resume H .cont ev s).2 := by
  rcases hev : ev.status with code | signal | signal
  · simp only [Continue, debug_bind, hev]
  · simp only [Continue, debug_bind, hev]
  · exact absurd hev (h signal)

/-- Requests of `Continue` outside `handleTrap` write nothing. -/
theorem no_pokes_of_reads {rs : List Request} (hrs : rs ⊆ [.cont, .getregs]) (k : ℕ)
    (p data : BitVec 64) (hk : rs[k]? = some (.poketext p data)) : H.ok s k = false := by
  have hmem := hrs (List.mem_of_getElem? hk)
  simp at hmem

/-- A stop by a trap that is no hit, or whose write does not get through. -/
theorem trap_untouched {ev : Event} (htrap : ev.status = .stopped SIGTRAP)
    (h : ∀ addr data, HitsAt H s ev addr data → H.ok s 2 = false) :
    (Continue H ev s).2.mem = s.mem ∧ (Continue H ev s).2.regs = restRegs H ev s ∧
    (Continue H ev s).2.breakpoints = s.breakpoints ∧
    ∃ rs, (Continue H ev s).2.requests = s.requests ++ rs ∧
      ∀ k p data, rs[k]? = some (.poketext p data) → H.ok s k = false := by
  have htail : ∀ k, H.ok (rested H ev s) k = H.ok s (2 + k) := ok_of_append [.cont, .getregs] rfl
  have hfails : ∀ data, (rested H ev s).breakpoints.lookup
      (((stopRegs H ev s).rip - 1).setWidth 32) = some data → H.ok (rested H ev s) 0 = false := by
    intro data hdata
    rw [htail]
    exact h _ data ⟨htrap, rfl, hdata⟩
  obtain ⟨hmem, hregs, hbreakpoints, rs, hrequests, hpokes⟩ :=
    handleTrap_untouched H (rested H ev s) hfails
  rw [continue_stopped H s htrap, if_pos rfl]
  refine ⟨hmem, hregs, hbreakpoints, [.cont, .getregs] ++ rs, ?_, fun k p data hk => ?_⟩
  · rw [hrequests, ← List.append_assoc]
    rfl
  · rcases k with _ | _ | k
    · cases hk
    · cases hk
    · have hok := hpokes k p data hk
      rwa [htail, Nat.add_comm] at hok

/-- **A stop that is no hit**, or whose write does not get through, only moves the child. -/
theorem continue_untouched {ev : Event}
    (h : ∀ addr data, HitsAt H s ev addr data → H.ok s 2 = false) :
    (Continue H ev s).2.mem = s.mem ∧ (Continue H ev s).2.regs = restRegs H ev s ∧
    (Continue H ev s).2.breakpoints = s.breakpoints ∧
    ∃ rs, (Continue H ev s).2.requests = s.requests ++ rs ∧
      ∀ k p data, rs[k]? = some (.poketext p data) → H.ok s k = false := by
  by_cases hstops : ∃ signal, ev.status = .stopped signal
  · obtain ⟨signal, hstatus⟩ := hstops
    by_cases htrap : signal = SIGTRAP
    · exact trap_untouched H s (htrap ▸ hstatus) h
    · rw [continue_stopped H s hstatus, if_neg htrap]
      have hstop : ∃ m, (if signal = SIGSEGV then print (.sigsegv (stopRegs H ev s).rip)
          else print (.unexpectedSignal signal)) (rested H ev s) = print m (rested H ev s) := by
        split_ifs
        · exact ⟨_, rfl⟩
        · exact ⟨_, rfl⟩
      obtain ⟨m, hm⟩ := hstop
      rw [hm]
      exact ⟨rfl, rfl, rfl, [.cont, .getregs], rfl, no_pokes_of_reads H s (List.Subset.refl _)⟩
  · rw [continue_ended H s (not_exists.mp hstops), resume_host]
    refine ⟨rfl, rfl, rfl, [.cont], rfl, no_pokes_of_reads H s ?_⟩
    exact List.cons_subset_cons _ (List.nil_subset _)

/-- **A hit whose write gets through** puts the saved data back; where the registers are set as well,
`rip` is moved back and the breakpoint erased. -/
theorem continue_writes {ev : Event} {addr data : BitVec 32} (h : HitsAt H s ev addr data)
    (hok : H.ok s 2 = true) :
    (Continue H ev s).2.mem = restored s.mem addr data ∧
    (Continue H ev s).2.regs =
      (if H.ok s 3 then (stopRegs H ev s).back else restRegs H ev s) ∧
    (Continue H ev s).2.breakpoints =
      (if H.ok s 3 then s.breakpoints.erase addr else s.breakpoints) ∧
    (Continue H ev s).2.requests = s.requests ++
      [.cont, .getregs, .poketext (pointer addr) (pointer data),
        .setregs (stopRegs H ev s).back] := by
  obtain ⟨htrap, rfl, hsaved⟩ := h
  have htail : ∀ k, H.ok (rested H ev s) k = H.ok s (2 + k) :=
    ok_of_append [.cont, .getregs] rfl
  obtain ⟨hmem, hregs, hbreakpoints, hrequests⟩ :=
    handleTrap_writes H (rested H ev s) hsaved ((htail 0).trans hok)
  rw [htail 1] at hregs hbreakpoints
  rw [continue_stopped H s htrap, if_pos rfl]
  refine ⟨hmem, hregs, hbreakpoints, hrequests.trans ?_⟩
  simp [rested]

/-! ## Stepping -/

theorem recordStep_rest (rip : BitVec 64) : (recordStep rip s).2.mem = s.mem ∧
    (recordStep rip s).2.regs = s.regs ∧ (recordStep rip s).2.breakpoints = s.breakpoints := by
  by_cases hseen : s.hasExecuted rip
  · simp [recordStep, hseen]
  · by_cases hfull : s.instructionCount < maxExecutedInstructions <;>
      simp [recordStep, hseen, hfull]

theorem nexti_failed {ev : Event} (hfails : H.ok s 0 = false) :
    nexti H ev s = print .errorSinglestep (s.log .singlestep) := by
  simp only [nexti, debug_bind, resume_host, hfails, Session.log, Bool.false_eq_true, if_false]

theorem nexti_ended {ev : Event} (hok : H.ok s 0 = true) (h : ∀ signal, ev.status ≠ .stopped signal) :
    nexti H ev s = print (.unexpectedWaitStatus ev.status)
      { s.log .singlestep with regs := ev.regs } := by
  rcases hev : ev.status with code | signal | signal
  · simp only [nexti, debug_bind, resume_host, hok, if_true, hev]
  · simp only [nexti, debug_bind, resume_host, hok, if_true, hev]
  · exact absurd hev (h signal)

/-- **A step that stops** records the stop. -/
theorem nexti_stopped {ev : Event} {signal : ℕ} (hok : H.ok s 0 = true)
    (hstatus : ev.status = .stopped signal) : nexti H ev s = recordStep (stopRegs H ev s).rip
      ({ s.log .singlestep with regs := ev.regs }.log .getregs) := by
  have hread : H.ok { s.log .singlestep with regs := ev.regs } 0 = H.ok s 1 :=
    ok_of_append [.singlestep] rfl 0
  have hlength : (s.log .singlestep).requests.length = s.requests.length + 1 := List.length_append
  simp only [nexti, debug_bind, resume_host, hok, if_true, hstatus, getregs_host, hread, hlength,
    stopRegs, restRegs]

/-- A step moves the child if the request succeeds, and leaves memory and breakpoints alone. -/
theorem nexti_host (ev : Event) : (nexti H ev s).2.mem = s.mem ∧
    (nexti H ev s).2.regs = restRegs H ev s ∧
    (nexti H ev s).2.breakpoints = s.breakpoints := by
  cases hok : H.ok s 0
  · rw [nexti_failed H s hok, restRegs, hok]
    exact ⟨rfl, rfl, rfl⟩
  rw [restRegs, hok]
  by_cases hstops : ∃ signal, ev.status = .stopped signal
  · obtain ⟨signal, hstatus⟩ := hstops
    rw [nexti_stopped H s hok hstatus]
    exact recordStep_rest ({ s.log .singlestep with regs := ev.regs }.log .getregs) _
  · rw [nexti_ended H s hok (not_exists.mp hstops)]
    exact ⟨rfl, rfl, rfl⟩

end Host

/-! ## A host that does not fail -/

/-- A host whose requests all succeed. -/
structure ReliableHost extends Host where
  succeeds_all : ∀ n, succeeds n = true

section Reliable

variable (H : ReliableHost) (s : Session)

theorem ReliableHost.ok_eq_true (k : ℕ) : H.toHost.ok s k = true := H.succeeds_all _

theorem setData_of_reliable (addr : BitVec 32) : setData H.toHost addr s = dataAt s.mem addr :=
  if_pos (H.ok_eq_true s 0)

theorem setBreakpoint_mem (addr : BitVec 32) :
    (setBreakpoint H.toHost addr s).2.mem = planted s.mem addr := by
  have h := (setBreakpoint_host H.toHost s addr).1
  rwa [if_pos (H.ok_eq_true s 1), setWord, setData_of_reliable] at h

/-- An entry that exists is kept, with the data it has. -/
theorem setBreakpoint_breakpoints (addr : BitVec 32) :
    (setBreakpoint H.toHost addr s).2.breakpoints =
      if addr ∈ s.breakpoints then s.breakpoints
      else s.breakpoints.insert addr (dataAt s.mem addr) := by
  have h := (setBreakpoint_host H.toHost s addr).2.2.1
  rwa [setData_of_reliable] at h

theorem setBreakpoint_requests (addr : BitVec 32) : (setBreakpoint H.toHost addr s).2.requests =
    s.requests ++ [.peektext (pointer addr),
      .poketext (pointer addr) (pointer (withTrap (dataAt s.mem addr))),
      .peektext (pointer addr)] := by
  have h := (setBreakpoint_host H.toHost s addr).2.2.2
  rwa [setWord, setData_of_reliable] at h

/-- Where `Continue` looks for a breakpoint after a stop. -/
def Event.addr (ev : Event) : BitVec 32 := (ev.regs.rip - 1).setWidth 32

/-- The stop is taken as a hit of the breakpoint at `addr` with the saved `data`. -/
structure Session.Hits (s : Session) (ev : Event) (addr data : BitVec 32) : Prop where
  trap : ev.status = .stopped SIGTRAP
  found : ev.addr = addr
  saved : s.breakpoints.lookup addr = some data

theorem restRegs_of_reliable (ev : Event) : restRegs H.toHost ev s = ev.regs :=
  if_pos (H.ok_eq_true s 0)

theorem stopRegs_of_reliable (ev : Event) : stopRegs H.toHost ev s = ev.regs := by
  rw [stopRegs, if_pos (H.ok_eq_true s 1), restRegs_of_reliable]

theorem hitsAt_iff_hits {ev : Event} {addr data : BitVec 32} :
    HitsAt H.toHost s ev addr data ↔ s.Hits ev addr data := by
  constructor
  · rintro ⟨htrap, hfound, hsaved⟩
    rw [stopRegs_of_reliable] at hfound
    exact ⟨htrap, hfound, hsaved⟩
  · rintro ⟨htrap, hfound, hsaved⟩
    refine ⟨htrap, ?_, hsaved⟩
    rw [stopRegs_of_reliable]
    exact hfound

/-- **A hit** writes the saved data back, moves `rip` back and erases the breakpoint. -/
theorem continue_of_hits {ev : Event} {addr data : BitVec 32} (h : s.Hits ev addr data) :
    (Continue H.toHost ev s).2.mem = restored s.mem addr data ∧
    (Continue H.toHost ev s).2.regs = ev.regs.back ∧
    (Continue H.toHost ev s).2.breakpoints = s.breakpoints.erase addr ∧
    (Continue H.toHost ev s).2.requests = s.requests ++
      [.cont, .getregs, .poketext (pointer addr) (pointer data), .setregs ev.regs.back] := by
  have hwrites := continue_writes H.toHost s ((hitsAt_iff_hits H s).mpr h) (H.ok_eq_true s 2)
  rwa [if_pos (H.ok_eq_true s 3), if_pos (H.ok_eq_true s 3), stopRegs_of_reliable] at hwrites

/-- **Any other stop** only moves the child. -/
theorem continue_of_not_hits {ev : Event} (h : ∀ addr data, ¬ s.Hits ev addr data) :
    (Continue H.toHost ev s).2.mem = s.mem ∧ (Continue H.toHost ev s).2.regs = ev.regs ∧
    (Continue H.toHost ev s).2.breakpoints = s.breakpoints ∧
    ∃ rs, (Continue H.toHost ev s).2.requests = s.requests ++ rs ∧
      ∀ addr data, .poketext addr data ∉ rs := by
  obtain ⟨hmem, hregs, hbreakpoints, rs, hrequests, hpokes⟩ :=
    continue_untouched H.toHost s fun addr data hhit =>
      absurd ((hitsAt_iff_hits H s).mp hhit) (h addr data)
  refine ⟨hmem, hregs.trans (restRegs_of_reliable H s ev), hbreakpoints, rs, hrequests, ?_⟩
  intro addr data hmem
  obtain ⟨k, hk⟩ := List.getElem?_of_mem hmem
  have hfails := hpokes k addr data hk
  rw [H.ok_eq_true] at hfails
  cases hfails

/-- **A step** moves the child, whatever the stop. -/
theorem nexti_rest (ev : Event) :
    (nexti H.toHost ev s).2.mem = s.mem ∧ (nexti H.toHost ev s).2.regs = ev.regs ∧
    (nexti H.toHost ev s).2.breakpoints = s.breakpoints := by
  obtain ⟨hmem, hregs, hbreakpoints⟩ := nexti_host H.toHost s ev
  exact ⟨hmem, hregs.trans (restRegs_of_reliable H s ev), hbreakpoints⟩

end Reliable

end ProgramAnalysis.Debugger
