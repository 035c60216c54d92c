import ProgramAnalysis.Lib.Cut

/-!
# Structured programs

Programs with loops over any actions and tests, which may throw.

* `Com`, `Primitives`: programs, and what their actions and tests do;
* `Finishes`: the natural semantics, with `Finishes.unique`, `Finishes.loop_ind`, `Finishes.loop_end`,
  `Finishes.of_rounds`;
* `Com.run`: the interpreter with a bound on the rounds of every loop;
* **`Finishes.exists_run`**, **`Com.RunsTo.finishes`**: a program finishes exactly as the interpreter does
  with a bound that is large enough;
* `not_finishes_iff_cut`: it does not finish exactly when every bound is too small.
-/

namespace Lib

/-- Programs over actions `α` and tests `β`. -/
inductive Com (α β : Type)
  | skip
  | act (a : α)
  | seq (c d : Com α β)
  | ite (b : β) (c d : Com α β)
  | loop (b : β) (c : Com α β)

/-- What actions and tests do. -/
structure Primitives (α β ε σ : Type) where
  act : α → σ → Except ε σ
  test : β → σ → Except ε Bool

variable {α β ε σ : Type}

/-! ## Natural semantics -/

/-- `Finishes M c s r t`: from `s`, the program returns or throws, as `r` says, and leaves `t`. -/
inductive Finishes (M : Primitives α β ε σ) : Com α β → σ → Except ε Unit → σ → Prop
  | skip (s : σ) : Finishes M .skip s (.ok ()) s
  | act {a s t} : M.act a s = .ok t → Finishes M (.act a) s (.ok ()) t
  | actThrows {a s e} : M.act a s = .error e → Finishes M (.act a) s (.error e) s
  | seq {c d s t r u} : Finishes M c s (.ok ()) t → Finishes M d t r u → Finishes M (.seq c d) s r u
  | seqThrows {c d s e t} : Finishes M c s (.error e) t → Finishes M (.seq c d) s (.error e) t
  | ite {b c d s v r t} : M.test b s = .ok v → Finishes M (if v then c else d) s r t →
    Finishes M (.ite b c d) s r t
  | iteThrows {b c d s e} : M.test b s = .error e → Finishes M (.ite b c d) s (.error e) s
  | loop {b c s r t} : M.test b s = .ok true → Finishes M (.seq c (.loop b c)) s r t →
    Finishes M (.loop b c) s r t
  | loopDone {b c s} : M.test b s = .ok false → Finishes M (.loop b c) s (.ok ()) s
  | loopThrows {b c s e} : M.test b s = .error e → Finishes M (.loop b c) s (.error e) s

section Semantics

variable {M : Primitives α β ε σ} {c d : Com α β} {s t u : σ} {r : Except ε Unit}

/-- **A program finishes in one way only.** -/
theorem Finishes.unique {r' : Except ε Unit} (h : Finishes M c s r t) (h' : Finishes M c s r' u) :
    r' = r ∧ u = t := by
  induction h generalizing r' u with
  | skip s =>
    cases h'
    exact ⟨rfl, rfl⟩
  | act hact =>
    cases h' with
    | act hact' =>
      cases hact.symm.trans hact'
      exact ⟨rfl, rfl⟩
    | actThrows hact' => cases hact.symm.trans hact'
  | actThrows hact =>
    cases h' with
    | act hact' => cases hact.symm.trans hact'
    | actThrows hact' =>
      cases hact.symm.trans hact'
      exact ⟨rfl, rfl⟩
  | seq _ _ ihc ihd =>
    cases h' with
    | seq hc hd =>
      obtain ⟨-, rfl⟩ := ihc hc
      exact ihd hd
    | seqThrows hc => cases (ihc hc).1
  | seqThrows _ ihc =>
    cases h' with
    | seq hc hd => cases (ihc hc).1
    | seqThrows hc => exact ihc hc
  | ite htest _ ih =>
    cases h' with
    | ite htest' hbranch =>
      cases htest.symm.trans htest'
      exact ih hbranch
    | iteThrows htest' => cases htest.symm.trans htest'
  | iteThrows htest =>
    cases h' with
    | ite htest' hbranch => cases htest.symm.trans htest'
    | iteThrows htest' =>
      cases htest.symm.trans htest'
      exact ⟨rfl, rfl⟩
  | loop htest _ ih =>
    cases h' with
    | loop htest' hround => exact ih hround
    | loopDone htest' => cases htest.symm.trans htest'
    | loopThrows htest' => cases htest.symm.trans htest'
  | loopDone htest =>
    cases h' with
    | loop htest' hround => cases htest.symm.trans htest'
    | loopDone htest' => exact ⟨rfl, rfl⟩
    | loopThrows htest' => cases htest.symm.trans htest'
  | loopThrows htest =>
    cases h' with
    | loop htest' hround => cases htest.symm.trans htest'
    | loopDone htest' => cases htest.symm.trans htest'
    | loopThrows htest' =>
      cases htest.symm.trans htest'
      exact ⟨rfl, rfl⟩

/-- Induction on the rounds of a loop. -/
@[elab_as_elim]
theorem Finishes.loop_ind {b : β} {P : ∀ s t r, Finishes M (.loop b c) s r t → Prop}
    (done : ∀ s (htest : M.test b s = .ok false), P s s (.ok ()) (.loopDone htest))
    (throws : ∀ s e (htest : M.test b s = .error e), P s s (.error e) (.loopThrows htest))
    (stops : ∀ s e t (htest : M.test b s = .ok true) (hc : Finishes M c s (.error e) t),
      P s t (.error e) (.loop htest (.seqThrows hc)))
    (round : ∀ s t r u (htest : M.test b s = .ok true) (hc : Finishes M c s (.ok ()) t)
      (hrest : Finishes M (.loop b c) t r u), P t u r hrest → P s u r (.loop htest (.seq hc hrest)))
    (h : Finishes M (.loop b c) s r t) : P s t r h := by
  -- the loop takes its rounds as sequences that end with itself
  suffices hall : ∀ {d s r t}, Finishes M d s r t → (d = .loop b c → ∀ h, P s t r h) ∧
      (d = .seq c (.loop b c) → ∀ (htest : M.test b s = .ok true) (h : Finishes M _ s r t),
        P s t r (.loop htest h)) from (hall h).1 rfl h
  intro d s r t h
  induction h with
  | skip | act | actThrows | ite | iteThrows => exact ⟨nofun, nofun⟩
  | seq hc hd _ ihd =>
    refine ⟨nofun, fun heq htest _ => ?_⟩
    cases heq
    exact round _ _ _ _ htest hc hd (ihd.1 rfl hd)
  | seqThrows hc _ =>
    refine ⟨nofun, fun heq htest _ => ?_⟩
    cases heq
    exact stops _ _ _ htest hc
  | loop htest hround ih =>
    refine ⟨fun heq _ => ?_, nofun⟩
    cases heq
    exact ih.2 rfl htest hround
  | loopDone htest =>
    refine ⟨fun heq _ => ?_, nofun⟩
    cases heq
    exact done _ htest
  | loopThrows htest =>
    refine ⟨fun heq _ => ?_, nofun⟩
    cases heq
    exact throws _ _ htest

/-- A loop that returns leaves a state where the test fails: the state it started on, if it failed
there. -/
theorem Finishes.loop_end {b : β} (h : Finishes M (.loop b c) s r t) (hr : r = .ok ()) :
    M.test b t = .ok false ∧ (M.test b s = .ok false → t = s) := by
  induction h using Finishes.loop_ind with
  | done s htest => exact ⟨htest, fun _ => rfl⟩
  | throws s e htest => cases hr
  | stops s e t htest hc => cases hr
  | round s t r u htest hc hrest ih =>
    refine ⟨(ih hr).1, fun hfalse => ?_⟩
    cases htest.symm.trans hfalse

/-- A loop that makes `k` rounds goes on as it does after them. -/
theorem Finishes.of_rounds {b : β} {states : ℕ → σ} {k : ℕ}
    (hrounds : ∀ i < k, M.test b (states i) = .ok true ∧
      Finishes M c (states i) (.ok ()) (states (i + 1)))
    (h : Finishes M (.loop b c) (states k) r t) : Finishes M (.loop b c) (states 0) r t := by
  induction k with
  | zero => exact h
  | succ k ih =>
    obtain ⟨htest, hround⟩ := hrounds k (Nat.lt_succ_self k)
    exact ih (fun i hi => hrounds i (Nat.lt_succ_of_lt hi)) (.loop htest (.seq hround h))

end Semantics

/-! ## The interpreter -/

section Run

variable (M : Primitives α β ε σ) (cut : ε)

/-- The interpreter; every loop is cut off before its round `n + 1`. -/
def Com.run (n : ℕ) : Com α β → Call ε σ Unit
  | .skip => pure ()
  | .act a => Call.update (M.act a)
  | .seq c d => do
    c.run n
    d.run n
  | .ite b c d => do
    if ← Call.read (M.test b) then c.run n else d.run n
  | .loop b c => Call.loop cut (Call.read (M.test b)) (c.run n) n

/-- No action and no test throws the error of the bound. -/
structure Primitives.NeverThrows : Prop where
  act : ∀ {a s e}, M.act a s = .error e → e ≠ cut
  test : ∀ {b s e}, M.test b s = .error e → e ≠ cut

variable {M cut} {c d : Com α β} {b : β} {s t : σ} {r : Except ε Unit} {n m : ℕ}

theorem Com.run_extends (hnm : n ≤ m) (c : Com α β) :
    Call.Extends cut (c.run M cut n) (c.run M cut m) := by
  induction c with
  | skip => exact .refl _
  | act a => exact .refl _
  | seq c d ihc ihd => exact .bind ihc fun _ => ihd
  | ite b c d ihc ihd => exact .bind (.refl _) fun _ => .ite ihc ihd
  | loop b c ih => exact .loop ih hnm

/-- The run with bound `n` finishes with `r` in `t`, and is not cut off. -/
structure Com.RunsTo (M : Primitives α β ε σ) (cut : ε) (n : ℕ) (c : Com α β) (s : σ)
    (r : Except ε Unit) (t : σ) : Prop where
  result : (c.run M cut n s).result = r
  final : (c.run M cut n s).final = t
  uncut : r ≠ .error cut

theorem Com.RunsTo.mono (h : c.RunsTo M cut n s r t) (hnm : n ≤ m) : c.RunsTo M cut m s r t := by
  have hsame := Com.run_extends hnm c s (h.result ▸ h.uncut)
  exact ⟨hsame ▸ h.result, hsame ▸ h.final, h.uncut⟩

/-- Two runs, and a bound for both of them. -/
theorem Com.RunsTo.common {u v : σ} {r' : Except ε Unit} (h : ∃ n, c.RunsTo M cut n s r t)
    (h' : ∃ n, d.RunsTo M cut n u r' v) :
    ∃ n, c.RunsTo M cut n s r t ∧ d.RunsTo M cut n u r' v := by
  obtain ⟨n, hn⟩ := h
  obtain ⟨m, hm⟩ := h'
  exact ⟨max n m, hn.mono (le_max_left n m), hm.mono (le_max_right n m)⟩

/-- One round and the rest of the loop, with one more round allowed. -/
theorem Com.RunsTo.round (htest : M.test b s = .ok true)
    (h : (Com.seq c (.loop b c)).RunsTo M cut n s r t) : (Com.loop b c).RunsTo M cut (n + 1) s r t := by
  have hbody : Call.Extends cut (c.run M cut n) (c.run M cut (n + 1)) :=
    Com.run_extends (Nat.le_succ n) c
  have hloop : Call.Extends cut ((Com.loop b c).run M cut n)
      (Call.loop cut (Call.read (M.test b)) (c.run M cut (n + 1)) n) := .loop hbody (Nat.le_refl n)
  have hround := Call.Extends.bind hbody (fun _ => hloop) s (h.result ▸ h.uncut)
  have hunroll : (Com.loop b c).run M cut (n + 1) s = (do
      c.run M cut (n + 1)
      Call.loop cut (Call.read (M.test b)) (c.run M cut (n + 1)) n) s := by
    show Call.loop cut (Call.read (M.test b)) (c.run M cut (n + 1)) (n + 1) s = _
    rw [Call.loop, Call.bind_of_ok (by rw [Call.read_apply, htest])]
    rfl
  have hsame := hunroll.trans hround
  exact ⟨hsame ▸ h.result, hsame ▸ h.final, h.uncut⟩

theorem Com.RunsTo.skip (s : σ) : (Com.skip : Com α β).RunsTo M cut n s (.ok ()) s :=
  ⟨rfl, rfl, nofun⟩

theorem Com.RunsTo.act {a : α} (h : M.act a s = .ok t) :
    (Com.act a : Com α β).RunsTo M cut n s (.ok ()) t := by
  have hrun := Call.update_of_ok h
  exact ⟨congrArg Outcome.result hrun, congrArg Outcome.final hrun, nofun⟩

theorem Com.RunsTo.actThrows {a : α} {e : ε} (hM : M.NeverThrows cut) (h : M.act a s = .error e) :
    (Com.act a : Com α β).RunsTo M cut n s (.error e) s := by
  have hrun := Call.update_of_error h
  exact ⟨congrArg Outcome.result hrun, congrArg Outcome.final hrun,
    fun hcut => hM.act h (Except.error.inj hcut)⟩

theorem Com.RunsTo.seq {u : σ} (hc : c.RunsTo M cut n s (.ok ()) t) (hd : d.RunsTo M cut n t r u) :
    (Com.seq c d).RunsTo M cut n s r u := by
  refine ⟨?_, ?_, hd.uncut⟩
  · rw [Com.run, Call.bind_of_ok hc.result, hc.final]
    exact hd.result
  · rw [Com.run, Call.bind_of_ok hc.result, hc.final]
    exact hd.final

theorem Com.RunsTo.seqThrows {e : ε} (hc : c.RunsTo M cut n s (.error e) t) :
    (Com.seq c d).RunsTo M cut n s (.error e) t := by
  refine ⟨?_, ?_, hc.uncut⟩
  · rw [Com.run, Call.bind_of_error hc.result]
  · rw [Com.run, Call.bind_of_error hc.result]
    exact hc.final

theorem Com.RunsTo.ite {v : Bool} (htest : M.test b s = .ok v)
    (h : (if v then c else d).RunsTo M cut n s r t) : (Com.ite b c d).RunsTo M cut n s r t := by
  have hbranch : (Com.ite b c d).run M cut n s = (if v then c else d).run M cut n s := by
    rw [Com.run, Call.bind_of_ok (by rw [Call.read_apply, htest])]
    cases v
    · rfl
    · rfl
  exact ⟨hbranch ▸ h.result, hbranch ▸ h.final, h.uncut⟩

theorem Com.RunsTo.iteThrows {e : ε} (hM : M.NeverThrows cut) (htest : M.test b s = .error e) :
    (Com.ite b c d).RunsTo M cut n s (.error e) s := by
  refine ⟨?_, ?_, fun hcut => hM.test htest (Except.error.inj hcut)⟩
  · rw [Com.run, Call.bind_of_error (by rw [Call.read_apply, htest])]
  · rw [Com.run, Call.bind_of_error (by rw [Call.read_apply, htest])]
    rfl

/-- **What finishes, the interpreter runs** with some bound. -/
theorem Finishes.exists_run (hM : M.NeverThrows cut) (h : Finishes M c s r t) :
    ∃ n, c.RunsTo M cut n s r t := by
  induction h with
  | skip s => exact ⟨0, .skip s⟩
  | act hact => exact ⟨0, .act hact⟩
  | actThrows hact => exact ⟨0, .actThrows hM hact⟩
  | seq _ _ ihc ihd =>
    obtain ⟨n, hc, hd⟩ := Com.RunsTo.common ihc ihd
    exact ⟨n, hc.seq hd⟩
  | seqThrows _ ihc =>
    obtain ⟨n, hc⟩ := ihc
    exact ⟨n, hc.seqThrows⟩
  | ite htest _ ih =>
    obtain ⟨n, hn⟩ := ih
    exact ⟨n, hn.ite htest⟩
  | iteThrows htest => exact ⟨0, .iteThrows hM htest⟩
  | loop htest _ ih =>
    obtain ⟨n, hn⟩ := ih
    exact ⟨n + 1, hn.round htest⟩
  | @loopDone b c s htest =>
    have hend : (Call.loop cut (Call.read (M.test b)) (c.run M cut 0) 0 s).result = .ok () ∧ _ :=
      Call.loop_of_cond_false (by rw [Call.read_apply, htest]) 0
    exact ⟨0, hend.1, hend.2, nofun⟩
  | loopThrows htest =>
    refine ⟨0, ?_, ?_, fun hcut => hM.test htest (Except.error.inj hcut)⟩
    · exact Call.loop_of_cond_error (by rw [Call.read_apply, htest]) 0
    · rw [Com.run, Call.loop, Call.bind_of_error (by rw [Call.read_apply, htest])]
      rfl

/-- A loop whose rounds finish, and that is not cut off, finishes. -/
theorem Finishes.of_loop {body : Call ε σ Unit} {k : ℕ}
    (hbody : ∀ s r, (body s).result = r → r ≠ .error cut → Finishes M c s r (body s).final)
    (h : (Call.loop cut (Call.read (M.test b)) body k s).result = r) (hr : r ≠ .error cut) :
    Finishes M (.loop b c) s r (Call.loop cut (Call.read (M.test b)) body k s).final := by
  induction k generalizing s with
  | zero =>
    rcases htest : M.test b s with e | v
    · rw [Call.loop, Call.bind_of_error (by rw [Call.read_apply, htest])] at h ⊢
      exact h ▸ .loopThrows htest
    · rw [Call.loop, Call.bind_of_ok (by rw [Call.read_apply, htest])] at h ⊢
      cases v
      · exact h ▸ .loopDone htest
      · exact absurd h.symm hr
  | succ k ih =>
    rcases htest : M.test b s with e | v
    · rw [Call.loop, Call.bind_of_error (by rw [Call.read_apply, htest])] at h ⊢
      exact h ▸ .loopThrows htest
    · rw [Call.loop, Call.bind_of_ok (by rw [Call.read_apply, htest])] at h ⊢
      cases v
      · exact h ▸ .loopDone htest
      · change ((body >>= fun _ => Call.loop cut (Call.read (M.test b)) body k) s).result = r at h
        change Finishes M _ s r ((body >>= fun _ => Call.loop cut (Call.read (M.test b)) body k) s).final
        rcases hround : (body s).result with e | u
        · rw [Call.bind_of_error hround] at h ⊢
          subst h
          exact .loop htest (.seqThrows (hbody s _ hround hr))
        · rw [Call.bind_of_ok hround] at h ⊢
          exact .loop htest (.seq (hbody s _ hround (by rintro ⟨⟩)) (ih h))

/-- **What the interpreter runs without being cut off, finishes.** -/
theorem Com.RunsTo.finishes (h : c.RunsTo M cut n s r t) : Finishes M c s r t := by
  obtain ⟨hresult, rfl, hr⟩ := h
  induction c generalizing s r with
  | skip =>
    cases hresult
    exact .skip s
  | act a =>
    rcases hact : M.act a s with e | u
    · rw [Com.run, Call.update_of_error hact] at hresult ⊢
      exact hresult ▸ .actThrows hact
    · rw [Com.run, Call.update_of_ok hact] at hresult ⊢
      exact hresult ▸ .act hact
  | seq c d ihc ihd =>
    rcases hc : (c.run M cut n s).result with e | u
    · rw [Com.run, Call.bind_of_error hc] at hresult ⊢
      subst hresult
      exact .seqThrows (ihc hc hr)
    · rw [Com.run, Call.bind_of_ok hc] at hresult ⊢
      exact .seq (ihc hc nofun) (ihd hresult hr)
  | ite b c d ihc ihd =>
    rcases htest : M.test b s with e | v
    · rw [Com.run, Call.bind_of_error (by rw [Call.read_apply, htest])] at hresult ⊢
      exact hresult ▸ .iteThrows htest
    · rw [Com.run, Call.bind_of_ok (by rw [Call.read_apply, htest])] at hresult ⊢
      cases v
      · exact .ite htest (ihd hresult hr)
      · exact .ite htest (ihc hresult hr)
  | loop b c ih => exact Finishes.of_loop (fun s r hs hr => ih hs hr) hresult hr

/-- **A program does not finish exactly when every bound is too small.** -/
theorem not_finishes_iff_cut (hM : M.NeverThrows cut) :
    (¬ ∃ r t, Finishes M c s r t) ↔ ∀ n, (c.run M cut n s).result = .error cut := by
  constructor
  · intro h n
    by_contra hn
    exact h ⟨_, _, Com.RunsTo.finishes ⟨rfl, rfl, hn⟩⟩
  · rintro h ⟨r, t, hfinishes⟩
    obtain ⟨n, hn⟩ := hfinishes.exists_run hM
    exact hn.uncut (hn.result.symm.trans (h n))

end Run

end Lib
