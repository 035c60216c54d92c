import Mathlib.Data.List.Forall2
import ProgramAnalysis.Lib.Call

/-!
# Loops and sequences of calls

* `Call.inTurn`, `Call.loop`: calls one after another; a loop that is cut off after so many rounds;
* `Call.Rounds`, `loop_after_rounds`, **`loop_error`**: the rounds of a loop, and where it throws;
* `Outcome.Ensures`: what holds when a call returns and when it throws, with `bind` and `loop`;
* `Call.ActsAs`: a call that does on related states what another call does, with `bind`, `inTurn` and
  `loop`.
-/

namespace Lib

variable {ε σ τ α β : Type}

namespace Call

/-- Calls one after another. -/
def inTurn : List (Call ε σ Unit) → Call ε σ Unit
  | [] => pure ()
  | m :: ms => do
    m
    inTurn ms

/-- `while (cond) body`, cut off with `cut` before round `n + 1`. -/
def loop (cut : ε) (cond : Call ε σ Bool) (body : Call ε σ Unit) : ℕ → Call ε σ Unit
  | 0 => do
    if ← cond then fail cut else pure ()
  | n + 1 => do
    if ← cond then
      body
      loop cut cond body n
    else pure ()

/-! ## Sequences -/

section Sequence

variable {s : σ}

theorem inTurn_append (ms ks : List (Call ε σ Unit)) :
    inTurn (ms ++ ks) = (do inTurn ms; inTurn ks) := by
  induction ms with
  | nil => rw [List.nil_append, inTurn, pure_bind]
  | cons m ms ih => rw [List.cons_append, inTurn, ih, inTurn, bind_assoc']

theorem inTurn_append_of_ok {ms : List (Call ε σ Unit)} (h : (inTurn ms s).result = .ok ())
    (ks : List (Call ε σ Unit)) : (inTurn (ms ++ ks) s).result =
      (inTurn ks (inTurn ms s).final).result := by
  rw [inTurn_append, bind_of_ok h]

/-- A sequence that throws does so in one of its calls, after the ones before it returned. -/
theorem inTurn_error {ms : List (Call ε σ Unit)} {e : ε} (h : (inTurn ms s).result = .error e) :
    ∃ pre m post, ms = pre ++ m :: post ∧ (inTurn pre s).result = .ok () ∧
      (m (inTurn pre s).final).result = .error e := by
  induction ms generalizing s with
  | nil => cases h
  | cons m ms ih =>
    rcases hm : (m s).result with e' | a
    · rw [inTurn, bind_of_error hm] at h
      exact ⟨[], m, ms, rfl, rfl, hm.trans h⟩
    · rw [inTurn, bind_of_ok hm] at h
      obtain ⟨pre, k, post, rfl, hpre, hk⟩ := ih h
      refine ⟨m :: pre, k, post, rfl, ?_, ?_⟩
      · rw [inTurn, bind_of_ok hm]
        exact hpre
      · rw [inTurn, bind_of_ok hm]
        exact hk

/-- Calls that each add something to a list. -/
theorem Gives.inTurn_map {f : α → Call ε σ Unit} {g : List β → σ} {added : α → List β} {m : List α}
    (h : ∀ a ∈ m, ∀ l, (f a).Gives (g l) (.ok ()) (g (l ++ added a))) (l : List β) :
    (inTurn (m.map f)).Gives (g l) (.ok ()) (g (l ++ m.flatMap added)) := by
  induction m generalizing l with
  | nil =>
    rw [List.flatMap_nil, List.append_nil]
    exact ⟨rfl, rfl⟩
  | cons a m ih =>
    obtain ⟨ha, hm⟩ := List.forall_mem_cons.mp h
    have hrest := ih hm (l ++ added a)
    rw [List.append_assoc] at hrest
    exact (ha l).bind hrest

end Sequence

/-! ## Rounds -/

section Rounds

variable (cond : Call ε σ Bool) (body : Call ε σ Unit)

/-- So many rounds lead from one state to another. -/
inductive Rounds : σ → ℕ → σ → Prop
  | zero (s : σ) : Rounds s 0 s
  | next {s t : σ} {k : ℕ} : (cond s).result = .ok true →
    (body (cond s).final).result = .ok () → Rounds (body (cond s).final).final k t →
      Rounds s (k + 1) t

variable {cond body} {cut : ε} {s t : σ} {k n : ℕ}

/-- A loop goes on after its rounds. -/
theorem loop_after_rounds (cut : ε) (h : Rounds cond body s k t) (hk : k ≤ n) :
    (loop cut cond body n s).result = (loop cut cond body (n - k) t).result ∧
      (loop cut cond body n s).final = (loop cut cond body (n - k) t).final := by
  induction h generalizing n with
  | zero s => exact ⟨rfl, rfl⟩
  | @next s t k hcond hbody _ ih =>
    obtain ⟨m, rfl⟩ := Nat.exists_eq_add_of_le' hk
    have hrest := ih (n := m + k) (Nat.le_add_left k m)
    rw [Nat.add_sub_cancel] at hrest
    rw [Nat.add_sub_cancel, ← hrest.1, ← hrest.2, ← Nat.add_assoc, loop, bind_of_ok hcond]
    show ((body >>= fun _ => loop cut cond body _) _).result = _ ∧
      ((body >>= fun _ => loop cut cond body _) _).final = _
    rw [bind_of_ok hbody]
    exact ⟨rfl, rfl⟩

/-- One round more. -/
theorem Rounds.snoc (h : Rounds cond body s k t) (hcond : (cond t).result = .ok true)
    (hbody : (body (cond t).final).result = .ok ()) :
    Rounds cond body s (k + 1) (body (cond t).final).final := by
  induction h with
  | zero s => exact .next hcond hbody (.zero _)
  | next hfirst hround _ ih => exact .next hfirst hround (ih hcond hbody)

/-- A loop whose test fails returns. -/
theorem loop_of_cond_false (h : (cond s).result = .ok false) (n : ℕ) :
    (loop cut cond body n s).result = .ok () ∧ (loop cut cond body n s).final = (cond s).final := by
  cases n with
  | zero =>
    rw [loop, bind_of_ok h]
    exact ⟨rfl, rfl⟩
  | succ n =>
    rw [loop, bind_of_ok h]
    exact ⟨rfl, rfl⟩

theorem loop_of_cond_error {e : ε} (h : (cond s).result = .error e) (n : ℕ) :
    (loop cut cond body n s).result = .error e := by
  cases n with
  | zero => rw [loop, bind_of_error h]
  | succ n => rw [loop, bind_of_error h]

theorem loop_of_body_error {e : ε} (hcond : (cond s).result = .ok true)
    (h : (body (cond s).final).result = .error e) (n : ℕ) :
    (loop cut cond body (n + 1) s).result = .error e := by
  rw [loop, bind_of_ok hcond]
  show ((body >>= fun _ => loop cut cond body n) _).result = _
  rw [bind_of_error h]

/-- **Where a loop throws**: in the test or the body of a round, or where it is cut off. -/
theorem loop_error {e : ε} (h : (loop cut cond body n s).result = .error e) :
    ∃ k t, k ≤ n ∧ Rounds cond body s k t ∧ ((cond t).result = .error e ∨
      (cond t).result = .ok true ∧
        (k = n ∧ e = cut ∨ k < n ∧ (body (cond t).final).result = .error e)) := by
  induction n generalizing s with
  | zero =>
    refine ⟨0, s, Nat.le_refl 0, .zero s, ?_⟩
    rcases hcond : (cond s).result with e' | b
    · rw [loop, bind_of_error hcond] at h
      cases h
      exact .inl rfl
    · rw [loop, bind_of_ok hcond] at h
      cases b
      · cases h
      · cases h
        exact .inr ⟨rfl, .inl ⟨rfl, rfl⟩⟩
  | succ n ih =>
    rcases hcond : (cond s).result with e' | b
    · rw [loop, bind_of_error hcond] at h
      cases h
      exact ⟨0, s, Nat.zero_le _, .zero s, .inl hcond⟩
    · rw [loop, bind_of_ok hcond] at h
      cases b
      · cases h
      · change ((body >>= fun _ => loop cut cond body n) _).result = _ at h
        rcases hbody : (body (cond s).final).result with e' | u
        · rw [bind_of_error hbody] at h
          refine ⟨0, s, Nat.zero_le _, .zero s, .inr ⟨hcond, .inr ⟨Nat.succ_pos n, ?_⟩⟩⟩
          exact hbody.trans h
        · rw [bind_of_ok hbody] at h
          obtain ⟨k, t, hk, hrounds, hend⟩ := ih h
          refine ⟨k + 1, t, Nat.succ_le_succ hk, .next hcond hbody hrounds, ?_⟩
          refine hend.imp_right fun hend => ⟨hend.1, hend.2.imp ?_ ?_⟩
          · exact fun hcut => ⟨congrArg Nat.succ hcut.1, hcut.2⟩
          · exact fun hthrow => ⟨Nat.succ_lt_succ hthrow.1, hthrow.2⟩

end Rounds

end Call

/-! ## What holds at the end of a call -/

/-- `Q` holds when the call returns, `E` when it throws. -/
structure Outcome.Ensures (Q : α → σ → Prop) (E : ε → σ → Prop) (o : Outcome ε σ α) : Prop where
  returned : ∀ a, o.result = .ok a → Q a o.final
  thrown : ∀ e, o.result = .error e → E e o.final

namespace Outcome.Ensures

variable {Q : α → σ → Prop} {E : ε → σ → Prop} {s : σ}

theorem ret {a : α} (h : Q a s) : Ensures Q E ((pure a : Call ε σ α) s) :=
  ⟨fun _ ha => Except.ok.inj ha ▸ h, fun _ he => by cases he⟩

theorem fail {e : ε} (h : E e s) : Ensures Q E ((Call.fail e : Call ε σ α) s) :=
  ⟨fun _ ha => (by cases ha), fun _ he => Except.error.inj he ▸ h⟩

theorem mono {Q' : α → σ → Prop} {o : Outcome ε σ α} (h : Ensures Q E o)
    (hQ : ∀ a t, Q a t → Q' a t) : Ensures Q' E o :=
  ⟨fun a ha => hQ a _ (h.returned a ha), h.thrown⟩

/-- **Sequencing.** -/
theorem bind {m : Call ε σ α} {k : α → Call ε σ β} {R : β → σ → Prop} (hm : Ensures Q E (m s))
    (hk : ∀ a t, Q a t → Ensures R E (k a t)) : Ensures R E ((m >>= k) s) := by
  rcases hr : (m s).result with e | a
  · rw [Call.bind_of_error hr]
    exact ⟨fun _ h => (by cases h), fun _ h => Except.error.inj h ▸ hm.thrown e hr⟩
  · rw [Call.bind_of_ok hr]
    have h := hk a _ (hm.returned a hr)
    exact ⟨h.returned, h.thrown⟩

/-- **The loop rule**: what the test and the body keep, the loop keeps. -/
theorem loop {I : σ → Prop} {cut : ε} {cond : Call ε σ Bool} {body : Call ε σ Unit}
    (hcond : ∀ s, I s → Ensures (fun _ t => I t) E (cond s))
    (hbody : ∀ s, I s → Ensures (fun _ t => I t) E (body s)) (hcut : ∀ s, I s → E cut s) (n : ℕ)
    (h : I s) : Ensures (fun _ t => I t) E (Call.loop cut cond body n s) := by
  induction n generalizing s with
  | zero =>
    refine bind (hcond s h) fun b t ht => ?_
    cases b
    · exact ret ht
    · exact fail (hcut t ht)
  | succ n ih =>
    refine bind (hcond s h) fun b t ht => ?_
    cases b
    · exact ret ht
    · exact bind (hbody t ht) fun _ u hu => ih hu

end Outcome.Ensures

/-! ## Calls that go together -/

/-- Two calls end alike, with related states all along. -/
structure Outcome.Related (R : σ → τ → Prop) (o : Outcome ε σ α) (o' : Outcome ε τ α) : Prop where
  result : o.result = o'.result
  final : R o.final o'.final
  visited : List.Forall₂ R o.visited o'.visited

theorem Outcome.Related.exists_of_mem {R : σ → τ → Prop} {o : Outcome ε σ α} {o' : Outcome ε τ α}
    (h : o.Related R o') {s : σ} (hs : s ∈ o.visited) : ∃ t ∈ o'.visited, R s t := by
  obtain ⟨i, hi, rfl⟩ := List.getElem_of_mem hs
  have hi' : i < o'.visited.length := h.visited.length_eq ▸ hi
  exact ⟨o'.visited[i], List.getElem_mem hi', h.visited.get hi hi'⟩

/-- Where each state is the image of the other one, so are the states written. -/
theorem Outcome.Related.visited_eq_map {f : τ → σ} {o : Outcome ε σ α} {o' : Outcome ε τ α}
    (h : o.Related (fun s t => s = f t) o') : o.visited = o'.visited.map f :=
  List.forall₂_eq_eq_eq ▸ List.forall₂_map_right_iff.mpr h.visited

/-- From related states, `m` does what `c` does. -/
def Call.ActsAs (R : σ → τ → Prop) (m : Call ε σ α) (c : Call ε τ α) : Prop :=
  ∀ s t, R s t → (m s).Related R (c t)

namespace Call.ActsAs

variable {R : σ → τ → Prop}

theorem ret (a : α) : ActsAs R (pure a : Call ε σ α) (pure a) := fun _ _ h => ⟨rfl, h, .nil⟩

theorem fail (e : ε) : ActsAs R (Call.fail e : Call ε σ α) (Call.fail e) := fun _ _ h => ⟨rfl, h, .nil⟩

theorem read {f : σ → Except ε α} {g : τ → Except ε α} (h : ∀ s t, R s t → f s = g t) :
    ActsAs R (Call.read f) (Call.read g) := fun s t hst => ⟨h s t hst, hst, .nil⟩

theorem write {f : σ → σ} {g : τ → τ} (h : ∀ s t, R s t → R (f s) (g t)) :
    ActsAs R (Call.write f : Call ε σ Unit) (Call.write g) :=
  fun s t hst => ⟨rfl, h s t hst, .cons (h s t hst) .nil⟩

/-- Both write related states, or both refuse with one error. -/
theorem update {f : σ → Except ε σ} {g : τ → Except ε τ}
    (h : ∀ s t, R s t → (∃ s' t', f s = .ok s' ∧ g t = .ok t' ∧ R s' t') ∨
      ∃ e, f s = .error e ∧ g t = .error e) : ActsAs R (Call.update f) (Call.update g) := by
  intro s t hst
  rcases h s t hst with ⟨s', t', hf, hg, hst'⟩ | ⟨e, hf, hg⟩
  · rw [Call.update_of_ok hf, Call.update_of_ok hg]
    exact ⟨rfl, hst', .cons hst' .nil⟩
  · rw [Call.update_of_error hf, Call.update_of_error hg]
    exact ⟨rfl, hst, .nil⟩

/-- **Sequencing.** -/
theorem bind {m : Call ε σ α} {c : Call ε τ α} {k : α → Call ε σ β} {d : α → Call ε τ β}
    (hm : ActsAs R m c) (hk : ∀ a, ActsAs R (k a) (d a)) : ActsAs R (m >>= k) (c >>= d) := by
  intro s t hst
  obtain ⟨hresult, hfinal, hvisited⟩ := hm s t hst
  rcases hr : (c t).result with e | a
  · rw [Call.bind_of_error hr, Call.bind_of_error (hresult.trans hr)]
    exact ⟨rfl, hfinal, hvisited⟩
  · rw [Call.bind_of_ok hr, Call.bind_of_ok (hresult.trans hr)]
    have h := hk a _ _ hfinal
    exact ⟨h.result, h.final, List.rel_append hvisited h.visited⟩

theorem ite {p : Prop} [Decidable p] {m n : Call ε σ α} {c d : Call ε τ α} (hm : ActsAs R m c)
    (hn : ActsAs R n d) : ActsAs R (if p then m else n) (if p then c else d) := by
  split_ifs
  · exact hm
  · exact hn

theorem inTurn {ms : List (Call ε σ Unit)} {cs : List (Call ε τ Unit)}
    (h : List.Forall₂ (ActsAs R) ms cs) : ActsAs R (Call.inTurn ms) (Call.inTurn cs) := by
  induction h with
  | nil => exact ret ()
  | cons hm _ ih => exact bind hm fun _ => ih

theorem loop {cut : ε} {cond : Call ε σ Bool} {body : Call ε σ Unit} {cond' : Call ε τ Bool}
    {body' : Call ε τ Unit} (hcond : ActsAs R cond cond') (hbody : ActsAs R body body') (n : ℕ) :
    ActsAs R (Call.loop cut cond body n) (Call.loop cut cond' body' n) := by
  induction n with
  | zero => exact bind hcond fun b => ite (fail cut) (ret ())
  | succ n ih => exact bind hcond fun b => ite (bind hbody fun _ => ih) (ret ())

end Call.ActsAs

end Lib
