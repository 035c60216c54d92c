import Mathlib.Data.List.Induction
import Mathlib.Order.Filter.AtTopBot.Basic
import ProgramAnalysis.Lib.Loop

/-!
# Calls that are cut off later and later

* `Call.Extends`: a call that does what another one does wherever that is not cut off; with `bind`,
  `inTurn` and `loop`;
* `Call.Ends`: where a call ends once its cut is late enough;
* **`exists_rounds`**, `Ends.loop`: a loop whose rounds are counted ends after them.
-/

namespace Lib

open Filter

variable {ε σ α β : Type}

namespace Call

/-! ## Later cuts -/

/-- Wherever `m` is not cut off, `k` does the same. -/
def Extends (cut : ε) (m k : Call ε σ α) : Prop := ∀ s, (m s).result ≠ .error cut → k s = m s

namespace Extends

variable {cut : ε}

theorem refl (m : Call ε σ α) : Extends cut m m := fun _ _ => rfl

/-- A call that is cut off says nothing. -/
theorem of_cut (m : Call ε σ α) : Extends cut (fail cut) m := fun _ h => absurd rfl h

/-- **Sequencing.** -/
theorem bind {m m' : Call ε σ α} {k k' : α → Call ε σ β} (hm : Extends cut m m')
    (hk : ∀ a, Extends cut (k a) (k' a)) : Extends cut (m >>= k) (m' >>= k') := by
  intro s h
  rcases hr : (m s).result with e | a
  · rw [bind_of_error hr] at h ⊢
    have hsame := hm s fun hcut => h (congrArg Except.error (Except.error.inj (hr ▸ hcut)))
    rw [bind_of_error (hsame ▸ hr), hsame]
  · rw [bind_of_ok hr] at h ⊢
    have hsame := hm s (by rw [hr]; rintro ⟨⟩)
    rw [bind_of_ok (hsame ▸ hr), hsame, hk a _ h]

theorem ite {p : Prop} [Decidable p] {m n m' n' : Call ε σ α} (hm : Extends cut m m')
    (hn : Extends cut n n') : Extends cut (if p then m else n) (if p then m' else n') := by
  split_ifs
  · exact hm
  · exact hn

theorem inTurn {ms ks : List (Call ε σ Unit)} (h : List.Forall₂ (Extends cut) ms ks) :
    Extends cut (inTurn ms) (inTurn ks) := by
  induction h with
  | nil => exact refl _
  | cons hm _ ih => exact bind hm fun _ => ih

theorem loop {cond : Call ε σ Bool} {body body' : Call ε σ Unit} (hbody : Extends cut body body')
    {n m : ℕ} (hnm : n ≤ m) : Extends cut (loop cut cond body n) (loop cut cond body' m) := by
  induction n generalizing m with
  | zero =>
    cases m with
    | zero => exact refl _
    | succ m => exact bind (refl cond) fun _ => ite (of_cut _) (refl _)
  | succ n ih =>
    cases m with
    | zero => cases hnm
    | succ m =>
      refine bind (refl cond) fun _ => ite (bind hbody fun _ => ?_) (refl _)
      exact ih (Nat.le_of_succ_le_succ hnm)

end Extends

/-! ## Where a call ends -/

/-- From some cut on, the call returns and leaves `t`. -/
def Ends (F : ℕ → Call ε σ Unit) (s t : σ) : Prop :=
  ∀ᶠ n in atTop, (F n s).result = .ok () ∧ (F n s).final = t

variable {cut : ε} {F G : ℕ → Call ε σ Unit} {cond : Call ε σ Bool} {s t u : σ} {k : ℕ}

theorem Ends.of_extends (hF : ∀ n m, n ≤ m → Extends cut (F n) (F m)) {n : ℕ}
    (h : (F n s).result = .ok ()) : Ends F s (F n s).final := by
  refine eventually_atTop.mpr ⟨n, fun m hm => ?_⟩
  rw [hF n m hm s (by rw [h]; rintro ⟨⟩)]
  exact ⟨h, rfl⟩

/-- **Calls in turn.** Where each call, entered where the ones before it lead, ends and takes the
invariant to the next number, the sequence ends. -/
theorem Ends.inTurn {ι : Type} {F : ι → ℕ → Call ε σ Unit} {I : ℕ → σ → Prop} {l : List ι}
    (h₀ : I 0 s) (hstep : ∀ front i back, l = front ++ i :: back → ∀ t, I front.length t →
      Ends (fun n => inTurn (front.map fun i => F i n)) s t →
        ∃ u, Ends (F i) t u ∧ I (front.length + 1) u) :
    ∃ t, Ends (fun n => Call.inTurn (l.map fun i => F i n)) s t ∧ I l.length t := by
  induction l using List.reverseRecOn with
  | nil => exact ⟨s, .of_forall fun _ => ⟨rfl, rfl⟩, h₀⟩
  | append_singleton l i ih =>
    obtain ⟨t, ht, hI⟩ := ih fun front j back hsplit =>
      hstep front j (back ++ [i]) (by rw [hsplit, List.append_assoc, List.cons_append])
    obtain ⟨u, hu, hI⟩ := hstep l i [] rfl t hI ht
    refine ⟨u, ?_, by rwa [List.length_append]⟩
    filter_upwards [ht, hu] with n htn hun
    rw [List.map_append, inTurn_append, bind_of_ok htn.1, htn.2]
    change ((do F i n; pure ()) t).result = _ ∧ ((do F i n; pure ()) t).final = _
    rw [bind_of_ok hun.1]
    exact ⟨rfl, hun.2⟩

/-- **The counting rule.** Where each of `k` rounds, entered where the rounds before it lead, passes the
test and takes the invariant to the next number, so many rounds are made. -/
theorem exists_rounds {I : ℕ → σ → Prop} (h₀ : I 0 s)
    (hround : ∀ j < k, ∀ t, I j t → (∀ᶠ n in atTop, Rounds cond (F n) s j t) →
      (cond t).result = .ok true ∧ ∃ u, Ends F (cond t).final u ∧ I (j + 1) u) :
    ∀ j ≤ k, ∃ t, I j t ∧ ∀ᶠ n in atTop, Rounds cond (F n) s j t := by
  intro j hj
  induction j with
  | zero => exact ⟨s, h₀, .of_forall fun _ => .zero s⟩
  | succ j ih =>
    obtain ⟨t, ht, hrounds⟩ := ih (Nat.le_of_succ_le hj)
    obtain ⟨hcond, u, hbody, hu⟩ := hround j hj t ht hrounds
    refine ⟨u, hu, ?_⟩
    filter_upwards [hrounds, hbody] with n hn hbodyn
    exact hbodyn.2 ▸ hn.snoc hcond hbodyn.1

/-- A loop ends when its test fails after its rounds. -/
theorem Ends.loop (cut : ε) (h : ∀ᶠ n in atTop, Rounds cond (F n) s k t)
    (hcond : (cond t).result = .ok false) :
    Ends (fun n => loop cut cond (F n) n) s (cond t).final := by
  filter_upwards [h, eventually_ge_atTop k] with n hn hk
  obtain ⟨hresult, hfinal⟩ := loop_after_rounds cut hn hk
  have hlast : (Call.loop cut cond (F n) (n - k) t).result = _ ∧ _ := loop_of_cond_false hcond (n - k)
  exact ⟨hresult.trans hlast.1, hfinal.trans hlast.2⟩

end Call

end Lib
