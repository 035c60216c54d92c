import Mathlib.Data.Set.Defs
import Mathlib.Logic.Relation
import ProgramAnalysis.Lib.Loop

/-!
# What calls write and what they read

* `Path`, `Call.Writes`: the states of a call, each one write after the one before; with `bind`,
  `inTurn` and `loop`;
* `AgreeOn`: states that look alike at some places;
* **`AgreeOn.commute`**: calls that leave alone what the other one reads and writes go in either order.
-/

namespace Lib

variable {ε σ τ α β : Type}

/-! ## Paths -/

/-- A path from a state through others to a last one, each step in `R`. -/
inductive Path (R : σ → σ → Prop) : σ → List σ → σ → Prop
  | nil (s : σ) : Path R s [] s
  | cons {s t u : σ} {ts : List σ} : R s t → Path R t ts u → Path R s (t :: ts) u

namespace Path

variable {R S : σ → σ → Prop} {s t u : σ} {ss ts : List σ}

theorem append (h : Path R s ss t) (k : Path R t ts u) : Path R s (ss ++ ts) u := by
  induction h with
  | nil s => exact k
  | cons hstep _ ih => exact .cons hstep (ih k)

theorem mono (hRS : ∀ s t, R s t → S s t) (h : Path R s ts u) : Path S s ts u := by
  induction h with
  | nil s => exact .nil s
  | cons hstep _ ih => exact .cons (hRS _ _ hstep) ih

theorem map (f : σ → τ) (h : Path R s ts u) : Path (Relation.Map R f f) (f s) (ts.map f) (f u) := by
  induction h with
  | nil s => exact .nil (f s)
  | cons hstep _ ih => exact .cons ⟨_, _, hstep, rfl, rfl⟩ ih

/-- What every step keeps holds all along. -/
theorem keeps {I : σ → Prop} (hstep : ∀ s t, R s t → I s → I t) (h : Path R s ts u) (hs : I s) :
    (∀ t ∈ ts, I t) ∧ I u := by
  induction h with
  | nil s => exact ⟨fun _ ht => absurd ht List.not_mem_nil, hs⟩
  | @cons s t u ts hst _ ih =>
    obtain ⟨hall, hlast⟩ := ih (hstep s t hst hs)
    exact ⟨List.forall_mem_cons.mpr ⟨hstep s t hst hs, hall⟩, hlast⟩

end Path

/-! ## What a call writes -/

/-- Every write of the call is a step in `R`. -/
def Call.Writes (R : σ → σ → Prop) (m : Call ε σ α) : Prop :=
  ∀ s, Path R s (m s).visited (m s).final

namespace Call.Writes

variable {R S : σ → σ → Prop}

theorem ret (a : α) : Writes R (pure a : Call ε σ α) := .nil

theorem fail (e : ε) : Writes R (Call.fail e : Call ε σ α) := .nil

theorem read (f : σ → Except ε α) : Writes R (Call.read f) := .nil

theorem write {f : σ → σ} (h : ∀ s, R s (f s)) : Writes R (Call.write f : Call ε σ Unit) :=
  fun s => .cons (h s) (.nil (f s))

theorem mono {m : Call ε σ α} (hRS : ∀ s t, R s t → S s t) (h : Writes R m) : Writes S m :=
  fun s => (h s).mono hRS

/-- **Sequencing.** -/
theorem bind {m : Call ε σ α} {k : α → Call ε σ β} (hm : Writes R m) (hk : ∀ a, Writes R (k a)) :
    Writes R (m >>= k) := by
  intro s
  rcases hr : (m s).result with e | a
  · rw [Call.bind_of_error hr]
    exact hm s
  · rw [Call.bind_of_ok hr]
    exact (hm s).append (hk a _)

theorem ite {p : Prop} [Decidable p] {m n : Call ε σ α} (hm : Writes R m) (hn : Writes R n) :
    Writes R (if p then m else n) := by
  split_ifs
  · exact hm
  · exact hn

theorem inTurn {ms : List (Call ε σ Unit)} (h : ∀ m ∈ ms, Writes R m) :
    Writes R (Call.inTurn ms) := by
  induction ms with
  | nil => exact ret ()
  | cons m ms ih =>
    obtain ⟨hm, hms⟩ := List.forall_mem_cons.mp h
    exact bind hm fun _ => ih hms

theorem loop {cut : ε} {cond : Call ε σ Bool} {body : Call ε σ Unit} (hcond : Writes R cond)
    (hbody : Writes R body) (n : ℕ) : Writes R (Call.loop cut cond body n) := by
  induction n with
  | zero => exact bind hcond fun _ => ite (fail cut) (ret ())
  | succ n ih => exact bind hcond fun _ => ite (bind hbody fun _ => ih) (ret ())

end Call.Writes

/-! ## Places -/

section Places

variable {κ ν : Type} {look : σ → κ → ν}

variable (look) in
/-- Two states look alike at the places in `V`. -/
def AgreeOn (V : Set κ) (s t : σ) : Prop := ∀ x ∈ V, look s x = look t x

variable (look) in
/-- The step leaves the places outside `A` alone. -/
def ChangesIn (A : Set κ) (s t : σ) : Prop := ∀ x ∉ A, look t x = look s x

variable {A B V W : Set κ} {s t : σ}

theorem Path.changesIn {ts : List σ} (h : Path (ChangesIn look A) s ts t) :
    (∀ u ∈ ts, ChangesIn look A s u) ∧ ChangesIn look A s t :=
  h.keeps (fun _ _ hstep hs x hx => (hstep x hx).trans (hs x hx)) fun _ _ => rfl

theorem ChangesIn.agreeOn (h : ChangesIn look A s t) (hV : ∀ x ∈ A, x ∉ V) : AgreeOn look V s t :=
  fun x hx => (h x fun hA => hV x hA hx).symm

/-- **Calls that leave alone what the other one reads and writes go in either order.** -/
theorem AgreeOn.commute {m k : Call ε σ Unit} (hm : m.Writes (ChangesIn look A))
    (hk : k.Writes (ChangesIn look B)) (hmV : Call.ActsAs (AgreeOn look V) m m)
    (hkW : Call.ActsAs (AgreeOn look W) k k) (hAV : A ⊆ V) (hBW : B ⊆ W) (hAW : ∀ x ∈ A, x ∉ W)
    (hBV : ∀ x ∈ B, x ∉ V) (hok : ((do m; k) s).result = .ok ()) :
    ((do k; m) s).result = .ok () ∧
      ∀ x, look ((do k; m) s).final x = look ((do m; k) s).final x := by
  rcases hr : (m s).result with e | u
  · rw [Call.bind_of_error hr] at hok
    cases hok
  rw [Call.bind_of_ok hr] at hok ⊢
  have hmchange : ∀ t, ChangesIn look A t (m t).final := fun t => (hm t).changesIn.2
  have hkchange : ∀ t, ChangesIn look B t (k t).final := fun t => (hk t).changesIn.2
  -- `k` runs first as it would after `m`, and `m` after it as it would first
  have hsecond := hkW s (m s).final ((hmchange s).agreeOn hAW)
  have hfirst := hmV (k s).final s fun x hx => ((hkchange s).agreeOn hBV x hx).symm
  rw [Call.bind_of_ok (hsecond.result.trans hok)]
  refine ⟨hfirst.result.trans hr, fun x => ?_⟩
  by_cases hA : x ∈ A
  · have hB : x ∉ B := fun hB => hBV x hB (hAV hA)
    exact (hfirst.final x (hAV hA)).trans (hkchange _ x hB).symm
  · rw [hmchange _ x hA]
    by_cases hB : x ∈ B
    · exact hsecond.final x (hBW hB)
    · show look (k s).final x = look (k (m s).final).final x
      rw [hkchange _ x hB, hkchange _ x hB, hmchange _ x hA]

end Places

end Lib
