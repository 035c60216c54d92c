import Mathlib.Tactic.SplitIfs

/-!
# What a computation keeps

* `Keeps`: a computation on a state leaves a part of it as it is; with `bind` and `ite`;
* `Preserves`: it keeps an invariant of the state; likewise.
-/

namespace Lib

variable {σ π α β : Type}

/-- The computation leaves the part `part` of the state as it is. -/
def Keeps (part : σ → π) (x : StateM σ α) : Prop := ∀ s, part (x s).2 = part s

namespace Keeps

variable {part : σ → π}

theorem ret (a : α) : Keeps part (pure a : StateM σ α) := fun _ => rfl

theorem get : Keeps part (get : StateM σ σ) := fun _ => rfl

theorem modify {f : σ → σ} (h : ∀ s, part (f s) = part s) :
    Keeps part (modify f : StateM σ PUnit) := h

/-- **Sequencing.** -/
theorem bind {x : StateM σ α} {k : α → StateM σ β} (hx : Keeps part x)
    (hk : ∀ a, Keeps part (k a)) : Keeps part (x >>= k) := fun s => (hk _ _).trans (hx s)

theorem ite {p : Prop} [Decidable p] {x y : StateM σ α} (hx : p → Keeps part x)
    (hy : ¬ p → Keeps part y) : Keeps part (if p then x else y) := by
  split_ifs with h
  · exact hx h
  · exact hy h

end Keeps

/-- The computation keeps the invariant `I`. -/
def Preserves (I : σ → Prop) (x : StateM σ α) : Prop := ∀ s, I s → I (x s).2

namespace Preserves

variable {I : σ → Prop}

theorem ret (a : α) : Preserves I (pure a : StateM σ α) := fun _ hs => hs

theorem get : Preserves I (get : StateM σ σ) := fun _ hs => hs

theorem modify {f : σ → σ} (h : ∀ s, I s → I (f s)) : Preserves I (modify f : StateM σ PUnit) := h

/-- **Sequencing.** -/
theorem bind {x : StateM σ α} {k : α → StateM σ β} (hx : Preserves I x)
    (hk : ∀ a, Preserves I (k a)) : Preserves I (x >>= k) := fun s hs => hk _ _ (hx s hs)

theorem ite {p : Prop} [Decidable p] {x y : StateM σ α} (hx : p → Preserves I x)
    (hy : ¬ p → Preserves I y) : Preserves I (if p then x else y) := by
  split_ifs with h
  · exact hx h
  · exact hy h

end Preserves

end Lib
