import Mathlib.Data.Fintype.Card
import Mathlib.Logic.Relation
import ProgramAnalysis.Lib.While

/-!
# Loops over finitely many states

* `Com.acts`, `Finishes.keeps`: the actions of a program, and a set of states that they all keep;
* `Round`, **`Finishes.no_return`**: a loop that finishes does not come back to the state it starts on;
* **`Finishes.runsTo_of_card_le`**: so where finitely many states can be told apart, a program finishes with
  as many rounds for every loop, or not at all.
-/

namespace Lib

variable {α β ε σ τ : Type}

/-- The actions of a program. -/
def Com.acts : Com α β → Set α
  | .skip => ∅
  | .act a => {a}
  | .seq c d => c.acts ∪ d.acts
  | .ite _ c d => c.acts ∪ d.acts
  | .loop _ c => c.acts

/-- Every action of the program keeps the set of states. -/
def Com.Keeps (M : Primitives α β ε σ) (K : Set σ) (c : Com α β) : Prop :=
  ∀ a ∈ c.acts, ∀ s t, s ∈ K → M.act a s = .ok t → t ∈ K

section Keeps

variable {M : Primitives α β ε σ} {K : Set σ} {c d : Com α β} {b : β} {s t : σ}
  {r : Except ε Unit}

theorem Com.Keeps.left (h : (Com.seq c d).Keeps M K) : c.Keeps M K :=
  fun a ha => h a (Set.mem_union_left _ ha)

theorem Com.Keeps.right (h : (Com.seq c d).Keeps M K) : d.Keeps M K :=
  fun a ha => h a (Set.mem_union_right _ ha)

theorem Com.Keeps.branch (h : (Com.ite b c d).Keeps M K) (v : Bool) :
    (if v then c else d).Keeps M K := by
  cases v
  · exact fun a ha => h a (Set.mem_union_right _ ha)
  · exact fun a ha => h a (Set.mem_union_left _ ha)

theorem Com.Keeps.unroll (h : (Com.loop b c).Keeps M K) : (Com.seq c (.loop b c)).Keeps M K :=
  fun a ha => h a (Set.union_self c.acts ▸ ha)

/-- What the actions keep, the program keeps. -/
theorem Finishes.keeps (h : Finishes M c s r t) (hc : c.Keeps M K) (hs : s ∈ K) : t ∈ K := by
  induction h with
  | skip | actThrows | iteThrows | loopDone | loopThrows => exact hs
  | act hact => exact hc _ (Set.mem_singleton _) _ _ hs hact
  | seq _ _ ihc ihd => exact ihd hc.right (ihc hc.left hs)
  | seqThrows _ ih => exact ih hc.left hs
  | ite _ _ ih => exact ih (hc.branch _) hs
  | loop _ _ ih => exact ih hc.unroll hs

end Keeps

/-! ## Rounds -/

/-- A round of the loop leads from one state to another. -/
def Round (M : Primitives α β ε σ) (b : β) (c : Com α β) (s t : σ) : Prop :=
  M.test b s = .ok true ∧ Finishes M c s (.ok ()) t

section Rounds

open Relation

variable {M : Primitives α β ε σ} {c : Com α β} {b : β} {s t : σ} {r : Except ε Unit}

/-- **A loop that finishes does not come back to the state it starts on.** -/
theorem Finishes.no_return (h : Finishes M (.loop b c) s r t) : ¬ TransGen (Round M b c) s s := by
  induction h using Finishes.loop_ind with
  | done s htest =>
    intro hs
    obtain ⟨u, hround, -⟩ := TransGen.head'_iff.mp hs
    cases htest.symm.trans hround.1
  | throws s e htest =>
    intro hs
    obtain ⟨u, hround, -⟩ := TransGen.head'_iff.mp hs
    cases htest.symm.trans hround.1
  | stops s e t htest hc =>
    intro hs
    obtain ⟨u, hround, -⟩ := TransGen.head'_iff.mp hs
    cases (hc.unique hround.2).1
  | round s t r u htest hc hrest ih =>
    intro hs
    obtain ⟨v, hround, hback⟩ := TransGen.head'_iff.mp hs
    obtain ⟨-, rfl⟩ := hc.unique hround.2
    exact ih (TransGen.tail' hback hround)

variable {K : Set σ} {f : σ → τ} {cut : ε} {m n : ℕ}

theorem Com.Keeps.rounds (hK : c.Keeps M K) (h : ReflTransGen (Round M b c) s t) (hs : s ∈ K) :
    t ∈ K := by
  induction h with
  | refl => exact hs
  | tail _ hround ih => exact hround.2.keeps hK ih

/-- One more round of a loop. -/
theorem Com.RunsTo.next {u : σ} (htest : M.test b s = .ok true)
    (hc : c.RunsTo M cut m s (.ok ()) t)
    (hrest : (Call.loop cut (Call.read (M.test b)) (c.run M cut m) n).Gives t r u) :
    (Call.loop cut (Call.read (M.test b)) (c.run M cut m) (n + 1)).Gives s r u := by
  have hread : (Call.read (M.test b)).Gives s (.ok true) s := ⟨htest, rfl⟩
  have hbody : (c.run M cut m).Gives s (.ok ()) t := ⟨hc.result, hc.final⟩
  exact hread.bind (hbody.bind hrest)

/-- **A loop that finishes starts every round in another state**, and as many rounds are enough. -/
theorem Finishes.exists_starts (hf : Set.InjOn f K) (hK : c.Keeps M K)
    (hbody : ∀ s r t, s ∈ K → Finishes M c s r t → c.RunsTo M cut m s r t) (hs : s ∈ K)
    (h : Finishes M (.loop b c) s r t) : ∃ F : Finset τ,
      (∀ y ∈ F, ∃ u, ReflTransGen (Round M b c) s u ∧ f u = y) ∧ ∀ n, F.card ≤ n →
        (Call.loop cut (Call.read (M.test b)) (c.run M cut m) n).Gives s r t := by
  classical
  induction h using Finishes.loop_ind with
  | done s htest =>
    refine ⟨∅, fun y hy => absurd hy (Finset.notMem_empty y), fun n _ => ?_⟩
    have hread : (Call.read (M.test b)).Gives s (.ok false) s := ⟨htest, rfl⟩
    cases n with
    | zero => exact hread.bind ⟨rfl, rfl⟩
    | succ n => exact hread.bind ⟨rfl, rfl⟩
  | throws s e htest =>
    refine ⟨∅, fun y hy => absurd hy (Finset.notMem_empty y), fun n _ => ?_⟩
    have hread : (Call.read (M.test b)).Gives s (.error e) s := ⟨htest, rfl⟩
    cases n with
    | zero => exact hread.bind_error
    | succ n => exact hread.bind_error
  | stops s e t htest hc =>
    refine ⟨{f s}, fun y hy => ⟨s, .refl, (Finset.mem_singleton.mp hy).symm⟩, fun n hn => ?_⟩
    rw [Finset.card_singleton] at hn
    obtain ⟨n, rfl⟩ := Nat.exists_eq_add_of_le' hn
    have hread : (Call.read (M.test b)).Gives s (.ok true) s := ⟨htest, rfl⟩
    have hthrows := hbody s _ t hs hc
    have hround : (c.run M cut m).Gives s (.error e) t := ⟨hthrows.result, hthrows.final⟩
    exact hread.bind hround.bind_error
  | round s t r u htest hc hrest ih =>
    have hround : Round M b c s t := ⟨htest, hc⟩
    obtain ⟨F, hF, hruns⟩ := ih (hc.keeps hK hs)
    -- a later round that starts where this one does would lead back to it
    have hnew : f s ∉ F := by
      intro hmem
      obtain ⟨v, hv, hfv⟩ := hF _ hmem
      cases hf (hK.rounds (.head hround hv) hs) hs hfv
      exact (Finishes.loop htest (.seq hc hrest)).no_return (TransGen.head' hround hv)
    refine ⟨insert (f s) F, fun y hy => ?_, fun n hn => ?_⟩
    · rcases Finset.mem_insert.mp hy with rfl | hy
      · exact ⟨s, .refl, rfl⟩
      · obtain ⟨v, hv, rfl⟩ := hF y hy
        exact ⟨v, .head hround hv, rfl⟩
    · rw [Finset.card_insert_of_notMem hnew] at hn
      obtain ⟨n, rfl⟩ := Nat.exists_eq_add_of_le' (Nat.le_of_add_left_le hn)
      exact (hbody s _ t hs hc).next htest (hruns n (Nat.le_of_add_le_add_right hn))

/-- **Where finitely many states can be told apart, a program finishes with as many rounds for every
loop**, or not at all. -/
theorem Finishes.runsTo_of_card_le [Fintype τ] (hM : M.NeverThrows cut) (hf : Set.InjOn f K)
    (hn : Fintype.card τ ≤ n) (hK : c.Keeps M K) (hs : s ∈ K) (h : Finishes M c s r t) :
    c.RunsTo M cut n s r t := by
  induction c generalizing s r t with
  | skip =>
    cases h
    exact .skip s
  | act a =>
    cases h with
    | act hact => exact .act hact
    | actThrows hact => exact .actThrows hM hact
  | seq c d ihc ihd =>
    cases h with
    | seq hc hd => exact (ihc hK.left hs hc).seq (ihd hK.right (hc.keeps hK.left hs) hd)
    | seqThrows hc => exact (ihc hK.left hs hc).seqThrows
  | ite b c d ihc ihd =>
    cases h with
    | @ite _ _ _ _ v _ _ htest hbranch =>
      refine Com.RunsTo.ite htest ?_
      cases v
      · exact ihd (hK.branch false) hs hbranch
      · exact ihc (hK.branch true) hs hbranch
    | iteThrows htest => exact .iteThrows hM htest
  | loop b c ih =>
    obtain ⟨m, hm⟩ := h.exists_run hM
    have hbody : c.Keeps M K := hK.unroll.left
    obtain ⟨F, -, hruns⟩ := h.exists_starts hf hbody (fun s r t hs hc => ih hbody hs hc) hs
    have hgives := hruns n ((Finset.card_le_univ F).trans hn)
    exact ⟨hgives.result, hgives.final, hm.uncut⟩

end Rounds

end Lib
