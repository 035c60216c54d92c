import ProgramAnalysis.Lib.Loop

/-!
# Calls that go together but may throw other errors

* `Except.Alike`: results that are the same value, or errors in a relation `E`;
* `Outcome.Alike`: outcomes with such results and with related states all along;
* `Call.Matches`: calls with such outcomes from related states, with `bind`, `inTurn` and `loop`.
-/

namespace Lib

variable {ε δ σ τ α β : Type}

/-- The same value, or errors in `E`. -/
inductive Except.Alike (E : ε → δ → Prop) : Except ε α → Except δ α → Prop
  | ok (a : α) : Alike E (.ok a) (.ok a)
  | error {e : ε} {d : δ} : E e d → Alike E (.error e) (.error d)

namespace Except.Alike

variable {E : ε → δ → Prop} {x : Except ε α} {y : Except δ α} {f : α → Except ε β}
  {g : α → Except δ β}

theorem bind (h : Alike E x y) (hk : ∀ a, Alike E (f a) (g a)) : Alike E (x >>= f) (y >>= g) := by
  cases h with
  | ok a => exact hk a
  | error he => exact .error he

theorem ok_iff (h : Alike E x y) (a : α) : x = .ok a ↔ y = .ok a := by
  cases h with
  | ok b => simp
  | error _ => simp

/-- Errors that `E` matches only with each other. -/
theorem error_iff {e : ε} {d : δ} (h : Alike E x y) (hE : ∀ a b, E a b → (a = e ↔ b = d)) :
    x = .error e ↔ y = .error d := by
  cases h with
  | ok b => simp
  | error he => simpa using hE _ _ he

theorem mono {E' : ε → δ → Prop} (h : Alike E x y) (hE : ∀ e d, E e d → E' e d) : Alike E' x y := by
  cases h with
  | ok a => exact .ok a
  | error he => exact .error (hE _ _ he)

/-- Two results in one order or the other, where any two errors of a kind are alike. -/
theorem swap {S : ε → Prop} {γ : Type} {x x' : Except ε α} {y y' : Except ε β} {f : α → β → Except ε γ}
    (hx : Alike (fun e d => S e ∧ S d) x x') (hy : Alike (fun e d => S e ∧ S d) y y')
    (hf : ∀ a b, Alike (fun e d => S e ∧ S d) (f a b) (f a b)) :
    Alike (fun e d => S e ∧ S d) (x >>= fun a => y >>= fun b => f a b)
      (y' >>= fun b => x' >>= fun a => f a b) := by
  cases hx with
  | ok a =>
    cases hy with
    | ok b => exact hf a b
    | error he => exact .error he
  | error hx =>
    cases hy with
    | ok b => exact .error hx
    | error hy => exact .error ⟨hx.1, hy.2⟩

end Except.Alike

/-- Results alike, and related states all along. -/
structure Outcome.Alike (E : ε → δ → Prop) (R : σ → τ → Prop) (o : Outcome ε σ α)
    (o' : Outcome δ τ α) : Prop where
  result : Except.Alike E o.result o'.result
  final : R o.final o'.final
  visited : List.Forall₂ R o.visited o'.visited

/-- Outcomes in images of states. -/
theorem Outcome.Alike.of_images {σ' τ' : Type} {E : ε → δ → Prop} {R : σ → τ → Prop} {g : σ → σ'}
    {h : τ → τ'} {o : Outcome ε σ' α} {o' : Outcome δ τ' α} {c : Outcome ε σ α} {d : Outcome δ τ α}
    (ho : o.Related (fun s t => s = g t) c) (ho' : o'.Related (fun s t => s = h t) d)
    (hc : c.Alike E R d) : o.Alike E (fun s s' => ∃ t t', s = g t ∧ s' = h t' ∧ R t t') o' where
  result := ho.result ▸ ho'.result ▸ hc.result
  final := ⟨_, _, ho.final, ho'.final, hc.final⟩
  visited := by
    rw [ho.visited_eq_map, ho'.visited_eq_map]
    refine List.forall₂_map_left_iff.mpr (List.forall₂_map_right_iff.mpr ?_)
    exact hc.visited.imp fun s t hst => ⟨s, t, rfl, rfl, hst⟩

/-- From related states, the calls have outcomes that are alike. -/
def Call.Matches (E : ε → δ → Prop) (R : σ → τ → Prop) (m : Call ε σ α) (c : Call δ τ α) : Prop :=
  ∀ s t, R s t → (m s).Alike E R (c t)

namespace Call.Matches

variable {E : ε → δ → Prop} {R : σ → τ → Prop}

/-- A call matches itself, where the errors it throws match themselves. -/
theorem refl {E : ε → ε → Prop} (hE : ∀ e, E e e) (m : Call ε σ α) : Matches E Eq m m := by
  rintro s _ rfl
  refine ⟨?_, rfl, List.forall₂_same.mpr fun _ _ => rfl⟩
  rcases (m s).result with e | a
  · exact .error (hE e)
  · exact .ok a

theorem ret (a : α) : Matches E R (pure a : Call ε σ α) (pure a) := fun _ _ h => ⟨.ok a, h, .nil⟩

theorem fail {e : ε} {d : δ} (h : E e d) : Matches E R (Call.fail e : Call ε σ α) (Call.fail d) :=
  fun _ _ hst => ⟨.error h, hst, .nil⟩

theorem read {f : σ → Except ε α} {g : τ → Except δ α}
    (h : ∀ s t, R s t → Except.Alike E (f s) (g t)) : Matches E R (Call.read f) (Call.read g) :=
  fun s t hst => ⟨h s t hst, hst, .nil⟩

theorem write {f : σ → σ} {g : τ → τ} (h : ∀ s t, R s t → R (f s) (g t)) :
    Matches E R (Call.write f) (Call.write g) :=
  fun s t hst => ⟨.ok (), h s t hst, .cons (h s t hst) .nil⟩

/-- **Sequencing.** -/
theorem bind {m : Call ε σ α} {c : Call δ τ α} {k : α → Call ε σ β} {d : α → Call δ τ β}
    (hm : Matches E R m c) (hk : ∀ a, Matches E R (k a) (d a)) : Matches E R (m >>= k) (c >>= d) := by
  intro s t hst
  obtain ⟨hresult, hfinal, hvisited⟩ := hm s t hst
  rcases hr : (m s).result with e | a
  · rcases hr' : (c t).result with e' | b
    · rw [hr, hr'] at hresult
      cases hresult with
      | error he =>
        rw [Call.bind_of_error hr, Call.bind_of_error hr']
        exact ⟨.error he, hfinal, hvisited⟩
    · rw [hr, hr'] at hresult
      cases hresult
  · rw [Call.bind_of_ok hr, Call.bind_of_ok ((hresult.ok_iff a).mp hr)]
    have h := hk a _ _ hfinal
    exact ⟨h.result, h.final, List.rel_append hvisited h.visited⟩

theorem ite {p : Prop} [Decidable p] {m n : Call ε σ α} {c d : Call δ τ α} (hm : Matches E R m c)
    (hn : Matches E R n d) : Matches E R (if p then m else n) (if p then c else d) := by
  split_ifs
  · exact hm
  · exact hn

theorem inTurn {ms : List (Call ε σ Unit)} {cs : List (Call δ τ Unit)}
    (h : List.Forall₂ (Matches E R) ms cs) : Matches E R (Call.inTurn ms) (Call.inTurn cs) := by
  induction h with
  | nil => exact ret ()
  | cons hm _ ih => exact bind hm fun _ => ih

theorem loop {cut : ε} {cut' : δ} {cond : Call ε σ Bool} {body : Call ε σ Unit} {cond' : Call δ τ Bool}
    {body' : Call δ τ Unit} (hcut : E cut cut') (hcond : Matches E R cond cond')
    (hbody : Matches E R body body') (n : ℕ) :
    Matches E R (Call.loop cut cond body n) (Call.loop cut' cond' body' n) := by
  induction n with
  | zero => exact bind hcond fun b => ite (fail hcut) (ret ())
  | succ n ih => exact bind hcond fun b => ite (bind hbody fun _ => ih) (ret ())

end Call.Matches

end Lib
