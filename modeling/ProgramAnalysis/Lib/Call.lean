import Mathlib.Data.List.Basic

/-!
# Calls that may throw and keep the state they reach

A call on an object returns or throws. In both cases the object stays as the call left it: a throw
undoes nothing. An `Outcome` records the result, the state left behind and every state written on
the way; `Call` is the monad of such calls.

* `Call.read`, `Call.write`, `Call.update`, `Call.fail`: the primitive calls;
* `Call.Gives`: the result of a call and the state it leaves, with `bind`;
* `Outcome.Settles`: the specification of a call that puts its state back when it returns, with its
  rules `read`, `bind`, `mono` and `bracket`;
* `Outcome.Yields`: the result of a call that puts its state back when it returns, with `bind`;
* `Outcome.Returns`: the specification of a call by when it returns and where it ends, with `seq`;
* `Outcome.Grows`: every state of a call is related to all later ones, with `bind`.
-/

namespace Lib

/-! ## Results -/

section Results

variable {ε α β : Type} {x : Except ε α} {f : α → Except ε β}

theorem bind_eq_ok_iff {b : β} : (x >>= f) = .ok b ↔ ∃ a, x = .ok a ∧ f a = .ok b := by
  cases x <;> simp [bind, Except.bind]

theorem bind_eq_error_iff {e : ε} :
    (x >>= f) = .error e ↔ x = .error e ∨ ∃ a, x = .ok a ∧ f a = .error e := by
  cases x <;> simp [bind, Except.bind]

theorem map_eq_ok_iff {g : α → β} {b : β} : x.map g = .ok b ↔ ∃ a, x = .ok a ∧ g a = b := by
  cases x <;> simp [Except.map]

theorem map_eq_error_iff {g : α → β} {e : ε} : x.map g = .error e ↔ x = .error e := by
  cases x <;> simp [Except.map]

end Results

/-! ## Calls -/

/-- How a call ends: its result, the state it leaves, and the states written on the way. -/
structure Outcome (ε σ α : Type) where
  result : Except ε α
  final : σ
  visited : List σ

/-- A call from a state. -/
def Call (ε σ α : Type) : Type := σ → Outcome ε σ α

namespace Call

variable {ε σ α β : Type}

/-- Return a value. -/
def ret (a : α) : Call ε σ α := fun s => ⟨.ok a, s, []⟩

/-- Throw. -/
def fail (e : ε) : Call ε σ α := fun s => ⟨.error e, s, []⟩

/-- Compute from the state without writing it. -/
def read (f : σ → Except ε α) : Call ε σ α := fun s => ⟨f s, s, []⟩

/-- Write the state. -/
def write (f : σ → σ) : Call ε σ Unit := fun s => ⟨.ok (), f s, [f s]⟩

/-- Write a state that may be refused: a refusal throws and writes nothing. -/
def update (f : σ → Except ε σ) : Call ε σ Unit := fun s =>
  match f s with
  | .ok t => ⟨.ok (), t, [t]⟩
  | .error e => ⟨.error e, s, []⟩

/-- Continue a call that returned; a call that threw is left as it is. -/
def andThen (m : Call ε σ α) (k : α → Call ε σ β) : Call ε σ β := fun s =>
  match m s with
  | ⟨.error e, t, v⟩ => ⟨.error e, t, v⟩
  | ⟨.ok a, t, v⟩ => ⟨(k a t).result, (k a t).final, v ++ (k a t).visited⟩

instance : Monad (Call ε σ) where
  pure := ret
  bind := andThen

@[simp] theorem pure_apply (a : α) (s : σ) : (pure a : Call ε σ α) s = ⟨.ok a, s, []⟩ := rfl

@[simp] theorem fail_apply (e : ε) (s : σ) : (fail e : Call ε σ α) s = ⟨.error e, s, []⟩ := rfl

@[simp] theorem read_apply (f : σ → Except ε α) (s : σ) : read f s = ⟨f s, s, []⟩ := rfl

@[simp] theorem write_apply (f : σ → σ) (s : σ) :
    (write f : Call ε σ Unit) s = ⟨.ok (), f s, [f s]⟩ := rfl

theorem bind_of_ok {m : Call ε σ α} {s : σ} {a : α} (h : (m s).result = .ok a)
    (k : α → Call ε σ β) : (m >>= k) s = ⟨(k a (m s).final).result, (k a (m s).final).final,
      (m s).visited ++ (k a (m s).final).visited⟩ := by
  change andThen m k s = _
  rw [andThen]
  rcases hm : m s with ⟨r, t, v⟩
  rw [hm] at h
  simp only at h
  subst h
  rfl

theorem bind_of_error {m : Call ε σ α} {s : σ} {e : ε} (h : (m s).result = .error e)
    (k : α → Call ε σ β) : (m >>= k) s = ⟨.error e, (m s).final, (m s).visited⟩ := by
  change andThen m k s = _
  rw [andThen]
  rcases hm : m s with ⟨r, t, v⟩
  rw [hm] at h
  simp only at h
  subst h
  rfl

theorem update_of_ok {f : σ → Except ε σ} {s t : σ} (h : f s = .ok t) :
    (update f : Call ε σ Unit) s = ⟨.ok (), t, [t]⟩ := by
  simp only [update, h]

theorem update_of_error {f : σ → Except ε σ} {s : σ} {e : ε} (h : f s = .error e) :
    (update f : Call ε σ Unit) s = ⟨.error e, s, []⟩ := by
  simp only [update, h]

theorem bind_assoc' (m : Call ε σ α) (k : α → Call ε σ β) {γ : Type} (l : β → Call ε σ γ) :
    (m >>= k) >>= l = m >>= fun a => k a >>= l := by
  funext s
  change andThen (andThen m k) l s = andThen m (fun a => andThen (k a) l) s
  simp only [andThen]
  rcases m s with ⟨e | a, t, v⟩
  · rfl
  · rcases hk : k a t with ⟨e | b, t', v'⟩ <;> simp [hk]

/-- Two reads are one. -/
theorem read_bind_read (f : σ → Except ε α) (g : α → σ → Except ε β) :
    (read f >>= fun a => read (g a)) = read fun s => f s >>= fun a => g a s := by
  funext s
  rcases hf : f s with e | a
  · rw [bind_of_error (by rw [read_apply, hf])]
    simp only [read_apply, hf]
    rfl
  · rw [bind_of_ok (by rw [read_apply, hf])]
    simp only [read_apply, hf]
    rfl

instance : LawfulMonad (Call ε σ) :=
  LawfulMonad.mk' _
    (fun m => funext fun s => by
      change andThen m ret s = m s
      rw [andThen]
      rcases m s with ⟨e | a, t, v⟩ <;> simp [ret])
    (fun a k => funext fun s => by
      change andThen (ret a) k s = k a s
      simp [andThen, ret])
    (fun m k l => bind_assoc' m k l)

end Call

/-! ## How a call ends -/

/-- The call from `s` has the result `r` and leaves `t`. -/
structure Call.Gives {ε σ α : Type} (m : Call ε σ α) (s : σ) (r : Except ε α) (t : σ) : Prop where
  result : (m s).result = r
  final : (m s).final = t

namespace Call.Gives

variable {ε σ α β : Type} {m : Call ε σ α} {k : α → Call ε σ β} {s t u : σ}

theorem read (f : σ → Except ε α) (s : σ) : Gives (Call.read f) s (f s) s := ⟨rfl, rfl⟩

theorem write (f : σ → σ) (s : σ) : Gives (Call.write f : Call ε σ Unit) s (.ok ()) (f s) :=
  ⟨rfl, rfl⟩

theorem bind {a : α} {r : Except ε β} (hm : m.Gives s (.ok a) t) (hk : (k a).Gives t r u) :
    (m >>= k).Gives s r u := by
  constructor
  · rw [bind_of_ok hm.result, hm.final, hk.result]
  · rw [bind_of_ok hm.result, hm.final, hk.final]

theorem bind_error {e : ε} (hm : m.Gives s (.error e) t) : (m >>= k).Gives s (.error e) t := by
  constructor
  · rw [bind_of_error hm.result]
  · rw [bind_of_error hm.result, hm.final]

end Call.Gives

/-! ## Calls that settle -/

section Settles

variable {ε σ α β : Type}

/-- A call from `s` has verdict `v`; it ends in `s` when it returns and in a state of `Left` when it
throws, and every state it writes is related to `s` by `R`. -/
structure Outcome.Settles (R : σ → σ → Prop) (Left : σ → Prop) (s : σ) (v : Option α)
    (o : Outcome ε σ α) : Prop where
  verdict : o.result.toOption = v
  restored : ∀ a, o.result = .ok a → o.final = s
  left : ∀ e, o.result = .error e → Left o.final
  passes : ∀ t ∈ o.visited, R s t

theorem toOption_eq_some_iff {r : Except ε α} {a : α} : r.toOption = some a ↔ r = .ok a := by
  cases r <;> simp [Except.toOption]

namespace Outcome.Settles

variable {R : σ → σ → Prop} {Left Left' : σ → Prop} {s : σ} {v : Option α}

theorem mono {o : Outcome ε σ α} (h : o.Settles R Left s v)
    (hL : v = none → ∀ t, Left t → Left' t) : o.Settles R Left' s v where
  verdict := h.verdict
  restored := h.restored
  left e he := hL (by rw [← h.verdict, he]; rfl) _ (h.left e he)
  passes := h.passes

theorem ret {a : α} : Settles R Left s (some a) ((Call.ret a : Call ε σ α) s) where
  verdict := rfl
  restored _ _ := rfl
  left _ h := by cases h
  passes _ h := absurd h List.not_mem_nil

/-- A call that only reads leaves the state alone, whether it returns or throws. -/
theorem read {f : σ → Except ε α} (hf : (f s).toOption = v) :
    Settles R (fun t => t = s) s v (Call.read f s) where
  verdict := hf
  restored _ _ := rfl
  left _ _ := rfl
  passes _ h := absurd h List.not_mem_nil

/-- **Sequencing.** The second call starts where the first one put the state back. -/
theorem bind {m : Call ε σ α} {k : α → Call ε σ β} {w : α → Option β}
    (hm : (m s).Settles R Left s v)
    (hk : ∀ a, v = some a → (k a s).Settles R Left s (w a)) :
    ((m >>= k) s).Settles R Left s (v.bind w) := by
  rcases hr : (m s).result with e | a
  · rw [Call.bind_of_error hr]
    have hv : v = none := by rw [← hm.verdict, hr]; rfl
    subst hv
    exact ⟨rfl, fun _ h => (by cases h), fun _ _ => hm.left e hr, hm.passes⟩
  · rw [Call.bind_of_ok hr, hm.restored a hr]
    have hv : v = some a := by rw [← hm.verdict, hr]; rfl
    subst hv
    have h := hk a rfl
    refine ⟨h.verdict, h.restored, h.left, fun t ht => ?_⟩
    rcases List.mem_append.mp ht with ht | ht
    · exact hm.passes t ht
    · exact h.passes t ht

/-- **Bracketing.** Move to another state, run a call that settles there, and write the first state
back. -/
theorem bracket {enter : Call ε σ Unit} {leave : Call ε σ Unit} {m : Call ε σ α}
    (hok : (enter s).result = .ok ()) (hpass : ∀ t ∈ (enter s).visited, R s t)
    (hR : ∀ t, R (enter s).final t → R s t) (hRs : R s s)
    (hm : (m (enter s).final).Settles R Left (enter s).final v)
    (hleave : leave (enter s).final = ⟨.ok (), s, [s]⟩) :
    ((do enter; let a ← m; leave; pure a) s).Settles R Left s v := by
  rw [Call.bind_of_ok hok]
  rcases hr : (m (enter s).final).result with e | a
  · rw [Call.bind_of_error hr]
    have hv : v = none := by rw [← hm.verdict, hr]; rfl
    subst hv
    refine ⟨rfl, fun _ h => (by cases h), fun _ _ => hm.left e hr, fun t ht => ?_⟩
    rcases List.mem_append.mp ht with ht | ht
    · exact hpass t ht
    · exact hR t (hm.passes t ht)
  · rw [Call.bind_of_ok hr, hm.restored a hr, Call.bind_of_ok (a := ()) (by rw [hleave])]
    have hv : v = some a := by rw [← hm.verdict, hr]; rfl
    subst hv
    simp only [Call.pure_apply, hleave]
    refine ⟨rfl, fun _ _ => rfl, fun _ h => (by cases h), fun t ht => ?_⟩
    simp only [List.mem_append, List.mem_singleton, List.not_mem_nil, or_false] at ht
    rcases ht with ht | ht | rfl
    · exact hpass t ht
    · exact hR t (hm.passes t ht)
    · exact hRs

end Outcome.Settles

end Settles

/-! ## Calls with a result that leave the state -/

section Yields

variable {ε σ α β : Type} {s : σ}

/-- A call from `s` has the result `r`, and ends in `s` when it returns. -/
structure Outcome.Yields (s : σ) (r : Except ε α) (o : Outcome ε σ α) : Prop where
  result : o.result = r
  restored : ∀ a, r = .ok a → o.final = s

namespace Outcome.Yields

theorem ret (a : α) : Yields s (.ok a) ((pure a : Call ε σ α) s) := ⟨rfl, fun _ _ => rfl⟩

theorem fail (e : ε) : Yields s (.error e) ((Call.fail e : Call ε σ α) s) := ⟨rfl, nofun⟩

theorem read {f : σ → Except ε α} {r : Except ε α} (h : f s = r) : Yields s r (Call.read f s) :=
  ⟨h, fun _ _ => rfl⟩

/-- **Sequencing.** -/
theorem bind {m : Call ε σ α} {k : α → Call ε σ β} {r : Except ε α} {g : α → Except ε β}
    (hm : (m s).Yields s r) (hk : ∀ a, r = .ok a → (k a s).Yields s (g a)) :
    ((m >>= k) s).Yields s (r >>= g) := by
  rcases r with e | a
  · rw [Call.bind_of_error hm.result]
    exact ⟨rfl, nofun⟩
  · rw [Call.bind_of_ok hm.result, hm.restored a rfl]
    exact ⟨(hk a rfl).result, (hk a rfl).restored⟩

end Outcome.Yields

end Yields

/-! ## Calls that return on a condition -/

section Returns

variable {ε σ α : Type}

/-- A call returns exactly when `p` holds, and then ends in `t`. -/
structure Outcome.Returns (p : Prop) (t : σ) (o : Outcome ε σ Unit) : Prop where
  iff : o.result = .ok () ↔ p
  final : o.result = .ok () → o.final = t

namespace Outcome.Returns

variable {p q : Prop} {s t u : σ}

theorem of_ok {o : Outcome ε σ Unit} (hp : p) (hr : o.result = .ok ()) (hf : o.final = t) :
    o.Returns p t := ⟨iff_of_true hr hp, fun _ => hf⟩

theorem of_error {o : Outcome ε σ Unit} {e : ε} (hp : ¬ p) (hr : o.result = .error e) :
    o.Returns p t :=
  ⟨⟨fun h => (by rw [hr] at h; cases h), fun h => absurd h hp⟩, fun h => (by rw [hr] at h; cases h)⟩

/-- A call that settles returns exactly when it has a verdict. -/
theorem of_settles {R : σ → σ → Prop} {Left : σ → Prop} {v : Option α} {m : Call ε σ α}
    (h : (m s).Settles R Left s v) : ((do let _ ← m : Call ε σ Unit) s).Returns v.isSome s := by
  rcases hr : (m s).result with e | a
  · refine of_error ?_ (by rw [Call.bind_of_error hr])
    rw [← h.verdict, hr]
    exact Bool.noConfusion
  · refine of_ok ?_ (by rw [Call.bind_of_ok hr]; rfl) ?_
    · rw [← h.verdict, hr]
      rfl
    · rw [Call.bind_of_ok hr]
      exact h.restored a hr

/-- **Sequencing.** -/
theorem seq {m k : Call ε σ Unit} (hm : (m s).Returns p t) (hk : p → (k t).Returns q u) :
    ((do m; k) s).Returns (p ∧ q) u := by
  rcases hr : (m s).result with e | a
  · exact of_error (fun h => by rw [hm.iff.mpr h.1] at hr; cases hr) (by rw [Call.bind_of_error hr])
  · have hp := hm.iff.mp hr
    have h := hk hp
    rw [Call.bind_of_ok hr, hm.final hr]
    exact ⟨h.iff.trans ⟨fun hq => ⟨hp, hq⟩, fun hpq => hpq.2⟩, h.final⟩

end Outcome.Returns

end Returns

/-! ## Calls whose states grow -/

section Grows

variable {ε σ α β : Type}

/-- Every state of the call, from the first to the last, is related by `R` to all later ones. -/
def Outcome.Grows (R : σ → σ → Prop) (s : σ) (o : Outcome ε σ α) : Prop :=
  (s :: o.visited ++ [o.final]).Pairwise R

namespace Outcome.Grows

variable {R : σ → σ → Prop} {s : σ}

theorem of_still (hrefl : ∀ s, R s s) {r : Except ε α} : Grows R s (⟨r, s, []⟩ : Outcome ε σ α) :=
  List.pairwise_pair.mpr (hrefl s)

theorem update (hrefl : ∀ s, R s s) {f : σ → Except ε σ} (hf : ∀ t, f s = .ok t → R s t) :
    Grows R s ((Call.update f : Call ε σ Unit) s) := by
  rcases h : f s with e | t
  · rw [Call.update_of_error h]
    exact of_still hrefl
  · rw [Call.update_of_ok h]
    simp [Grows, hf t h, hrefl t]

/-- **Sequencing.** -/
theorem bind (htrans : ∀ s t u, R s t → R t u → R s u) {m : Call ε σ α} {k : α → Call ε σ β}
    (hm : (m s).Grows R s) (hk : ∀ a, (k a (m s).final).Grows R (m s).final) :
    ((m >>= k) s).Grows R s := by
  rcases hr : (m s).result with e | a
  · rw [Call.bind_of_error hr]
    exact hm
  · rw [Call.bind_of_ok hr]
    obtain ⟨hfirst, -, hreach⟩ := List.pairwise_append.mp hm
    obtain ⟨hleave, hsecond⟩ := List.pairwise_cons.mp (hk a)
    rw [Grows, ← List.cons_append, List.append_assoc, List.pairwise_append]
    refine ⟨hfirst, hsecond, fun t ht u hu => ?_⟩
    exact htrans t (m s).final u (hreach t ht _ (List.mem_singleton.mpr rfl)) (hleave u hu)

end Outcome.Grows

end Grows

end Lib
