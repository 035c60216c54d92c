import Mathlib.Order.WellFounded
import ProgramAnalysis.Lib.While

/-!
# Pre- and postconditions of structured programs

* `Valid`, `ValidTotal`: a program started in `P` never throws and only returns in `Q`; it does return;
* `Proves`: the proof rules; the relations a loop may descend along are a parameter, any relation at
  all for the first meaning, a well-founded one for the second;
* `Proves.valid`, `Proves.validTotal`: the rules are sound;
* `Transformer`, `Transformer.proves`: preconditions that the rules can prove;
* **`proves_iff_valid`**, **`proves_iff_validTotal`**: the rules prove exactly what is valid.
-/

namespace Lib

variable {α β ε σ : Type}

/-- A property of states. -/
abbrev Assertion (σ : Type) : Type := σ → Prop

section Meaning

variable (M : Primitives α β ε σ) (P : Assertion σ) (c : Com α β) (Q : Assertion σ)

/-- Started in `P`, the program does not throw, and where it returns, `Q` holds. -/
def Valid : Prop := ∀ s, P s → ∀ r t, Finishes M c s r t → r = .ok () ∧ Q t

/-- Started in `P`, the program returns, and then `Q` holds. -/
def ValidTotal : Prop := ∀ s, P s → ∃ t, Finishes M c s (.ok ()) t ∧ Q t

end Meaning

/-! ## Rules -/

/-- The proof rules. A loop keeps its invariant and goes down along one of the relations in `D`. -/
inductive Proves (M : Primitives α β ε σ) (D : (σ → σ → Prop) → Prop) :
    Assertion σ → Com α β → Assertion σ → Prop
  | skip (Q : Assertion σ) : Proves M D Q .skip Q
  | act (a : α) (Q : Assertion σ) : Proves M D (fun s => ∃ t, M.act a s = .ok t ∧ Q t) (.act a) Q
  | seq {c d P R Q} : Proves M D P c R → Proves M D R d Q → Proves M D P (.seq c d) Q
  | ite {b c d P Q} : (∀ s, P s → ∃ v, M.test b s = .ok v) →
    Proves M D (fun s => P s ∧ M.test b s = .ok true) c Q →
    Proves M D (fun s => P s ∧ M.test b s = .ok false) d Q → Proves M D P (.ite b c d) Q
  | loop {b c I} {R : σ → σ → Prop} : D R → (∀ s, I s → ∃ v, M.test b s = .ok v) →
    (∀ s, Proves M D (fun t => t = s ∧ I t ∧ M.test b t = .ok true) c (fun t => I t ∧ R t s)) →
    Proves M D I (.loop b c) (fun s => I s ∧ M.test b s = .ok false)
  | consequence {c} {P P' Q Q' : Assertion σ} : (∀ s, P' s → P s) → Proves M D P c Q →
    (∀ s, Q s → Q' s) → Proves M D P' c Q'

section Sound

variable {M : Primitives α β ε σ} {D : (σ → σ → Prop) → Prop} {P Q I : Assertion σ} {c d : Com α β}
  {b : β}

/-- The invariant of a loop at the end of it. -/
theorem Valid.loop (htest : ∀ s, I s → ∃ v, M.test b s = .ok v)
    (hbody : Valid M (fun t => I t ∧ M.test b t = .ok true) c I) :
    Valid M I (.loop b c) (fun s => I s ∧ M.test b s = .ok false) := by
  intro s hs r t h
  induction h using Finishes.loop_ind with
  | done s hfalse => exact ⟨rfl, hs, hfalse⟩
  | throws s e hthrows =>
    obtain ⟨v, hv⟩ := htest s hs
    cases hv.symm.trans hthrows
  | stops s e t htrue hc => cases (hbody s ⟨hs, htrue⟩ _ _ hc).1
  | round s t r u htrue hc _ ih => exact ih (hbody s ⟨hs, htrue⟩ _ _ hc).2

/-- **The rules are sound** for programs that may run forever. -/
theorem Proves.valid (h : Proves M D P c Q) : Valid M P c Q := by
  induction h with
  | skip Q =>
    intro s hs r t h
    cases h
    exact ⟨rfl, hs⟩
  | act a Q =>
    rintro s ⟨t, hact, hQ⟩ r u h
    cases h with
    | act hact' =>
      cases hact.symm.trans hact'
      exact ⟨rfl, hQ⟩
    | actThrows hact' => cases hact.symm.trans hact'
  | seq _ _ ihc ihd =>
    intro s hs r t h
    cases h with
    | seq hc hd => exact ihd _ (ihc _ hs _ _ hc).2 _ _ hd
    | seqThrows hc => cases (ihc _ hs _ _ hc).1
  | ite htest _ _ ihc ihd =>
    intro s hs r t h
    cases h with
    | @ite _ _ _ _ v _ _ hv hbranch =>
      cases v
      · exact ihd _ ⟨hs, hv⟩ _ _ hbranch
      · exact ihc _ ⟨hs, hv⟩ _ _ hbranch
    | iteThrows hthrows =>
      obtain ⟨v, hv⟩ := htest s hs
      cases hv.symm.trans hthrows
  | loop _ htest _ ih =>
    refine Valid.loop htest fun s hs r t h => ?_
    obtain ⟨hr, hI, -⟩ := ih s s ⟨rfl, hs⟩ r t h
    exact ⟨hr, hI⟩
  | consequence hP _ hQ ih =>
    intro s hs r t h
    exact (ih s (hP s hs) r t h).imp_right (hQ t)

/-- A loop that goes down along a well-founded relation ends. -/
theorem ValidTotal.loop {R : σ → σ → Prop} (hR : WellFounded R)
    (htest : ∀ s, I s → ∃ v, M.test b s = .ok v)
    (hbody : ∀ s, ValidTotal M (fun t => t = s ∧ I t ∧ M.test b t = .ok true) c
      (fun t => I t ∧ R t s)) :
    ValidTotal M I (.loop b c) (fun s => I s ∧ M.test b s = .ok false) := by
  intro s
  induction s using hR.induction with
  | _ s ih =>
    intro hs
    obtain ⟨v, hv⟩ := htest s hs
    cases v
    · exact ⟨s, .loopDone hv, hs, hv⟩
    · obtain ⟨t, hround, hI, hdown⟩ := hbody s s ⟨rfl, hs, hv⟩
      obtain ⟨u, hrest, hu⟩ := ih t hdown hI
      exact ⟨u, .loop hv (.seq hround hrest), hu⟩

/-- **The rules are sound** for programs that end, where loops go down along well-founded relations. -/
theorem Proves.validTotal (hD : ∀ R, D R → WellFounded R) (h : Proves M D P c Q) :
    ValidTotal M P c Q := by
  induction h with
  | skip Q => exact fun s hs => ⟨s, .skip s, hs⟩
  | act a Q => exact fun s ⟨t, hact, hQ⟩ => ⟨t, .act hact, hQ⟩
  | seq _ _ ihc ihd =>
    intro s hs
    obtain ⟨t, hc, ht⟩ := ihc s hs
    obtain ⟨u, hd, hu⟩ := ihd t ht
    exact ⟨u, .seq hc hd, hu⟩
  | ite htest _ _ ihc ihd =>
    intro s hs
    obtain ⟨v, hv⟩ := htest s hs
    cases v
    · obtain ⟨t, hd, ht⟩ := ihd s ⟨hs, hv⟩
      exact ⟨t, .ite hv hd, ht⟩
    · obtain ⟨t, hc, ht⟩ := ihc s ⟨hs, hv⟩
      exact ⟨t, .ite hv hc, ht⟩
  | loop hR htest _ ih => exact ValidTotal.loop (hD _ hR) htest ih
  | consequence hP _ hQ ih =>
    intro s hs
    obtain ⟨t, hc, ht⟩ := ih s (hP s hs)
    exact ⟨t, hc, hQ t ht⟩

end Sound

/-! ## Preconditions that the rules prove -/

/-- A precondition for every program and postcondition that splits along the rules. -/
structure Transformer (M : Primitives α β ε σ) (D : (σ → σ → Prop) → Prop) where
  pre : Com α β → Assertion σ → Assertion σ
  skip : ∀ {Q s}, pre .skip Q s → Q s
  act : ∀ {a Q s}, pre (.act a) Q s → ∃ t, M.act a s = .ok t ∧ Q t
  seq : ∀ {c d Q s}, pre (.seq c d) Q s → pre c (pre d Q) s
  test : ∀ {b c d Q s}, pre (.ite b c d) Q s → ∃ v, M.test b s = .ok v ∧ pre (if v then c else d) Q s
  /-- the relation a loop goes down along -/
  down : β → Com α β → σ → σ → Prop
  allowed : ∀ b c, D (down b c)
  round : ∀ {b c Q s}, pre (.loop b c) Q s → (M.test b s = .ok false ∧ Q s) ∨
    (M.test b s = .ok true ∧ pre c (fun t => pre (.loop b c) Q t ∧ down b c t s) s)

namespace Transformer

variable {M : Primitives α β ε σ} {D : (σ → σ → Prop) → Prop} (T : Transformer M D)

/-- **The rules prove its preconditions.** -/
theorem proves (c : Com α β) (Q : Assertion σ) : Proves M D (T.pre c Q) c Q := by
  induction c generalizing Q with
  | skip => exact .consequence (fun _ h => T.skip h) (.skip Q) fun _ h => h
  | act a => exact .consequence (fun _ h => T.act h) (.act a Q) fun _ h => h
  | seq c d ihc ihd => exact .consequence (fun _ h => T.seq h) (.seq (ihc _) (ihd Q)) fun _ h => h
  | ite b c d ihc ihd =>
    have hbranch : ∀ s v, T.pre (.ite b c d) Q s ∧ M.test b s = .ok v →
        T.pre (if v then c else d) Q s := by
      rintro s v ⟨h, hv⟩
      obtain ⟨w, hw, hpre⟩ := T.test h
      cases hv.symm.trans hw
      exact hpre
    refine .ite (fun s h => ?_) (.consequence (fun s h => hbranch s true h) (ihc Q) fun _ h => h)
      (.consequence (fun s h => hbranch s false h) (ihd Q) fun _ h => h)
    obtain ⟨v, hv, -⟩ := T.test h
    exact ⟨v, hv⟩
  | loop b c ih =>
    refine .consequence (fun s h => h) (.loop (T.allowed b c) (fun s h => ?_) fun s => ?_) ?_
    · rcases T.round h with ⟨hv, -⟩ | ⟨hv, -⟩
      · exact ⟨_, hv⟩
      · exact ⟨_, hv⟩
    · refine .consequence ?_ (ih _) fun _ h => h
      rintro t ⟨rfl, h, hv⟩
      rcases T.round h with ⟨hv', -⟩ | ⟨-, hround⟩
      · cases hv.symm.trans hv'
      · exact hround
    · rintro s ⟨h, hv⟩
      rcases T.round h with ⟨-, hQ⟩ | ⟨hv', -⟩
      · exact hQ
      · cases hv.symm.trans hv'

end Transformer

section Complete

variable (M : Primitives α β ε σ)

/-- What makes a program valid. -/
def Transformer.liberal : Transformer M fun _ => True where
  pre c Q s := Valid M (· = s) c Q
  skip {Q s} h := (h s rfl _ s (.skip s)).2
  act {a Q s} h := by
    rcases hact : M.act a s with e | t
    · cases (h s rfl _ s (.actThrows hact)).1
    · exact ⟨t, rfl, (h s rfl _ t (.act hact)).2⟩
  seq {c d Q s} h := by
    rintro _ rfl r t hc
    rcases r with e | u
    · cases (h _ rfl _ t (.seqThrows hc)).1
    · refine ⟨rfl, ?_⟩
      rintro _ rfl r u hd
      exact h _ rfl r u (.seq hc hd)
  test {b c d Q s} h := by
    rcases htest : M.test b s with e | v
    · cases (h s rfl _ s (.iteThrows htest)).1
    · refine ⟨v, rfl, ?_⟩
      rintro _ rfl r t hbranch
      exact h _ rfl r t (.ite htest hbranch)
  down _ _ _ _ := True
  allowed _ _ := trivial
  round {b c Q s} h := by
    rcases htest : M.test b s with e | v
    · cases (h s rfl _ s (.loopThrows htest)).1
    cases v
    · exact .inl ⟨rfl, (h s rfl _ s (.loopDone htest)).2⟩
    refine .inr ⟨rfl, ?_⟩
    rintro _ rfl r t hc
    rcases r with e | u
    · cases (h _ rfl _ t (.loop htest (.seqThrows hc))).1
    · refine ⟨rfl, ?_, trivial⟩
      rintro _ rfl r u hrest
      exact h _ rfl r u (.loop htest (.seq hc hrest))

/-- `t` comes after one more round of a loop that ends. -/
def NextRound (b : β) (c : Com α β) (t s : σ) : Prop :=
  M.test b s = .ok true ∧ Finishes M c s (.ok ()) t ∧ ∃ u, Finishes M (.loop b c) t (.ok ()) u

variable {M} in
/-- A loop that ends has finitely many rounds to come. -/
theorem nextRound_wellFounded (b : β) (c : Com α β) : WellFounded (NextRound M b c) := by
  have hends : ∀ {s r u}, Finishes M (.loop b c) s r u → Acc (NextRound M b c) s := by
    intro s r u h
    induction h using Finishes.loop_ind with
    | done s hfalse => exact .intro s fun t ht => by cases hfalse.symm.trans ht.1
    | throws s e hthrows => exact .intro s fun t ht => by cases hthrows.symm.trans ht.1
    | stops s e t htrue hc => exact .intro s fun t' ht => by cases (hc.unique ht.2.1).1
    | round s t r u htrue hc _ ih =>
      refine .intro s fun t' ht => ?_
      obtain ⟨-, rfl⟩ := hc.unique ht.2.1
      exact ih
  refine ⟨fun s => .intro s fun t ht => ?_⟩
  obtain ⟨-, -, u, hu⟩ := ht
  exact hends hu

/-- What makes a program valid and lets it end. -/
def Transformer.total : Transformer M WellFounded where
  pre c Q s := ValidTotal M (· = s) c Q
  skip {Q s} h := by
    obtain ⟨t, hskip, hQ⟩ := h s rfl
    cases hskip
    exact hQ
  act {a Q s} h := by
    obtain ⟨t, hact, hQ⟩ := h s rfl
    cases hact with
    | act hact => exact ⟨t, hact, hQ⟩
  seq {c d Q s} h := by
    rintro _ rfl
    obtain ⟨u, hseq, hQ⟩ := h _ rfl
    cases hseq with
    | @seq _ _ _ t _ _ hc hd => exact ⟨t, hc, fun _ ht => ht ▸ ⟨u, hd, hQ⟩⟩
  test {b c d Q s} h := by
    obtain ⟨t, hite, hQ⟩ := h s rfl
    cases hite with
    | ite htest hbranch => exact ⟨_, htest, fun _ hs => hs ▸ ⟨t, hbranch, hQ⟩⟩
  down := NextRound M
  allowed := nextRound_wellFounded
  round {b c Q s} h := by
    obtain ⟨u, hloop, hQ⟩ := h s rfl
    cases hloop with
    | loop htest hround =>
      cases hround with
      | @seq _ _ _ t _ _ hc hrest =>
        refine .inr ⟨htest, ?_⟩
        rintro _ rfl
        exact ⟨t, hc, fun _ ht => ht ▸ ⟨u, hrest, hQ⟩, htest, hc, u, hrest⟩
    | loopDone htest => exact .inl ⟨htest, hQ⟩

variable {M} {P Q : Assertion σ} {c : Com α β}

/-- **The rules prove exactly what is valid.** -/
theorem proves_iff_valid : Proves M (fun _ => True) P c Q ↔ Valid M P c Q := by
  refine ⟨Proves.valid, fun h => ?_⟩
  refine .consequence (fun s hs => ?_) ((Transformer.liberal M).proves c Q) fun _ h => h
  rintro _ rfl
  exact h _ hs

/-- **With well-founded descent, the rules prove exactly what is valid and ends.** -/
theorem proves_iff_validTotal : Proves M WellFounded P c Q ↔ ValidTotal M P c Q := by
  refine ⟨Proves.validTotal fun _ hR => hR, fun h => ?_⟩
  refine .consequence (fun s hs => ?_) ((Transformer.total M).proves c Q) fun _ h => h
  rintro _ rfl
  exact h _ hs

end Complete

end Lib
