import ProgramAnalysis.Typecheck.Names

/-!
# What a throw leaves behind

A throw does not pop the scopes that were pushed nor remove a signature that was added.

* `LaterAgree`: later checks that avoid what was left give the verdicts of the state before;
* `Statement.FirstViolated.unique`, `Statement.LeavesAt.unique`, `FunctionDefinition.LeavesAt.unique`: what
  is left is determined;
* **`throw_leaves`**: the state after a throw, and the checks it does not affect.
-/

namespace ProgramAnalysis.Typecheck

open Lib

/-- Checks from `τ` have the verdicts of checks from `σ`, as long as no free variable of theirs is in
a table of `p` and they neither call nor define a function of `fs`. -/
def LaterAgree (σ τ : Typechecker) (p : Env Ty) (fs : List String) : Prop :=
  (∀ s : Statement, (∀ x ∈ s.freeVars, ∀ T ∈ p, x ∉ T) → (∀ g ∈ s.calls, g ∉ fs) →
    (typecheckStatement s τ).result.toOption = (typecheckStatement s σ).result.toOption) ∧
  (∀ f : FunctionDefinition, (∀ x ∈ f.freeVars, ∀ T ∈ p, x ∉ T) →
    (∀ g ∈ f.name :: f.calls, g ∉ fs) →
      (typecheckFunctionDef f τ).result.toOption = (typecheckFunctionDef f σ).result.toOption)

theorem toOption_eq_of_iff {ε : Type} {r r' : Except ε Unit} (h : r = .ok () ↔ r' = .ok ()) :
    r.toOption = r'.toOption := by
  rcases r with e | u <;> rcases r' with e' | u'
  · rfl
  · exact absurd (h.mpr rfl) (by simp)
  · exact absurd (h.mp rfl) (by simp)
  · rfl

theorem laterAgree_of_agreeOn {σ τ : Typechecker} {p : Env Ty} {fs : List String}
    (hvar : ∀ x, (∀ T ∈ p, x ∉ T) → τ.context.var x = σ.context.var x)
    (hfn : ∀ g, g ∉ fs → τ.context.fn g = σ.context.fn g) : LaterAgree σ τ p fs := by
  refine ⟨fun s hs hc => ?_, fun f hs hc => toOption_eq_of_iff ?_⟩
  · rw [(typecheckStatement_settles s τ).verdict, (typecheckStatement_settles s σ).verdict]
    exact stmtTypes_congr ⟨fun x hx => hvar x (hs x hx), fun g hg => hfn g (hc g hg)⟩
  · rw [(typecheckFunctionDef_returns f τ).iff, (typecheckFunctionDef_returns f σ).iff]
    exact accepted_congr ⟨fun x hx => hvar x (hs x hx), fun g hg => hfn g (hc g hg)⟩

theorem laterAgree_push (σ : Typechecker) (p : Env Ty) : LaterAgree σ (σ.push p) p [] :=
  laterAgree_of_agreeOn (fun _ hx => resolve_append_of_forall_notMem hx) fun _ _ => rfl

theorem laterAgree_register (σ : Typechecker) (f : FunctionDefinition) (p : Env Ty) :
    LaterAgree σ ((σ.register f).push p) p [f.name] := by
  refine laterAgree_of_agreeOn (fun _ hx => resolve_append_of_forall_notMem hx) fun g hg => ?_
  change (σ.register f).context.fn g = _
  rw [context_register, Context.define]
  exact if_neg (fun h => hg (List.mem_singleton.mpr h))

/-! ## What is left is determined -/

/-- A list is split in one way before its first element that does not satisfy `p`. -/
theorem split_unique {α : Type} {p : α → Prop} {as bs cs ds : List α} {a c : α}
    (h : as ++ a :: bs = cs ++ c :: ds) (has : ∀ x ∈ as, p x) (ha : ¬ p a) (hcs : ∀ x ∈ cs, p x)
    (hc : ¬ p c) : as = cs ∧ a = c := by
  induction as generalizing cs with
  | nil =>
    cases cs with
    | nil => exact ⟨rfl, (List.cons.inj h).1⟩
    | cons x cs => exact absurd ((List.cons.inj h).1 ▸ hcs x List.mem_cons_self) ha
  | cons x as ih =>
    cases cs with
    | nil => exact absurd ((List.cons.inj h).1 ▸ has x List.mem_cons_self) hc
    | cons y cs =>
      obtain ⟨rfl, htail⟩ := List.cons.inj h
      obtain ⟨rfl, rfl⟩ := ih htail (fun z hz => has z (List.mem_cons_of_mem _ hz))
        (fun z hz => hcs z (List.mem_cons_of_mem _ hz))
      exact ⟨rfl, rfl⟩

section Unique

variable {Γ : Context} {s t t' : Statement} {B B' : List Declarations}

/-- The first violated node stands in the statement, and is violated. -/
theorem Statement.FirstViolated.occurs (h : s.FirstViolated Γ B t) :
    s.Occurs B t ∧ ¬ t.Okay (Γ.within B) := by
  induction h with
  | self h => exact ⟨.refl _, h⟩
  | thenStatement _ _ ih => exact ⟨.thenStatement ih.1, ih.2⟩
  | elseStatement _ _ _ ih => exact ⟨.elseStatement ih.1, ih.2⟩
  | body _ _ ih => exact ⟨.body ih.1, ih.2⟩
  | element _ _ ih => exact ⟨.element (List.mem_append_right _ List.mem_cons_self) ih.1, ih.2⟩
  | inside _ _ ih => exact ⟨.inside ih.1, Context.within_concat .. ▸ ih.2⟩

theorem Statement.FirstViolated.not_constraintsHold (h : s.FirstViolated Γ B t) :
    ¬ s.ConstraintsHold Γ := fun hall => h.occurs.2 (hall B t h.occurs.1)

theorem firstViolated_sequence {ss : List Statement}
    (h : Statement.FirstViolated (.sequence ss) Γ B t) : ∃ done s rest, ss = done ++ s :: rest ∧
      (∀ u ∈ done, u.ConstraintsHold Γ) ∧ s.FirstViolated Γ B t := by
  generalize hv : Statement.sequence ss = v at h
  cases h with
  | self h =>
    subst hv
    exact absurd (okay_sequence _ _) h
  | element hdone hs =>
    cases hv
    exact ⟨_, _, _, rfl, hdone, hs⟩
  | _ => cases hv

/-- **There is one first violated node.** -/
theorem Statement.FirstViolated.unique (h : s.FirstViolated Γ B t) (h' : s.FirstViolated Γ B' t') :
    B = B' ∧ t = t' := by
  induction h generalizing B' t' with
  | @self Γ s hs =>
    cases h' with
    | self => exact ⟨rfl, rfl⟩
    | element => exact absurd (okay_sequence _ _) hs
    | thenStatement hok | elseStatement hok | body hok | inside hok => exact absurd hok hs
  | thenStatement hok ht ih =>
    cases h' with
    | self h => exact absurd hok h
    | thenStatement _ ht' => exact ih ht'
    | elseStatement _ hall => exact absurd hall ht.not_constraintsHold
  | elseStatement hok hall _ ih =>
    cases h' with
    | self h => exact absurd hok h
    | thenStatement _ ht' => exact absurd hall ht'.not_constraintsHold
    | elseStatement _ _ he' => exact ih he'
  | body hok _ ih =>
    cases h' with
    | self h => exact absurd hok h
    | body _ hb' => exact ih hb'
  | element hdone hs ih =>
    obtain ⟨done', s', rest', hsplit, hdone', hs'⟩ := firstViolated_sequence h'
    obtain ⟨-, rfl⟩ := split_unique hsplit hdone hs.not_constraintsHold hdone' hs'.not_constraintsHold
    exact ih hs'
  | inside hok _ ih =>
    cases h' with
    | self h => exact absurd hok h
    | inside _ hs' =>
      obtain ⟨rfl, rfl⟩ := ih hs'
      exact ⟨rfl, rfl⟩

theorem mem_into_iff {ds : Declarations} (h : (Declarations.names ds).Nodup) {x : String} :
    x ∈ Declarations.into ds ∅ ↔ x ∈ Declarations.names ds := by
  rw [← not_iff_not, ← Finmap.lookup_eq_none, lookup_into (freshIn_empty.mpr h), Finmap.lookup_empty,
    Option.or_none, Declarations.typeOf_eq_none_iff]

/-- The declaration that a scope stops at repeats one of those before it. -/
theorem Declarations.StopsAfter.repeats {ds done : Declarations}
    (h : Declarations.StopsAfter ds ∅ done) : ∃ d rest, ds = done ++ d :: rest ∧
      (Declarations.names done).Nodup ∧ ∀ more, ¬ (Declarations.names (done ++ d :: more)).Nodup := by
  obtain ⟨d, rest, hds, hfresh, hd⟩ := h
  have hnodup := freshIn_empty.mp hfresh
  have hmem := (mem_into_iff hnodup).mp hd
  refine ⟨d, rest, hds, hnodup, fun more => ?_⟩
  rw [Declarations.names, List.map_append, List.map_cons, List.nodup_middle]
  exact fun hnodup => (List.nodup_cons.mp hnodup).1 (List.mem_append_left _ hmem)

theorem not_nodup_of_stopsAfter {ds done : Declarations} (h : Declarations.StopsAfter ds ∅ done) :
    ¬ (Declarations.names ds).Nodup := by
  obtain ⟨d, rest, rfl, -, hrepeats⟩ := h.repeats
  exact hrepeats rest

/-- No longer list stops there as well. -/
theorem stopsAfter_le {ds done more : Declarations} (h : Declarations.StopsAfter ds ∅ done)
    (h' : Declarations.StopsAfter ds ∅ (done ++ more)) : more = [] := by
  obtain ⟨d, rest, hds, -, hrepeats⟩ := h.repeats
  obtain ⟨d', rest', hds', hnodup, -⟩ := h'.repeats
  cases more with
  | nil => rfl
  | cons b more =>
    rw [hds, List.append_assoc] at hds'
    cases (List.cons.inj (List.append_cancel_left hds')).1
    exact absurd hnodup (hrepeats more)

theorem stopsAfter_unique {ds done done' : Declarations} (h : Declarations.StopsAfter ds ∅ done)
    (h' : Declarations.StopsAfter ds ∅ done') : done = done' := by
  obtain ⟨d, rest, hds, -⟩ := id h
  obtain ⟨d', rest', hds', -⟩ := id h'
  rcases List.append_eq_append_iff.mp (hds.symm.trans hds') with ⟨more, rfl, -⟩ | ⟨more, rfl, -⟩
  · rw [stopsAfter_le h h', List.append_nil]
  · rw [stopsAfter_le h' h, List.append_nil]

/-- **What a throw leaves is determined** by the statement and the state of the start. -/
theorem Statement.LeavesAt.unique {σ τ τ' : Typechecker} (h : s.LeavesAt σ τ) (h' : s.LeavesAt σ τ') :
    τ = τ' := by
  obtain ⟨B, t, own, hfirst, hown, rfl⟩ := h
  obtain ⟨B', t', own', hfirst', hown', rfl⟩ := h'
  obtain ⟨rfl, rfl⟩ := hfirst.unique hfirst'
  have hsame : own = own' := by
    cases t with
    | block ds u =>
      obtain ⟨done, hdone, rfl⟩ := hown
      obtain ⟨done', hdone', rfl⟩ := hown'
      rw [stopsAfter_unique hdone hdone']
    | _ => exact hown.trans hown'.symm
  rw [hsame]

theorem Statement.LeavesAt.not_constraintsHold {σ τ : Typechecker} (h : s.LeavesAt σ τ) :
    ¬ s.ConstraintsHold σ.context := by
  obtain ⟨B, t, own, hfirst, -, -⟩ := h
  exact hfirst.not_constraintsHold

/-- A body that throws has no types. -/
theorem not_both_of_leavesAt {f : FunctionDefinition} {σ τ : Typechecker} {types : Finset Ty}
    (hnd : (Declarations.names f.parameters).Nodup)
    (h : f.body.toStatement.LeavesAt (σ.push [Declarations.into f.parameters ∅]) τ) :
    stmtTypes (σ.context.declare f.parameters) f.body.toStatement ≠ some types := by
  intro htypes
  have hnot := h.not_constraintsHold
  rw [context_push_into hnd, ← stmtTypes_isSome_iff, htypes] at hnot
  exact hnot rfl

/-- **So is what a definition leaves.** -/
theorem FunctionDefinition.LeavesAt.unique {f : FunctionDefinition} {σ τ τ' : Typechecker}
    (h : f.LeavesAt σ τ) (h' : f.LeavesAt σ τ') : τ = τ' := by
  rcases h with ⟨done, hdone, rfl⟩ | ⟨hnd, h⟩
  · rcases h' with ⟨done', hdone', rfl⟩ | ⟨hnd', -⟩
    · rw [stopsAfter_unique hdone hdone']
    · exact absurd hnd' (not_nodup_of_stopsAfter hdone)
  rcases h' with ⟨done', hdone', -⟩ | ⟨-, h'⟩
  · exact absurd hnd (not_nodup_of_stopsAfter hdone')
  rcases h with h | ⟨⟨types, htypes, -⟩, rfl⟩
  · rcases h' with h' | ⟨⟨types', htypes', -⟩, -⟩
    · exact h.unique h'
    · exact absurd htypes' (not_both_of_leavesAt hnd h)
  · rcases h' with h' | ⟨-, rfl⟩
    · exact absurd htypes (not_both_of_leavesAt hnd h')
    · rfl

end Unique

/-! ## The state after a throw -/

/-- **What a throw leaves.** A statement that throws leaves the functions and the scopes of the start
alone, below the scopes of the blocks around the first violated node, and that of the node itself if it is
a block, with the declarations before the repeated one. A definition that throws leaves everything alone
if its name was taken; otherwise it leaves its signature, and the scope of its parameters, up to a repeated
one, below what its body leaves. Checks that avoid the names left behind are not affected. -/
theorem throw_leaves (σ : Typechecker) :
    (∀ s e, (typecheckStatement s σ).result = .error e →
      s.LeavesAt σ (typecheckStatement s σ).final) ∧
    (∀ f e, (typecheckFunctionDef f σ).result = .error e →
      (f.name ∈ σ.functionEnv ∧ (typecheckFunctionDef f σ).final = σ) ∨
      (f.name ∉ σ.functionEnv ∧ f.LeavesAt (σ.register f) (typecheckFunctionDef f σ).final)) ∧
    (∀ p, LaterAgree σ (σ.push p) p []) ∧
    (∀ f p, LaterAgree σ ((σ.register f).push p) p [f.name]) := by
  refine ⟨fun s e h => (typecheckStatement_settles s σ).left e h, fun f e h => ?_,
    laterAgree_push σ, laterAgree_register σ⟩
  by_cases hf : f.name ∈ σ.functionEnv
  · exact .inl ⟨hf, by rw [typecheckFunctionDef_of_mem hf]⟩
  · obtain ⟨o, ho, hs⟩ := typecheckFunctionDef_of_notMem hf
    rw [ho] at h ⊢
    exact .inr ⟨hf, hs.left e h⟩

/-- A block that assigns to an undeclared variable leaves its scope behind, and the assignment to
the variable it declared is accepted from then on. -/
theorem block_throw_not_undone :
    let s : Statement := .block [⟨"y", .INT⟩] (.assignment "z" (.num 1))
    let later : Statement := .assignment "y" (.num 1)
    let τ := (typecheckStatement s Typechecker.new).final
    (typecheckStatement s Typechecker.new).result = .error (.string "Variable z not found.") ∧
      τ.valueEnv ≠ Typechecker.new.valueEnv ∧
      (typecheckStatement later Typechecker.new).result =
        .error (.string "Variable y not found.") ∧
      (typecheckStatement later τ).result = .ok {.NIL} := by
  refine ⟨rfl, ?_, rfl, rfl⟩
  intro h
  exact absurd (congrArg List.length h) (by decide)

end ProgramAnalysis.Typecheck
