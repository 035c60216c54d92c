import Mathlib.Data.Finset.Card
import ProgramAnalysis.Typecheck.Functions

/-!
# The return types of a function

The types of a statement are those of its returns, with `NIL` for its assignments and skips. The
test at the end of a definition looks at this set only.

* `Statement.leafType`, `Statement.Contributes`: what the leaves of a statement contribute;
* **`mem_stmtTypes_iff`**, **`mem_types_iff`**: the types of a statement are what its leaves
  contribute: those of its returns, and `NIL` for an assignment or a skip;
* `ReturnTypeSound`, `FunctionDefinition.Mixes`, **`returnTypeSound_iff`**: an accepted definition
  returns its declared type everywhere, unless its leaves mix it with exactly one other type.
-/

namespace ProgramAnalysis.Typecheck

open Lib

/-! ## What the leaves contribute -/

/-- The type a leaf contributes: that of its expression, or `NIL` if it goes on. -/
def Statement.leafType (Γ : Context) : Statement → Option Ty
  | .skip => some .NIL
  | .assignment _ _ => some .NIL
  | .ret e => e.type Γ
  | _ => none

/-- Some leaf of the statement contributes the type `T`. -/
def Statement.Contributes (Γ : Context) (s : Statement) (T : Ty) : Prop :=
  s.Somewhere (fun Δ t => t.leafType Δ = some T) Γ

/-- A return of type `T` occurs in the statement. -/
def Statement.HasReturn (Γ : Context) (s : Statement) (T : Ty) : Prop :=
  ∃ B e, s.Occurs B (.ret e) ∧ e.type (Γ.within B) = some T

theorem Statement.HasReturn.contributes {Γ : Context} {s : Statement} {T : Ty} :
    s.HasReturn Γ T → s.Contributes Γ T :=
  fun ⟨B, e, ho, hT⟩ => ⟨B, .ret e, ho, hT⟩

theorem mem_seqTypes_iff {Γ : Context} {ss : List Statement} {types : Finset Ty} {T : Ty}
    (h : seqTypes Γ ss = some types) :
    T ∈ types ↔ ∃ s ∈ ss, ∃ U, stmtTypes Γ s = some U ∧ T ∈ U := by
  induction ss generalizing types with
  | nil =>
    obtain rfl := Option.some.inj h
    simp
  | cons s ss ih =>
    rw [seqTypes] at h
    obtain ⟨U, hU, h⟩ := Option.bind_eq_some_iff.mp h
    obtain ⟨V, hV, rfl⟩ := Option.map_eq_some_iff.mp h
    rw [Finset.mem_union, ih hV]
    simp [hU]

/-- **The types of a statement are exactly what its leaves contribute.** -/
theorem mem_stmtTypes_iff {Γ : Context} {s : Statement} {types : Finset Ty} {T : Ty}
    (h : stmtTypes Γ s = some types) : T ∈ types ↔ s.Contributes Γ T := by
  unfold Statement.Contributes
  induction s using Statement.ind generalizing Γ types with
  | skip =>
    obtain rfl := Option.some.inj h
    simp [somewhere_skip, Statement.leafType, eq_comm]
  | assignment x e =>
    rw [stmtTypes, Option.ite_none_right_eq_some] at h
    obtain rfl := Option.some.inj h.2
    simp [somewhere_assignment, Statement.leafType, eq_comm]
  | branch c t e iht ihe =>
    rw [stmtTypes, Option.ite_none_right_eq_some] at h
    obtain ⟨U, hU, h⟩ := Option.bind_eq_some_iff.mp h.2
    obtain ⟨V, hV, rfl⟩ := Option.map_eq_some_iff.mp h
    rw [somewhere_branch, Finset.mem_union, iht hU, ihe hV]
    simp [Statement.leafType]
  | loop c b ih =>
    rw [stmtTypes, Option.ite_none_right_eq_some] at h
    rw [somewhere_loop, ih h.2]
    simp [Statement.leafType]
  | sequence ss ih =>
    rw [stmtTypes] at h
    have hall := seqTypes_isSome_iff.mp (Option.isSome_of_eq_some h)
    rw [somewhere_sequence, mem_seqTypes_iff h, or_iff_right (by simp [Statement.leafType])]
    refine exists_congr fun s => and_congr_right fun hs => ?_
    obtain ⟨U, hU⟩ := Option.isSome_iff_exists.mp (hall s hs)
    rw [← ih s hs hU]
    simp [hU]
  | block ds s ih =>
    rw [stmtTypes, Option.ite_none_right_eq_some] at h
    rw [somewhere_block, ih h.2]
    simp [Statement.leafType]
  | ret e =>
    rw [stmtTypes] at h
    obtain ⟨U, hU, rfl⟩ := Option.map_eq_some_iff.mp h
    rw [somewhere_ret, Finset.mem_singleton, Statement.leafType, (exprType_eq_some_iff.mp hU).2,
      Option.some.injEq]
    exact eq_comm

/-- An assignment or a skip occurs in the statement. -/
def Statement.HasStep (s : Statement) : Prop :=
  ∃ B t, s.Occurs B t ∧ (t = .skip ∨ ∃ x e, t = .assignment x e)

theorem contributes_iff {Γ : Context} {s : Statement} {T : Ty} :
    s.Contributes Γ T ↔ s.HasReturn Γ T ∨ T = .NIL ∧ s.HasStep := by
  constructor
  · rintro ⟨B, t, ho, ht⟩
    cases t with
    | skip => exact .inr ⟨(Option.some.inj ht).symm, B, _, ho, .inl rfl⟩
    | assignment x e => exact .inr ⟨(Option.some.inj ht).symm, B, _, ho, .inr ⟨x, e, rfl⟩⟩
    | ret e => exact .inl ⟨B, e, ho, ht⟩
    | branch c t e => cases ht
    | loop c b => cases ht
    | sequence ss => cases ht
    | block ds s => cases ht
  · rintro (h | ⟨rfl, B, t, ho, rfl | ⟨x, e, rfl⟩⟩)
    · exact h.contributes
    · exact ⟨B, _, ho, rfl⟩
    · exact ⟨B, _, ho, rfl⟩

/-- **The type set of a statement.** When a check returns, its types are those of the returns in the
statement, each in the scope where it stands, and `NIL` if there is an assignment or a skip. -/
theorem mem_types_iff {σ : Typechecker} {s : Statement} {types : Finset Ty}
    (h : (typecheckStatement s σ).result = .ok types) (T : Ty) :
    T ∈ types ↔ s.HasReturn σ.context T ∨ T = .NIL ∧ s.HasStep := by
  have hverdict := (typecheckStatement_settles s σ).verdict
  rw [h] at hverdict
  rw [mem_stmtTypes_iff hverdict.symm, contributes_iff]

/-- A loop over a return and a skip, with `b` a `BOOL`. -/
theorem mem_types_loop :
    let s : Statement := .loop (.var "b") (.sequence [.ret (.var "b"), .skip])
    let σ : Typechecker := ⟨[Declarations.into [⟨"b", .BOOL⟩] ∅], ∅⟩
    (typecheckStatement s σ).result = .ok {.BOOL, .NIL} ∧
      (Ty.BOOL ∈ ({.BOOL, .NIL} : Finset Ty) ↔
        s.HasReturn σ.context .BOOL ∨ Ty.BOOL = .NIL ∧ s.HasStep) :=
  ⟨rfl, mem_types_iff rfl .BOOL⟩

/-! ## Return types of accepted definitions -/

/-- The context of a function body. -/
def FunctionDefinition.inside (Γ : Context) (f : FunctionDefinition) : Context :=
  (Γ.define f).declare f.parameters

/-- If the definition is accepted, then every return in its body returns the declared type in the
scope where it stands. -/
def ReturnTypeSound (σ : Typechecker) (f : FunctionDefinition) : Prop :=
  (typecheckFunctionDef f σ).result = .ok () → ∀ B e, f.body.toStatement.Occurs B (.ret e) →
    e.type ((f.inside σ.context).within B) = some f.returnType

/-- The definition meets every other condition, and its leaves contribute exactly two types: the
declared one and another one that some return has. -/
def FunctionDefinition.Mixes (Γ : Context) (f : FunctionDefinition) : Prop :=
  Γ.fn f.name = none ∧ (Declarations.names f.parameters).Nodup ∧
    f.body.toStatement.ConstraintsHold (f.inside Γ) ∧
      ∃ T, T ≠ f.returnType ∧ f.body.toStatement.HasReturn (f.inside Γ) T ∧
        ∀ U, f.body.toStatement.Contributes (f.inside Γ) U ↔ U = T ∨ U = f.returnType

theorem bodyTypes_eq_some_iff {Γ : Context} {f : FunctionDefinition} {types : Finset Ty} :
    f.bodyTypes Γ = some types ↔ (Declarations.names f.parameters).Nodup ∧
      stmtTypes (f.inside Γ) f.body.toStatement = some types := by
  rw [FunctionDefinition.bodyTypes, Option.ite_none_right_eq_some]
  rfl

/-- Two members fill a set of at most two. -/
theorem eq_or_eq_of_card_le_two {α : Type} [DecidableEq α] {s : Finset α} {a b : α}
    (hs : s.card ≤ 2) (ha : a ∈ s) (hb : b ∈ s) (hab : a ≠ b) {c : α} (hc : c ∈ s) :
    c = a ∨ c = b := by
  have hsub : ({a, b} : Finset α) ⊆ s := by
    intro x hx
    rcases Finset.mem_insert.mp hx with rfl | hx
    · exact ha
    · exact Finset.mem_singleton.mp hx ▸ hb
  have heq := Finset.eq_of_subset_of_card_le hsub (by rw [Finset.card_pair hab]; exact hs)
  rw [← heq, Finset.mem_insert, Finset.mem_singleton] at hc
  exact hc

/-- Two types are few enough for the test. -/
theorem FunctionDefinition.Mixes.accepted {Γ : Context} {f : FunctionDefinition} (h : f.Mixes Γ) :
    f.Accepted Γ := by
  obtain ⟨hname, hparams, hcons, T, -, -, hleaves⟩ := h
  obtain ⟨types, htypes⟩ := Option.isSome_iff_exists.mp (stmtTypes_isSome_iff.mpr hcons)
  have hmem : ∀ U, U ∈ types ↔ U = T ∨ U = f.returnType := fun U => by
    rw [mem_stmtTypes_iff htypes, hleaves]
  have hsub : types ⊆ {T, f.returnType} := fun U hU => by
    rw [Finset.mem_insert, Finset.mem_singleton]
    exact (hmem U).mp hU
  have hcard : types.card ≤ 2 := (Finset.card_le_card hsub).trans Finset.card_le_two
  exact ⟨hname, types, bodyTypes_eq_some_iff.mpr ⟨hparams, htypes⟩, hcard, (hmem _).mpr (.inr rfl)⟩

/-- A return of another type takes the one place beside the declared type. -/
theorem FunctionDefinition.Accepted.mixes {Γ : Context} {f : FunctionDefinition} {T : Ty}
    (h : f.Accepted Γ) (hT : T ≠ f.returnType)
    (hreturn : f.body.toStatement.HasReturn (f.inside Γ) T) : f.Mixes Γ := by
  obtain ⟨hname, types, htypes, hcard, hdecl⟩ := h
  obtain ⟨hparams, htypes⟩ := bodyTypes_eq_some_iff.mp htypes
  have hcons := stmtTypes_isSome_iff.mp (Option.isSome_of_eq_some htypes)
  have hTmem : T ∈ types := (mem_stmtTypes_iff htypes).mpr hreturn.contributes
  refine ⟨hname, hparams, hcons, T, hT, hreturn, fun U => ?_⟩
  rw [← mem_stmtTypes_iff htypes]
  constructor
  · exact fun hU => eq_or_eq_of_card_le_two hcard hTmem hdecl hT hU
  · rintro (rfl | rfl)
    · exact hTmem
    · exact hdecl

/-- Every return of an accepted definition has a type. -/
theorem FunctionDefinition.Accepted.return_type {Γ : Context} {f : FunctionDefinition}
    (h : f.Accepted Γ) {B : List Declarations} {e : Expression}
    (ho : f.body.toStatement.Occurs B (.ret e)) : ∃ T, e.type ((f.inside Γ).within B) = some T := by
  obtain ⟨-, types, htypes, -, -⟩ := h
  have hcons := stmtTypes_isSome_iff.mp
    (Option.isSome_of_eq_some (bodyTypes_eq_some_iff.mp htypes).2)
  obtain ⟨T, hT⟩ := Option.isSome_iff_exists.mp (okay_ret_iff.mp (hcons B _ ho))
  exact ⟨T, (exprType_eq_some_iff.mp hT).2⟩

/-- **Accepted definitions return their declared type everywhere, except those that mix it with
exactly one other type.** -/
theorem returnTypeSound_iff (σ : Typechecker) (f : FunctionDefinition) :
    ReturnTypeSound σ f ↔ ¬ f.Mixes σ.context := by
  have hret := (typecheckFunctionDef_returns f σ).iff
  unfold ReturnTypeSound
  rw [hret]
  constructor
  · intro hsound hmix
    have hacc := hmix.accepted
    obtain ⟨-, -, -, T, hT, ⟨B, e, ho, he⟩, -⟩ := hmix
    have hdecl := hsound hacc B e ho
    rw [he] at hdecl
    exact hT (Option.some.inj hdecl)
  · intro hmix hacc B e ho
    obtain ⟨T, he⟩ := hacc.return_type ho
    rw [he]
    by_contra hne
    have hT : T ≠ f.returnType := fun h => hne (by rw [h])
    exact hmix (hacc.mixes hT ⟨B, e, ho, he⟩)

/-- `INT f() { if (1 == 1) return 1; else return; }` is accepted. -/
theorem mixed_returns_accepted :
    let f : FunctionDefinition := ⟨"f", .INT, [], ⟨[], .branch
      (.binary .EqualExpression (.num 1) (.num 1)) (.ret (.num 1)) (.ret .empty)⟩⟩
    (typecheckFunctionDef f Typechecker.new).result = .ok () ∧
      f.body.toStatement.Occurs [[]] (.ret .empty) ∧
        Expression.type ((f.inside Typechecker.new.context).within [[]]) .empty ≠
          some f.returnType := by
  refine ⟨rfl, ?_, by decide⟩
  exact .inside (B := []) (.elseStatement (.refl _))

end ProgramAnalysis.Typecheck
