import ProgramAnalysis.Typecheck.Returns

/-!
# The arrangement of sequences

What the order, the repetition and the grouping of the elements of a sequence are to the typechecker.

* `Statement.elements`: a statement with its sequences and its bare blocks taken apart;
* `Statement.Arranged`: the same elements, each in some arrangement of its own parts;
* `stmtTypes_elements`: a statement has the types of its elements;
* `Statement.Arranged.stmtTypes_eq`, **`arrangement_irrelevant`**: the arrangement does not matter.
-/

namespace ProgramAnalysis.Typecheck

open Lib

mutual

/-- The elements of a statement: nested sequences are flattened, and a block without declarations stands
for its statement. -/
def Statement.elements : Statement → List Statement
  | .sequence statements => elementsOf statements
  | .block [] statement => statement.elements
  | s => [s]

def elementsOf : List Statement → List Statement
  | [] => []
  | s :: ss => s.elements ++ elementsOf ss

end

/-- One statement is an arrangement of another: the elements of each are, up to the arrangement of their
own parts, elements of the other. -/
inductive Statement.Arranged : Statement → Statement → Prop
  | refl (s) : Arranged s s
  | branch (c) {t t' e e'} (ht : Arranged t t') (he : Arranged e e') :
    Arranged (.branch c t e) (.branch c t' e')
  | loop (c) {b b'} (hb : Arranged b b') : Arranged (.loop c b) (.loop c b')
  | block (ds) {s s'} (hs : Arranged s s') : Arranged (.block ds s) (.block ds s')
  | elements {s t} (forth back : Statement → Statement)
    (hforth : ∀ a ∈ s.elements, forth a ∈ t.elements)
    (harranged : ∀ a ∈ s.elements, Arranged a (forth a))
    (hback : ∀ b ∈ t.elements, back b ∈ s.elements)
    (harranged' : ∀ b ∈ t.elements, Arranged (back b) b) : Arranged s t

/-- Statements with the same set of elements. -/
theorem Statement.Arranged.of_elements {s t : Statement} (h : ∀ u, u ∈ s.elements ↔ u ∈ t.elements) :
    s.Arranged t :=
  .elements id id (fun a ha => (h a).mp ha) (fun a _ => .refl a) (fun b hb => (h b).mpr hb)
    fun b _ => .refl b

section Types

variable {Γ : Context}

theorem seqTypes_singleton (s : Statement) : seqTypes Γ [s] = stmtTypes Γ s := by
  rw [seqTypes, seqTypes]
  cases stmtTypes Γ s <;> simp

theorem seqTypes_append (ss ts : List Statement) : seqTypes Γ (ss ++ ts) =
    (seqTypes Γ ss).bind fun T => (seqTypes Γ ts).map fun U => T ∪ U := by
  induction ss with
  | nil => simp [seqTypes]
  | cons s ss ih =>
    rw [List.cons_append, seqTypes, seqTypes, ih]
    cases stmtTypes Γ s <;> cases seqTypes Γ ss <;> cases seqTypes Γ ts <;>
      simp [Finset.union_assoc]

theorem seqTypes_elementsOf {ss : List Statement}
    (h : ∀ s ∈ ss, stmtTypes Γ s = seqTypes Γ s.elements) :
    seqTypes Γ ss = seqTypes Γ (elementsOf ss) := by
  induction ss with
  | nil => rfl
  | cons s ss ih =>
    obtain ⟨hs, hss⟩ := List.forall_mem_cons.mp h
    rw [elementsOf, seqTypes_append, seqTypes, hs, ih hss]

/-- **A statement has the types of its elements.** -/
theorem stmtTypes_elements (s : Statement) : stmtTypes Γ s = seqTypes Γ s.elements := by
  induction s using Statement.ind with
  | sequence ss ih =>
    rw [stmtTypes, Statement.elements]
    exact seqTypes_elementsOf ih
  | block ds s ih =>
    cases ds with
    | nil =>
      rw [stmtTypes, Statement.elements, Declarations.names_nil, if_pos List.nodup_nil,
        Context.declare_nil]
      exact ih
    | cons d ds => exact (seqTypes_singleton _).symm
  | skip => exact (seqTypes_singleton _).symm
  | assignment x e => exact (seqTypes_singleton _).symm
  | branch c t e => exact (seqTypes_singleton _).symm
  | loop c b => exact (seqTypes_singleton _).symm
  | ret e => exact (seqTypes_singleton _).symm

/-- Every statement of the one list has the types of some statement of the other. -/
def CoveredBy (Γ : Context) (ss ts : List Statement) : Prop :=
  ∀ s ∈ ss, ∃ t ∈ ts, stmtTypes Γ s = stmtTypes Γ t

theorem seqTypes_of_covered {ss ts : List Statement} (h : CoveredBy Γ ss ts) (h' : CoveredBy Γ ts ss)
    {types : Finset Ty} (hss : seqTypes Γ ss = some types) : seqTypes Γ ts = some types := by
  have hall := seqTypes_isSome_iff.mp (Option.isSome_of_eq_some hss)
  have hts : (seqTypes Γ ts).isSome := seqTypes_isSome_iff.mpr fun t ht => by
    obtain ⟨s, hs, he⟩ := h' t ht
    exact he ▸ hall s hs
  obtain ⟨types', htypes'⟩ := Option.isSome_iff_exists.mp hts
  rw [htypes']
  refine congrArg some (Finset.ext fun T => ?_)
  rw [mem_seqTypes_iff htypes', mem_seqTypes_iff hss]
  constructor
  · rintro ⟨t, ht, U, hU, hT⟩
    obtain ⟨s, hs, he⟩ := h' t ht
    exact ⟨s, hs, U, he ▸ hU, hT⟩
  · rintro ⟨s, hs, U, hU, hT⟩
    obtain ⟨t, ht, he⟩ := h s hs
    exact ⟨t, ht, U, he ▸ hU, hT⟩

/-- A sequence has the types of the set of its elements. -/
theorem seqTypes_eq_of_covered {ss ts : List Statement} (h : CoveredBy Γ ss ts)
    (h' : CoveredBy Γ ts ss) : seqTypes Γ ss = seqTypes Γ ts :=
  Option.ext fun _ => ⟨seqTypes_of_covered h h', seqTypes_of_covered h' h⟩

/-- **Arrangements have the same types.** -/
theorem Statement.Arranged.stmtTypes_eq {s t : Statement} (h : s.Arranged t) :
    stmtTypes Γ s = stmtTypes Γ t := by
  induction h generalizing Γ with
  | refl s => rfl
  | branch c _ _ iht ihe => rw [stmtTypes, stmtTypes, iht, ihe]
  | loop c _ ih => rw [stmtTypes, stmtTypes, ih]
  | block ds _ ih => rw [stmtTypes, stmtTypes, ih]
  | elements forth back hforth _ hback _ ih ih' =>
    rw [stmtTypes_elements, stmtTypes_elements]
    refine seqTypes_eq_of_covered (fun a ha => ⟨forth a, hforth a ha, ih a ha⟩) fun b hb => ?_
    exact ⟨back b, hback b hb, (ih' b hb).symm⟩

end Types

/-- **The arrangement of a sequence is irrelevant.** Two sequences with the same set of elements, at any
depth, are accepted alike, with the same types. -/
theorem arrangement_irrelevant (σ : Typechecker) {ss ts : List Statement}
    (h : (Statement.sequence ss).Arranged (.sequence ts)) (types : Finset Ty) :
    (typecheckStatement (.sequence ss) σ).result = .ok types ↔
      (typecheckStatement (.sequence ts) σ).result = .ok types := by
  rw [typecheckStatement_ok_iff, typecheckStatement_ok_iff, h.stmtTypes_eq]

/-- `skip; return 1; skip` and `return 1; { { skip } }`. -/
theorem arrangement_irrelevant_bare_blocks :
    let one : Statement := .ret (.num 1)
    (typecheckStatement (.sequence [.skip, one, .skip]) Typechecker.new).result =
        .ok {.NIL, .INT} ↔
      (typecheckStatement (.sequence [one, .block [] (.block [] .skip)]) Typechecker.new).result =
        .ok {.NIL, .INT} := by
  intro one
  refine arrangement_irrelevant Typechecker.new (.of_elements fun u => ?_) _
  show u ∈ [.skip, one, .skip] ↔ u ∈ [one, .skip]
  simp only [List.mem_cons, List.not_mem_nil, or_false]
  tauto

end ProgramAnalysis.Typecheck
