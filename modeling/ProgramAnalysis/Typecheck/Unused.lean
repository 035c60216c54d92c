import ProgramAnalysis.Typecheck.Order

/-!
# Declarations that nothing uses

* `Program.keep`: a program with some of its globals and definitions only;
* `Program.Closed`: what is kept uses nothing else;
* `defsAccepted_keep`: a list of definitions, and the ones kept;
* **`unused_irrelevant`**: acceptance with the declarations that are not used and without them, and the
  environments.
-/

namespace ProgramAnalysis.Typecheck

open Lib

variable (V F : String → Bool)

/-- The definitions of `F`. -/
def kept (fs : List FunctionDefinition) : List FunctionDefinition := fs.filter fun f => F f.name

/-- The program with the globals of `V` and the definitions of `F` only. -/
def Program.keep (P : Program) : Program :=
  { P with
    declarations := P.declarations.filter fun d => V d.getVariable
    functionDefs := kept F P.functionDefs }

/-- A definition uses variables of `V` and calls functions of `F` only. -/
structure FunctionDefinition.Uses (f : FunctionDefinition) : Prop where
  vars : ∀ x ∈ f.freeVars, V x
  calls : ∀ g ∈ f.calls, F g

/-- The statement and the definitions of `F` use variables of `V` and call functions of `F` only. -/
structure Program.Closed (P : Program) : Prop where
  vars : ∀ x ∈ P.statement.freeVars, V x
  calls : ∀ g ∈ P.statement.calls, F g
  definitions : ∀ f ∈ P.functionDefs, F f.name → f.Uses V F

/-- Contexts of a program and of what is kept of it. -/
structure Context.Kept (Γ Δ : Context) : Prop where
  var : ∀ x, Δ.var x = if V x then Γ.var x else none
  fn : ∀ g, Δ.fn g = if F g then Γ.fn g else none

variable {V F} {Γ Δ : Context} {f : FunctionDefinition} {fs : List FunctionDefinition} {P : Program}

theorem kept_cons_of_pos (hf : F f.name) : kept F (f :: fs) = f :: kept F fs :=
  List.filter_cons_of_pos hf

theorem kept_cons_of_neg (hf : ¬ F f.name) : kept F (f :: fs) = kept F fs :=
  List.filter_cons_of_neg hf

namespace Context.Kept

theorem agreeOn (h : Γ.Kept V F Δ) {vs gs : List String} (hv : ∀ x ∈ vs, V x) (hg : ∀ g ∈ gs, F g) :
    Γ.AgreeOn Δ vs gs :=
  ⟨fun x hx => by rw [h.var, if_pos (hv x hx)], fun g hm => by rw [h.fn, if_pos (hg g hm)]⟩

theorem define_both (h : Γ.Kept V F Δ) (hf : F f.name) : (Γ.define f).Kept V F (Δ.define f) := by
  refine ⟨h.var, fun g => ?_⟩
  by_cases hg : g = f.name
  · rw [hg, define_fn_self, define_fn_self, if_pos hf]
  · rw [define_fn_of_ne hg, define_fn_of_ne hg, h.fn]

theorem define_left (h : Γ.Kept V F Δ) (hf : ¬ F f.name) : (Γ.define f).Kept V F Δ := by
  refine ⟨h.var, fun g => ?_⟩
  rw [h.fn]
  split_ifs with hg
  · rw [define_fn_of_ne fun he => hf (he ▸ hg)]
  · rfl

theorem defineAll (h : Γ.Kept V F Δ) (fs : List FunctionDefinition) :
    (Γ.defineAll fs).Kept V F (Δ.defineAll (kept F fs)) := by
  induction fs generalizing Γ Δ with
  | nil => exact h
  | cons f fs ih =>
    by_cases hf : F f.name
    · rw [kept_cons_of_pos hf]
      exact ih (h.define_both hf)
    · rw [kept_cons_of_neg hf]
      exact ih (h.define_left hf)

end Context.Kept

/-- **The verdict on the definitions**: on those kept, and on the others one by one. -/
theorem defsAccepted_keep (h : Γ.Kept V F Δ) (hfs : ∀ f ∈ fs, F f.name → f.Uses V F) :
    DefsAccepted Γ fs ↔ DefsAccepted Δ (kept F fs) ∧
      ∀ i (hi : i < fs.length), ¬ F fs[i].name → fs[i].Accepted (Γ.defineAll (fs.take i)) := by
  induction fs generalizing Γ Δ with
  | nil => exact ⟨fun _ => ⟨trivial, fun i hi => absurd hi (Nat.not_lt_zero i)⟩, fun _ => trivial⟩
  | cons f fs ih =>
    obtain ⟨hf, hrest⟩ := List.forall_mem_cons.mp hfs
    have hothers : (∀ i (hi : i < (f :: fs).length), ¬ F (f :: fs)[i].name →
          (f :: fs)[i].Accepted (Γ.defineAll ((f :: fs).take i))) ↔
        (¬ F f.name → f.Accepted Γ) ∧ ∀ i (hi : i < fs.length), ¬ F fs[i].name →
          fs[i].Accepted ((Γ.define f).defineAll (fs.take i)) := by
      constructor
      · intro hall
        exact ⟨hall 0 (Nat.succ_pos _), fun i hi => hall (i + 1) (Nat.succ_lt_succ hi)⟩
      · rintro ⟨hzero, hsucc⟩ i hi
        cases i with
        | zero => exact hzero
        | succ i => exact hsucc i (Nat.lt_of_succ_lt_succ hi)
    rw [DefsAccepted, hothers]
    by_cases hkeep : F f.name
    · have hsame : f.Accepted Γ ↔ f.Accepted Δ := by
        refine accepted_congr (h.agreeOn (hf hkeep).vars fun g hg => ?_)
        rcases List.mem_cons.mp hg with rfl | hg
        · exact hkeep
        · exact (hf hkeep).calls g hg
      rw [kept_cons_of_pos hkeep, DefsAccepted, hsame, ih (h.define_both hkeep) hrest]
      tauto
    · rw [kept_cons_of_neg hkeep, ih (h.define_left hkeep) hrest]
      tauto

/-! ## Programs -/

theorem typeOf_keep (V : String → Bool) (ds : Declarations) (x : String) :
    Declarations.typeOf (ds.filter fun d => V d.getVariable) x =
      if V x then Declarations.typeOf ds x else none := by
  induction ds with
  | nil => simp
  | cons d ds ih =>
    rw [List.filter_cons, Declarations.typeOf_cons]
    by_cases hd : d.getVariable = x
    · rw [if_pos hd, ← hd]
      split_ifs
      · rw [Declarations.typeOf_cons, if_pos rfl]
      · rw [← hd] at ih
        rw [ih, if_neg ‹_›]
    · rw [if_neg hd, ← ih]
      split_ifs
      · rw [Declarations.typeOf_cons, if_neg hd]
      · rfl

theorem globals_kept (P : Program) : P.globals.Kept V F (P.keep V F).globals := by
  refine ⟨fun x => ?_, fun g => (ite_self _).symm⟩
  show (Declarations.typeOf _ x).or none = if V x then (Declarations.typeOf _ x).or none else none
  rw [Option.or_none, Option.or_none]
  exact typeOf_keep V P.declarations x

/-- The names are different when those kept are, and the others. -/
theorem nodup_names_keep (V : String → Bool) (ds : Declarations) : (Declarations.names ds).Nodup ↔
    (Declarations.names (ds.filter fun d => V d.getVariable)).Nodup ∧
      (Declarations.names (ds.filter fun d => !V d.getVariable)).Nodup := by
  have hperm := (List.filter_append_perm (fun d : Declaration => V d.getVariable) ds).map
    Declaration.getVariable
  rw [List.map_append] at hperm
  unfold Declarations.names
  rw [← hperm.nodup_iff, List.nodup_append]
  refine ⟨fun h => ⟨h.1, h.2.1⟩, fun h => ⟨h.1, h.2, fun x hx y hy hxy => ?_⟩⟩
  obtain ⟨d, hd, rfl⟩ := List.mem_map.mp hx
  obtain ⟨d', hd', rfl⟩ := List.mem_map.mp hy
  have hV := (List.mem_filter.mp hd).2
  have hV' := (List.mem_filter.mp hd').2
  rw [← hxy, hV] at hV'
  cases hV'

/-- What is not kept of a program passes its own checks. -/
structure Program.OthersAccepted (V F : String → Bool) (P : Program) : Prop where
  globals : (Declarations.names (P.declarations.filter fun d => !V d.getVariable)).Nodup
  definitions : ∀ i (h : i < P.functionDefs.length), ¬ F P.functionDefs[i].name →
    P.functionDefs[i].Accepted (P.globals.defineAll (P.functionDefs.take i))

theorem accepted_keep (h : P.Closed V F) :
    P.Accepted ↔ (P.keep V F).Accepted ∧ P.OthersAccepted V F := by
  have hglobals : P.globals.Kept V F (P.keep V F).globals := globals_kept P
  have hstatement : stmtTypes (P.globals.defineAll P.functionDefs) P.statement =
      stmtTypes ((P.keep V F).globals.defineAll (P.keep V F).functionDefs) P.statement :=
    stmtTypes_congr ((hglobals.defineAll P.functionDefs).agreeOn h.vars h.calls)
  unfold Program.Accepted
  rw [nodup_names_keep V, defsAccepted_keep hglobals h.definitions, hstatement]
  constructor
  · rintro ⟨⟨hkept, hrest⟩, ⟨hdefs, hothers⟩, hstmt⟩
    exact ⟨⟨hkept, hdefs, hstmt⟩, hrest, hothers⟩
  · rintro ⟨⟨hkept, hdefs, hstmt⟩, hrest, hothers⟩
    exact ⟨⟨hkept, hrest⟩, ⟨hdefs, hothers⟩, hstmt⟩

theorem environments_context (h : P.Accepted) :
    P.environments.context = P.globals.defineAll P.functionDefs := by
  rw [Program.environments, context_registerAll]
  exact congrArg (fun Γ : Context => Γ.defineAll P.functionDefs) (context_push_into h.1 ⟨[], ∅⟩)

/-- **Declarations that nothing uses are irrelevant.** Let the statement of a program, and the definitions
of `F`, use variables of `V` and functions of `F` only. The program is accepted exactly when it is so
with these globals and definitions alone and the others pass their own checks, each definition in the
context of all before it. It then ends with the same environments for the names of `V` and `F`; without
the others, they have no other names. -/
theorem unused_irrelevant (h : P.Closed V F) :
    ((typecheckProgram P Typechecker.new).result = .ok () ↔
      (typecheckProgram (P.keep V F) Typechecker.new).result = .ok () ∧ P.OthersAccepted V F) ∧
    ((typecheckProgram P Typechecker.new).result = .ok () →
      (typecheckProgram P Typechecker.new).final.context.Kept V F
        (typecheckProgram (P.keep V F) Typechecker.new).final.context) := by
  have hP := typecheckProgram_returns P
  have hkeep := typecheckProgram_returns (P.keep V F)
  rw [hP.iff, hkeep.iff]
  refine ⟨accepted_keep h, fun hacc => ?_⟩
  have hacc' := ((accepted_keep h).mp hacc).1
  rw [hP.final (hP.iff.mpr hacc), hkeep.final (hkeep.iff.mpr hacc'), environments_context hacc,
    environments_context hacc']
  exact (globals_kept P).defineAll P.functionDefs

/-- A global and a function that nothing uses. -/
theorem unused_irrelevant_one :
    let f : FunctionDefinition := ⟨"f", .INT, [], ⟨[], .ret (.var "x")⟩⟩
    let g : FunctionDefinition := ⟨"g", .INT, [], ⟨[], .ret (.functionCall "f" [])⟩⟩
    let P : Program := ⟨"P", [⟨"x", .INT⟩, ⟨"y", .BOOL⟩], [f, g], .assignment "x" (.functionCall "f" [])⟩
    (typecheckProgram (P.keep (· == "x") (· == "f")) Typechecker.new).result = .ok () := by
  intro f g P
  have hclosed : P.Closed (· == "x") (· == "f") := by
    refine ⟨by decide, by decide, fun d hd hname => ?_⟩
    rcases List.mem_cons.mp hd with rfl | hd
    · exact ⟨by decide, by decide⟩
    · rw [List.mem_singleton.mp hd] at hname
      exact absurd hname (by decide)
  exact ((unused_irrelevant hclosed).1.mp rfl).1

end ProgramAnalysis.Typecheck
