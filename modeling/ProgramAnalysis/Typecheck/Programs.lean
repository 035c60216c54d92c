import ProgramAnalysis.Typecheck.Order
import ProgramAnalysis.Typecheck.Returns

/-!
# Accepted programs

Acceptance of a program without the run of the checker: the conditions at the nodes of its bodies, each
in the context of the definitions up to its own.

* `Program.known`: the context of the first definitions;
* `FunctionDefinition.WellTyped`, `Program.WellTyped`, **`typecheckProgram_accepts_iff`**: what a program
  has to be to be accepted;
* `Statement.HasCall`, `FunctionDefinition.Takes`: the calls of a statement; the arguments a definition
  takes;
* `known_fn`, **`calls_match`**: every call of an accepted program goes to a definition that takes its
  arguments, from a body to itself or to a definition before it.
-/

namespace ProgramAnalysis.Typecheck

/-- The context of the globals and the first `n` definitions. -/
def Program.known (P : Program) (n : ℕ) : Context := P.globals.defineAll (P.functionDefs.take n)

/-! ## Well-typed programs -/

/-- The parameters are different, the conditions hold in the body, and its leaves contribute the declared
type and at most one other. -/
structure FunctionDefinition.WellTyped (Γ : Context) (f : FunctionDefinition) : Prop where
  parameters : (Declarations.names f.parameters).Nodup
  body : f.body.toStatement.ConstraintsHold (f.inside Γ)
  returns : f.body.toStatement.Contributes (f.inside Γ) f.returnType
  others : ∃ T, ∀ U, f.body.toStatement.Contributes (f.inside Γ) U → U = f.returnType ∨ U = T

/-- The globals are different, so are the names of the definitions, each of these is well-typed where
those before it are known, and the conditions hold in the statement. -/
structure Program.WellTyped (P : Program) : Prop where
  globals : (Declarations.names P.declarations).Nodup
  functions : (definedNames P.functionDefs).Nodup
  definition : ∀ i (h : i < P.functionDefs.length), P.functionDefs[i].WellTyped (P.known i)
  statement : P.statement.ConstraintsHold (P.known P.functionDefs.length)

/-- At most two members, one of them given. -/
theorem card_le_two_iff {α : Type} [DecidableEq α] {s : Finset α} {a : α} (ha : a ∈ s) :
    s.card ≤ 2 ↔ ∃ b, ∀ c ∈ s, c = a ∨ c = b := by
  constructor
  · intro hs
    by_cases h : ∃ b ∈ s, a ≠ b
    · obtain ⟨b, hb, hab⟩ := h
      exact ⟨b, fun c hc => eq_or_eq_of_card_le_two hs ha hb hab hc⟩
    · refine ⟨a, fun c hc => .inl ?_⟩
      by_contra hca
      exact h ⟨c, hc, Ne.symm hca⟩
  · rintro ⟨b, hb⟩
    have hsub : s ⊆ {a, b} := by
      intro c hc
      rw [Finset.mem_insert, Finset.mem_singleton]
      exact hb c hc
    exact (Finset.card_le_card hsub).trans Finset.card_le_two

theorem passes_iff_wellTyped {f : FunctionDefinition} {Γ : Context} : f.Passes Γ ↔ f.WellTyped Γ := by
  unfold FunctionDefinition.Passes FunctionDefinition.ReturnsPass
  constructor
  · rintro ⟨types, htypes, hcard, hreturn⟩
    obtain ⟨hparameters, hbody⟩ := bodyTypes_eq_some_iff.mp htypes
    obtain ⟨T, hT⟩ := (card_le_two_iff hreturn).mp hcard
    have hleaves : ∀ U, U ∈ types ↔ _ := fun U => mem_stmtTypes_iff hbody
    refine ⟨hparameters, stmtTypes_isSome_iff.mp (Option.isSome_of_eq_some hbody),
      (hleaves _).mp hreturn, T, fun U hU => hT U ((hleaves U).mpr hU)⟩
  · rintro ⟨hparameters, hbody, hreturn, T, hT⟩
    obtain ⟨types, htypes⟩ := Option.isSome_iff_exists.mp (stmtTypes_isSome_iff.mpr hbody)
    have hleaves : ∀ U, U ∈ types ↔ _ := fun U => mem_stmtTypes_iff htypes
    have hmem := (hleaves _).mpr hreturn
    refine ⟨types, bodyTypes_eq_some_iff.mpr ⟨hparameters, htypes⟩, ?_, hmem⟩
    exact (card_le_two_iff hmem).mpr ⟨T, fun U hU => hT U ((hleaves U).mp hU)⟩

theorem known_length (P : Program) : P.known P.functionDefs.length = P.globals.defineAll P.functionDefs := by
  rw [Program.known, List.take_length]

theorem accepted_iff_wellTyped {P : Program} : P.Accepted ↔ P.WellTyped := by
  have hglobals : ∀ f ∈ P.functionDefs, P.globals.fn f.name = none := fun _ _ => rfl
  unfold Program.Accepted
  rw [defsAccepted_iff, stmtTypes_isSome_iff, ← known_length]
  simp only [passes_iff_wellTyped]
  constructor
  · rintro ⟨hdecls, ⟨hnames, -, hdefs⟩, hstmt⟩
    exact ⟨hdecls, hnames, hdefs, hstmt⟩
  · rintro ⟨hdecls, hnames, hdefs, hstmt⟩
    exact ⟨hdecls, ⟨hnames, hglobals, hdefs⟩, hstmt⟩

/-- **A program is accepted exactly when it is well-typed.** -/
theorem typecheckProgram_accepts_iff (P : Program) :
    (typecheckProgram P Typechecker.new).result = .ok () ↔ P.WellTyped :=
  (typecheckProgram_returns P).iff.trans accepted_iff_wellTyped

/-! ## Calls -/

/-- A call occurs in an expression of the statement, in the context `Δ`. -/
def Statement.HasCall (Γ : Context) (s : Statement) (Δ : Context) (g : String)
    (args : List Expression) : Prop :=
  ∃ B t e, s.Occurs B t ∧ e ∈ t.expressions ∧ e.Occurs (.functionCall g args) ∧ Δ = Γ.within B

/-- The arguments have the types of the parameters. -/
def FunctionDefinition.Takes (Δ : Context) (f : FunctionDefinition) (args : List Expression) : Prop :=
  List.Forall₂ (fun a d => a.type Δ = some d.getType) args f.parameters

theorem within_fn (Γ : Context) (B : List Declarations) : (Γ.within B).fn = Γ.fn := by
  induction B with
  | nil => rfl
  | cons ds B ih => exact ih

/-- A function that is known is one of the first definitions. -/
theorem known_fn {P : Program} (hnd : (definedNames P.functionDefs).Nodup) {n : ℕ} {g : String}
    {sig : FunctionTypeSig} (h : (P.known n).fn g = some sig) :
    ∃ j : Fin P.functionDefs.length, j.val < n ∧ (P.functionDefs.get j).name = g ∧
      (P.functionDefs.get j).signature = sig := by
  by_cases hmem : g ∈ definedNames P.functionDefs
  · obtain ⟨f, hf, rfl⟩ := List.mem_map.mp hmem
    obtain ⟨j, rfl⟩ := List.mem_iff_get.mp hf
    rw [Program.known, fn_take hnd] at h
    split_ifs at h with hj
    · exact ⟨j, hj, rfl, Option.some.inj h⟩
    · cases h
  · have htake : g ∉ definedNames (P.functionDefs.take n) := fun hg =>
      hmem ((List.Sublist.map _ (List.take_sublist n P.functionDefs)).subset hg)
    rw [Program.known, defineAll_fn_of_notMem htake] at h
    cases h

/-- The condition at a call. -/
theorem call_ok {Γ Δ : Context} {s : Statement} {g : String} {args : List Expression}
    (hs : s.ConstraintsHold Γ) (hcall : s.HasCall Γ Δ g args) : ∃ sig, Γ.fn g = some sig ∧
      List.Forall₂ (fun a T => a.type Δ = some T) args sig.parameterTypes := by
  obtain ⟨B, t, e, ht, he, hocc, rfl⟩ := hcall
  obtain ⟨sig, hsig, hargs⟩ := (hs B t ht).2 e he _ hocc
  rw [within_fn] at hsig
  exact ⟨sig, hsig, hargs⟩

theorem takes_of_signature {f : FunctionDefinition} {Δ : Context} {args : List Expression}
    {sig : FunctionTypeSig} (hf : f.signature = sig)
    (hargs : List.Forall₂ (fun a T => a.type Δ = some T) args sig.parameterTypes) :
    f.Takes Δ args := by
  subst hf
  have hmap : List.Forall₂ (fun a T => a.type Δ = some T) args
      (f.parameters.map Declaration.getType) := hargs
  rwa [List.forall₂_map_right_iff] at hmap

/-- **Calls match.** In an accepted program, every call in the body of a definition goes to that
definition or one before it, every call in the statement to some definition, and the definition takes
its arguments. -/
theorem calls_match (P : Program) (h : (typecheckProgram P Typechecker.new).result = .ok ()) :
    (∀ (i : Fin P.functionDefs.length) (Δ : Context) (g : String) (args : List Expression),
      (P.functionDefs.get i).body.toStatement.HasCall
          ((P.functionDefs.get i).inside (P.known i)) Δ g args →
        ∃ j ≤ i, (P.functionDefs.get j).name = g ∧ (P.functionDefs.get j).Takes Δ args) ∧
    ∀ (Δ : Context) (g : String) (args : List Expression),
      P.statement.HasCall (P.known P.functionDefs.length) Δ g args →
        ∃ j, (P.functionDefs.get j).name = g ∧ (P.functionDefs.get j).Takes Δ args := by
  obtain ⟨-, hnames, hdefs, hstmt⟩ := accepted_iff_wellTyped.mp ((typecheckProgram_returns P).iff.mp h)
  refine ⟨fun i Δ g args hcall => ?_, fun Δ g args hcall => ?_⟩
  · obtain ⟨sig, hsig, hargs⟩ := call_ok (hdefs i i.isLt).body hcall
    change ((P.known i).define (P.functionDefs.get i)).fn g = some sig at hsig
    by_cases hg : g = (P.functionDefs.get i).name
    · subst hg
      rw [define_fn_self] at hsig
      exact ⟨i, le_refl i, rfl, takes_of_signature (Option.some.inj hsig) hargs⟩
    · rw [define_fn_of_ne hg] at hsig
      obtain ⟨j, hj, hname, hsignature⟩ := known_fn hnames hsig
      exact ⟨j, Nat.le_of_lt hj, hname, takes_of_signature hsignature hargs⟩
  · obtain ⟨sig, hsig, hargs⟩ := call_ok hstmt hcall
    obtain ⟨j, -, hname, hsignature⟩ := known_fn hnames hsig
    exact ⟨j, hname, takes_of_signature hsignature hargs⟩

/-- A function that calls itself. -/
theorem calls_match_self :
    let f : FunctionDefinition :=
      ⟨"f", .INT, [⟨"x", .INT⟩], ⟨[], .ret (.functionCall "f" [.var "x"])⟩⟩
    let P : Program := ⟨"p", [], [f], .ret (.functionCall "f" [.num 1])⟩
    ∃ j, (P.functionDefs.get j).name = "f" ∧ (P.functionDefs.get j).Takes (P.known 1) [.num 1] := by
  intro f P
  refine (calls_match P rfl).2 (P.known 1) "f" [.num 1] ?_
  exact ⟨[], _, _, .refl _, List.mem_singleton.mpr rfl, .refl _, rfl⟩

end ProgramAnalysis.Typecheck
