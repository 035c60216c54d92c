import Mathlib.Logic.Equiv.Basic
import Mathlib.Order.Fin.Basic
import ProgramAnalysis.Typecheck.Names

/-!
# The order of declarations

* `Statement.Permuted`, `FunctionDefinition.Permuted`: declarations of blocks in another order;
* `FunctionDefinition.Dependent`, `Program.ReorderedBy`: a program in another order, where a definition
  that calls another one stays on the same side of it;
* `defsAccepted_iff`: the verdict on a list of definitions, one definition at a time;
* **`defsAccepted_reordered`**: it does not depend on the order;
* **`order_invariant`**: nor does the outcome of a program.
-/

namespace ProgramAnalysis.Typecheck

open Lib

/-! ## Other orders -/

/-- The declarations of each block in some other order. -/
inductive Statement.Permuted : Statement → Statement → Prop
  | skip : Permuted .skip .skip
  | assignment (x e) : Permuted (.assignment x e) (.assignment x e)
  | branch (c) {t t' e e'} (ht : Permuted t t') (he : Permuted e e') :
    Permuted (.branch c t e) (.branch c t' e')
  | loop (c) {b b'} (hb : Permuted b b') : Permuted (.loop c b) (.loop c b')
  | sequence {ss ss'} (hss : List.Forall₂ Permuted ss ss') :
    Permuted (.sequence ss) (.sequence ss')
  | block {ds ds' s s'} (hds : List.Perm ds ds') (hs : Permuted s s') :
    Permuted (.block ds s) (.block ds' s')
  | ret (e) : Permuted (.ret e) (.ret e)

/-- The same definition, up to the order of declarations in its body. -/
structure FunctionDefinition.Permuted (f f' : FunctionDefinition) : Prop where
  name : f'.name = f.name
  returnType : f'.returnType = f.returnType
  parameters : f'.parameters = f.parameters
  body : f.body.toStatement.Permuted f'.body.toStatement

/-- One of two definitions calls the other by name. -/
def FunctionDefinition.Dependent (f g : FunctionDefinition) : Prop :=
  g.name ∈ f.calls ∨ f.name ∈ g.calls

instance (f g : FunctionDefinition) : Decidable (f.Dependent g) :=
  inferInstanceAs (Decidable (_ ∨ _))

/-- `P'` is `P` in another order: the `i`-th definition is now the `e i`-th. -/
structure Program.ReorderedBy (P P' : Program)
    (e : Fin P.functionDefs.length ≃ Fin P'.functionDefs.length) : Prop where
  declarations : P.declarations.Perm P'.declarations
  statement : P.statement.Permuted P'.statement
  definition : ∀ i, (P.functionDefs.get i).Permuted (P'.functionDefs.get (e i))
  order : ∀ i j, i < j → (P.functionDefs.get i).Dependent (P.functionDefs.get j) → e i < e j

/-! ## Permuted declarations -/

namespace Declarations

variable {ds ds' : Declarations}

theorem nodup_names_perm (h : ds.Perm ds') : (names ds').Nodup ↔ (names ds).Nodup :=
  (h.map Declaration.getVariable).nodup_iff.symm

/-- The type of a name, read off the declarations in any order. -/
theorem typeOf_eq_some_iff (hnd : (names ds).Nodup) {x : String} {T : Ty} :
    typeOf ds x = some T ↔ ⟨x, T⟩ ∈ ds := by
  induction ds with
  | nil => simp
  | cons d ds ih =>
    rw [names_cons, List.nodup_cons] at hnd
    rw [typeOf_cons, List.mem_cons]
    by_cases hd : d.getVariable = x
    · subst hd
      have hnotMem : ⟨d.getVariable, T⟩ ∉ ds := fun h => hnd.1 (List.mem_map.mpr ⟨_, h, rfl⟩)
      simp only [if_true, hnotMem, or_false, Option.some.injEq]
      constructor
      · rintro rfl
        rfl
      · intro h
        rw [← h]
    · have hne : (⟨x, T⟩ : Declaration) ≠ d := fun h => hd (h ▸ rfl)
      rw [if_neg hd, ih hnd.2]
      simp only [hne, false_or]

theorem typeOf_perm (h : ds.Perm ds') (hnd : (names ds).Nodup) (x : String) :
    typeOf ds' x = typeOf ds x := by
  have hnd' := (nodup_names_perm h).mpr hnd
  refine Option.ext fun T => ?_
  rw [typeOf_eq_some_iff hnd', typeOf_eq_some_iff hnd, h.mem_iff]

end Declarations

theorem declare_perm {Γ : Context} {ds ds' : Declarations} (h : ds.Perm ds')
    (hnd : (Declarations.names ds).Nodup) : Γ.declare ds' = Γ.declare ds := by
  refine Context.ext (funext fun x => ?_) rfl
  rw [Context.declare_var, Context.declare_var, Declarations.typeOf_perm h hnd]

theorem seqTypes_forall₂ {Γ : Context} {ss ss' : List Statement}
    (h : List.Forall₂ (fun s s' => stmtTypes Γ s' = stmtTypes Γ s) ss ss') :
    seqTypes Γ ss' = seqTypes Γ ss := by
  induction h with
  | nil => rfl
  | @cons s s' ss ss' hs _ ih => rw [seqTypes, seqTypes, hs, ih]

/-- **The order of declarations does not matter to the types of a statement.** -/
theorem Statement.Permuted.stmtTypes_eq {Γ : Context} {s s' : Statement} (h : s.Permuted s') :
    stmtTypes Γ s' = stmtTypes Γ s := by
  induction s using Statement.ind generalizing Γ s' with
  | skip => cases h; rfl
  | assignment x e => cases h; rfl
  | branch c t e iht ihe =>
    cases h with
    | branch _ ht he => rw [stmtTypes, stmtTypes, iht ht, ihe he]
  | loop c b ih =>
    cases h with
    | loop _ hb => rw [stmtTypes, stmtTypes, ih hb]
  | sequence ss ih =>
    cases h with
    | @sequence _ ss' hss =>
      rw [stmtTypes, stmtTypes]
      refine seqTypes_forall₂ ?_
      have hmem := (List.forall₂_and_left ss ss').mpr ⟨fun s hs => hs, hss⟩
      exact hmem.imp fun s s' hs => ih s hs.1 hs.2
  | block ds s ih =>
    cases h with
    | @block _ ds' _ s' hds hs =>
      rw [stmtTypes, stmtTypes]
      simp only [Declarations.nodup_names_perm hds]
      split_ifs with hnd
      · rw [declare_perm hds hnd, ih hs]
      · rfl
  | ret e => cases h; rfl

/-! ## The verdict on one definition of a list -/

/-- The verdict on a definition apart from its name. -/
def FunctionDefinition.Passes (Γ : Context) (f : FunctionDefinition) : Prop :=
  ∃ types, f.bodyTypes Γ = some types ∧ f.ReturnsPass types

theorem accepted_iff_passes {f : FunctionDefinition} {Γ : Context} :
    f.Accepted Γ ↔ Γ.fn f.name = none ∧ f.Passes Γ := Iff.rfl

theorem passes_congr {f : FunctionDefinition} {Γ Δ : Context} (h : Γ.AgreeOn Δ f.freeVars f.calls) :
    f.Passes Δ ↔ f.Passes Γ := by
  unfold FunctionDefinition.Passes
  rw [bodyTypes_congr h]

namespace FunctionDefinition.Permuted

variable {f f' : FunctionDefinition}

theorem signature (h : f.Permuted f') : f'.signature = f.signature := by
  unfold FunctionDefinition.signature
  rw [h.parameters, h.returnType]

theorem passes_iff (h : f.Permuted f') (Γ : Context) : f'.Passes Γ ↔ f.Passes Γ := by
  have hdef : Γ.define f' = Γ.define f := Context.ext rfl (define_fn_eq h.name h.signature rfl)
  unfold FunctionDefinition.Passes FunctionDefinition.bodyTypes FunctionDefinition.ReturnsPass
  rw [hdef, h.parameters, h.returnType, h.body.stmtTypes_eq]

end FunctionDefinition.Permuted

/-! ## The functions known at a definition -/

/-- The names a list defines. -/
def definedNames (fs : List FunctionDefinition) : List String := fs.map FunctionDefinition.name

theorem definedNames_cons (f : FunctionDefinition) (fs : List FunctionDefinition) :
    definedNames (f :: fs) = f.name :: definedNames fs := rfl

section Definitions

variable {Γ : Context} {fs : List FunctionDefinition}

theorem define_fn_of_ne {f : FunctionDefinition} {g : String} (h : g ≠ f.name) :
    (Γ.define f).fn g = Γ.fn g := if_neg h

theorem define_fn_self (f : FunctionDefinition) : (Γ.define f).fn f.name = some f.signature :=
  if_pos rfl

theorem defineAll_var (Γ : Context) (fs : List FunctionDefinition) :
    (Γ.defineAll fs).var = Γ.var := by
  induction fs generalizing Γ with
  | nil => rfl
  | cons f fs ih => exact ih (Γ.define f)

theorem defineAll_fn_of_notMem {g : String} (h : g ∉ definedNames fs) :
    (Γ.defineAll fs).fn g = Γ.fn g := by
  induction fs generalizing Γ with
  | nil => rfl
  | cons f fs ih =>
    rw [definedNames_cons, List.mem_cons, not_or] at h
    exact (ih h.2).trans (define_fn_of_ne h.1)

theorem defineAll_fn_of_mem {f : FunctionDefinition} (hnd : (definedNames fs).Nodup) (hf : f ∈ fs) :
    (Γ.defineAll fs).fn f.name = some f.signature := by
  induction fs generalizing Γ with
  | nil => cases hf
  | cons g fs ih =>
    rw [definedNames_cons, List.nodup_cons] at hnd
    rcases List.mem_cons.mp hf with rfl | hf
    · exact (defineAll_fn_of_notMem hnd.1).trans (define_fn_self f)
    · exact ih hnd.2 hf

/-- The names are new after `f` when they are new before it and none of them is its name. -/
theorem define_none_iff {f : FunctionDefinition} : (∀ g ∈ fs, (Γ.define f).fn g.name = none) ↔
    f.name ∉ definedNames fs ∧ ∀ g ∈ fs, Γ.fn g.name = none := by
  constructor
  · intro h
    have hne : ∀ g ∈ fs, g.name ≠ f.name := by
      intro g hg he
      have hself := define_fn_self (Γ := Γ) f
      rw [← he, h g hg] at hself
      cases hself
    refine ⟨fun hmem => ?_, fun g hg => ?_⟩
    · obtain ⟨g, hg, he⟩ := List.mem_map.mp hmem
      exact hne g hg he
    · rw [← define_fn_of_ne (hne g hg)]
      exact h g hg
  · rintro ⟨hnotMem, hnone⟩ g hg
    have hne : g.name ≠ f.name := fun he => hnotMem (List.mem_map.mpr ⟨g, hg, he⟩)
    rw [define_fn_of_ne hne]
    exact hnone g hg

/-- **The verdict on a list of definitions, one definition at a time.** -/
theorem defsAccepted_iff : DefsAccepted Γ fs ↔ (definedNames fs).Nodup ∧
    (∀ f ∈ fs, Γ.fn f.name = none) ∧
    ∀ i (h : i < fs.length), fs[i].Passes (Γ.defineAll (fs.take i)) := by
  induction fs generalizing Γ with
  | nil => simp [DefsAccepted, definedNames]
  | cons f fs ih =>
    have hbodies : (∀ i (h : i < (f :: fs).length),
        (f :: fs)[i].Passes (Γ.defineAll ((f :: fs).take i))) ↔
        f.Passes Γ ∧ ∀ i (h : i < fs.length), fs[i].Passes ((Γ.define f).defineAll (fs.take i)) := by
      constructor
      · intro h
        exact ⟨h 0 (Nat.succ_pos _), fun i hi => h (i + 1) (Nat.succ_lt_succ hi)⟩
      · rintro ⟨hzero, hsucc⟩ i hi
        cases i with
        | zero => exact hzero
        | succ i => exact hsucc i (Nat.lt_of_succ_lt_succ hi)
    rw [DefsAccepted, ih, accepted_iff_passes, define_none_iff, hbodies, definedNames_cons,
      List.nodup_cons, List.forall_mem_cons]
    tauto

theorem eq_of_name_eq (hnd : (definedNames fs).Nodup) {i j : Fin fs.length}
    (h : (fs.get i).name = (fs.get j).name) : i = j := by
  have hget : fs.get i = fs.get j :=
    List.inj_on_of_nodup_map hnd (List.get_mem fs i) (List.get_mem fs j) h
  exact List.nodup_iff_injective_get.mp (List.Nodup.of_map _ hnd) hget

/-- The functions known at the `i`-th definition are those defined before it. -/
theorem fn_take (hnd : (definedNames fs).Nodup) (i : ℕ) (j : Fin fs.length) :
    (Γ.defineAll (fs.take i)).fn (fs.get j).name =
      if j.val < i then some (fs.get j).signature else Γ.fn (fs.get j).name := by
  split_ifs with hj
  · have hsub : (definedNames (fs.take i)).Sublist (definedNames fs) :=
      (List.take_sublist i fs).map _
    refine defineAll_fn_of_mem (hnd.sublist hsub) (List.mem_take_iff_getElem.mpr ⟨j.val, ?_, rfl⟩)
    have hlen := j.isLt
    omega
  · refine defineAll_fn_of_notMem fun hmem => ?_
    obtain ⟨f, hf, hname⟩ := List.mem_map.mp hmem
    obtain ⟨k, hk, rfl⟩ := List.mem_take_iff_getElem.mp hf
    have hlen : k < fs.length := by omega
    have he : (⟨k, hlen⟩ : Fin fs.length) = j := eq_of_name_eq hnd hname
    have hkj : k = j.val := congrArg Fin.val he
    omega

end Definitions

/-! ## Definitions in another order -/

theorem nodup_iff_injective {fs : List FunctionDefinition} :
    (definedNames fs).Nodup ↔ Function.Injective fun i => (fs.get i).name := by
  refine ⟨fun hnd i j h => eq_of_name_eq hnd h, fun hinj => ?_⟩
  have hnd : fs.Nodup := List.nodup_iff_injective_get.mpr fun i j h =>
    hinj (congrArg FunctionDefinition.name h)
  refine hnd.map_on fun f hf g hg h => ?_
  obtain ⟨i, rfl⟩ := List.mem_iff_get.mp hf
  obtain ⟨j, rfl⟩ := List.mem_iff_get.mp hg
  rw [hinj h]

section Reordered

variable {Γ : Context} {fs fs' : List FunctionDefinition} {e : Fin fs.length ≃ Fin fs'.length}

theorem nodup_reordered (hsame : ∀ i, (fs.get i).Permuted (fs'.get (e i))) :
    (definedNames fs').Nodup ↔ (definedNames fs).Nodup := by
  have hnames : (fun i => (fs'.get i).name) ∘ e = fun i => (fs.get i).name :=
    funext fun i => (hsame i).name
  rw [nodup_iff_injective, nodup_iff_injective, ← hnames, Equiv.injective_comp]

theorem mem_definedNames_reordered (hsame : ∀ i, (fs.get i).Permuted (fs'.get (e i))) {g : String}
    (hg : g ∉ definedNames fs) : g ∉ definedNames fs' := by
  intro hmem
  obtain ⟨f', hf', rfl⟩ := List.mem_map.mp hmem
  obtain ⟨j, rfl⟩ := List.mem_iff_get.mp hf'
  obtain ⟨i, rfl⟩ := e.surjective j
  rw [(hsame i).name] at hg
  exact hg (List.mem_map.mpr ⟨_, List.get_mem fs i, rfl⟩)

theorem none_reordered (hsame : ∀ i, (fs.get i).Permuted (fs'.get (e i))) :
    (∀ f ∈ fs', Γ.fn f.name = none) ↔ ∀ f ∈ fs, Γ.fn f.name = none := by
  constructor
  · intro h f hf
    obtain ⟨i, rfl⟩ := List.mem_iff_get.mp hf
    rw [← (hsame i).name]
    exact h _ (List.get_mem fs' (e i))
  · intro h f' hf'
    obtain ⟨j, rfl⟩ := List.mem_iff_get.mp hf'
    obtain ⟨i, rfl⟩ := e.surjective j
    rw [(hsame i).name]
    exact h _ (List.get_mem fs i)

/-- A definition sees the functions it calls on the same side of it in both orders. -/
theorem before_iff (horder : ∀ i j, i < j → (fs.get i).Dependent (fs.get j) → e i < e j)
    {i j : Fin fs.length} (hcall : (fs.get j).name ∈ (fs.get i).calls) : e j < e i ↔ j < i := by
  rcases lt_trichotomy i j with hij | rfl | hji
  · have h := horder i j hij (.inl hcall)
    omega
  · simp only [lt_irrefl]
  · have h := horder j i hji (.inr hcall)
    simp only [h, hji]

theorem agreeOn_take (hnd : (definedNames fs).Nodup)
    (hsame : ∀ i, (fs.get i).Permuted (fs'.get (e i)))
    (horder : ∀ i j, i < j → (fs.get i).Dependent (fs.get j) → e i < e j) (i : Fin fs.length) :
    (Γ.defineAll (fs.take i)).AgreeOn (Γ.defineAll (fs'.take (e i))) (fs.get i).freeVars
      (fs.get i).calls := by
  have hnd' := (nodup_reordered hsame).mpr hnd
  refine ⟨fun x _ => by rw [defineAll_var, defineAll_var], fun g hg => ?_⟩
  by_cases hmem : g ∈ definedNames fs
  · obtain ⟨f, hf, rfl⟩ := List.mem_map.mp hmem
    obtain ⟨j, rfl⟩ := List.mem_iff_get.mp hf
    have hleft := fn_take (Γ := Γ) hnd i j
    have hright := fn_take (Γ := Γ) hnd' (e i) (e j)
    rw [(hsame j).name, (hsame j).signature] at hright
    rw [hleft, hright]
    have hbefore : (e j).val < (e i).val ↔ j.val < i.val := before_iff horder hg
    simp only [hbefore]
  · have htake : g ∉ definedNames (fs.take i) := fun h =>
      hmem (((List.take_sublist i fs).map _).subset h)
    have htake' : g ∉ definedNames (fs'.take (e i)) := fun h =>
      mem_definedNames_reordered hsame hmem (((List.take_sublist (e i) fs').map _).subset h)
    rw [defineAll_fn_of_notMem htake, defineAll_fn_of_notMem htake']

/-- **The order of definitions does not matter to the verdict on them**, as long as callers and
callees keep their order. -/
theorem defsAccepted_reordered (hsame : ∀ i, (fs.get i).Permuted (fs'.get (e i)))
    (horder : ∀ i j, i < j → (fs.get i).Dependent (fs.get j) → e i < e j) :
    DefsAccepted Γ fs' ↔ DefsAccepted Γ fs := by
  rw [defsAccepted_iff, defsAccepted_iff, nodup_reordered hsame, none_reordered hsame]
  refine and_congr_right fun hnd => and_congr_right fun _ => ?_
  have hpasses : ∀ i : Fin fs.length, (fs'.get (e i)).Passes (Γ.defineAll (fs'.take (e i))) ↔
      (fs.get i).Passes (Γ.defineAll (fs.take i)) := fun i => by
    rw [(hsame i).passes_iff, passes_congr (agreeOn_take hnd hsame horder i)]
  constructor
  · intro h i hi
    exact (hpasses ⟨i, hi⟩).mp (h (e ⟨i, hi⟩) (e ⟨i, hi⟩).isLt)
  · intro h j hj
    obtain ⟨i, hi⟩ := e.surjective ⟨j, hj⟩
    have hat := (hpasses i).mpr (h i i.isLt)
    rw [hi] at hat
    exact hat

theorem defineAll_reordered (hnd : (definedNames fs).Nodup)
    (hsame : ∀ i, (fs.get i).Permuted (fs'.get (e i))) : Γ.defineAll fs' = Γ.defineAll fs := by
  have hnd' := (nodup_reordered hsame).mpr hnd
  refine Context.ext (by rw [defineAll_var, defineAll_var]) (funext fun g => ?_)
  by_cases hmem : g ∈ definedNames fs
  · obtain ⟨f, hf, rfl⟩ := List.mem_map.mp hmem
    obtain ⟨i, rfl⟩ := List.mem_iff_get.mp hf
    have hright := defineAll_fn_of_mem (Γ := Γ) hnd' (List.get_mem fs' (e i))
    rw [(hsame i).name, (hsame i).signature] at hright
    rw [hright, defineAll_fn_of_mem hnd (List.get_mem fs i)]
  · rw [defineAll_fn_of_notMem hmem,
      defineAll_fn_of_notMem (mem_definedNames_reordered hsame hmem)]

end Reordered

/-! ## Programs -/

theorem into_perm {ds ds' : Declarations} (h : ds.Perm ds') (hnd : (Declarations.names ds).Nodup) :
    Declarations.into ds' ∅ = Declarations.into ds ∅ := by
  have hnd' := (Declarations.nodup_names_perm h).mpr hnd
  refine Finmap.ext_lookup fun x => ?_
  rw [lookup_into (freshIn_empty.mpr hnd'), lookup_into (freshIn_empty.mpr hnd),
    Declarations.typeOf_perm h hnd]

/-- A state is known by its scopes and by what its functions mean. -/
theorem Typechecker.ext_context {σ τ : Typechecker} (hv : σ.valueEnv = τ.valueEnv)
    (hf : σ.context.fn = τ.context.fn) : σ = τ := by
  have hfun : σ.functionEnv = τ.functionEnv := Finmap.ext_lookup fun g => congrFun hf g
  cases σ
  cases τ
  simp only at hv hfun
  rw [hv, hfun]

section Program

variable {P P' : Program} {e : Fin P.functionDefs.length ≃ Fin P'.functionDefs.length}

theorem globals_reordered (h : P.ReorderedBy P' e)
    (hnd : (Declarations.names P.declarations).Nodup) : P'.globals = P.globals :=
  declare_perm h.declarations hnd

theorem accepted_reordered (h : P.ReorderedBy P' e) : P'.Accepted ↔ P.Accepted := by
  unfold Program.Accepted
  rw [Declarations.nodup_names_perm h.declarations]
  refine and_congr_right fun hnd => ?_
  rw [globals_reordered h hnd, defsAccepted_reordered h.definition h.order]
  refine and_congr_right fun hdefs => ?_
  rw [defineAll_reordered (defsAccepted_iff.mp hdefs).1 h.definition, h.statement.stmtTypes_eq]

theorem environments_reordered (h : P.ReorderedBy P' e) (hacc : P.Accepted) :
    P'.environments = P.environments := by
  have hnd := hacc.1
  have hnames := (defsAccepted_iff.mp hacc.2.1).1
  unfold Program.environments
  refine Typechecker.ext_context ?_ ?_
  · rw [registerAll_valueEnv, registerAll_valueEnv, into_perm h.declarations hnd]
  · rw [context_registerAll, context_registerAll, into_perm h.declarations hnd,
      defineAll_reordered hnames h.definition]

/-- **The order of declarations and of independent definitions** changes neither whether a program is
accepted nor the environments it ends with. -/
theorem order_invariant (h : P.ReorderedBy P' e) :
    ((typecheckProgram P' Typechecker.new).result = .ok () ↔
      (typecheckProgram P Typechecker.new).result = .ok ()) ∧
    ((typecheckProgram P Typechecker.new).result = .ok () →
      (typecheckProgram P' Typechecker.new).final.valueEnv =
        (typecheckProgram P Typechecker.new).final.valueEnv ∧
      (typecheckProgram P' Typechecker.new).final.functionEnv =
        (typecheckProgram P Typechecker.new).final.functionEnv) := by
  have hout := outcome_congr (accepted_reordered h)
  refine ⟨hout.1, fun hr => ?_⟩
  obtain ⟨hP', hP⟩ := hout.2 hr
  have hacc : P.Accepted := (typecheckProgram_returns P).iff.mp hr
  rw [hP', hP, environments_reordered h hacc]
  exact ⟨rfl, rfl⟩

end Program

/-- A recursive function and one that calls nothing change places; so do two global variables. -/
theorem order_invariant_swap :
    let f : FunctionDefinition := ⟨"f", .INT, [⟨"a", .INT⟩], ⟨[], .ret (.functionCall "f" [.var "x"])⟩⟩
    let g : FunctionDefinition := ⟨"g", .BOOL, [], ⟨[], .ret (.var "y")⟩⟩
    let ds : Declarations := [⟨"x", .INT⟩, ⟨"y", .BOOL⟩]
    let P : Program := ⟨"p", ds, [f, g], .skip⟩
    let P' : Program := ⟨"p", ds.reverse, [g, f], .skip⟩
    (typecheckProgram P' Typechecker.new).result = .ok () ∧
      (typecheckProgram P' Typechecker.new).final.functionEnv =
        (typecheckProgram P Typechecker.new).final.functionEnv := by
  intro f g ds P P'
  have hf : f.Permuted f := ⟨rfl, rfl, rfl, .block (.refl _) (.ret _)⟩
  have hg : g.Permuted g := ⟨rfl, rfl, rfl, .block (.refl _) (.ret _)⟩
  have hpairs : ∀ i j : Fin 2, i < j → i = 0 ∧ j = 1 := by decide
  have hindependent : ¬ f.Dependent g := by decide
  have h : P.ReorderedBy P' (Equiv.swap 0 1) := by
    refine ⟨(List.reverse_perm ds).symm, .skip, fun i => ?_, fun i j hij hdep => ?_⟩
    · match i with
      | 0 => exact hf
      | 1 => exact hg
    · obtain ⟨rfl, rfl⟩ := hpairs i j hij
      exact absurd hdep hindependent
  have hinv := order_invariant h
  exact ⟨hinv.1.mpr rfl, (hinv.2 rfl).2⟩

end ProgramAnalysis.Typecheck
