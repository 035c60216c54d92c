import Mathlib.Data.Finmap

/-!
# Linked stacks

A stack kept as objects in memory, each with a pointer to the one below it.

* `Cell`, `Pool`, `Allocator`: the objects, and where `new` puts them;
* `Linked`: the values on the chain from a pointer;
* `Extra`: what a memory has more than an earlier one, with `new`, `delete`, `put` and `trans`;
* `Stacked`: a chain of which every object is new, as a stack: **`push`**, **`pop`**, **`set`**.
-/

namespace Lib

/-- An object: its value, and a pointer to the next one, `none` if it is null. -/
structure Cell (α ν : Type) where
  value : ν
  next : Option α

/-- Objects at their addresses. -/
abbrev Cells (α ν : Type) : Type := Finmap fun _ : α => Cell α ν

/-- The choice of addresses, from the number of objects made so far and the addresses in use: one that is
not in use. -/
structure Allocator (α : Type) where
  address : ℕ → Finset α → α
  fresh : ∀ made used, address made used ∉ used

/-- A memory: its objects, and the number of objects made so far. -/
structure Pool (α ν : Type) where
  cells : Cells α ν
  made : ℕ

variable {α ν : Type} [DecidableEq α]

namespace Pool

/-- The address of the next object. -/
def address (A : Allocator α) (s : Pool α ν) : α := A.address s.made s.cells.keys

/-- `new`. -/
def new (A : Allocator α) (c : Cell α ν) (s : Pool α ν) : Pool α ν :=
  ⟨s.cells.insert (s.address A) c, s.made + 1⟩

/-- `delete`, of an object without a destructor of its own. -/
def delete (p : α) (s : Pool α ν) : Pool α ν := { s with cells := s.cells.erase p }

/-- A write to an object. -/
def put (p : α) (c : Cell α ν) (s : Pool α ν) : Pool α ν := { s with cells := s.cells.insert p c }

omit [DecidableEq α] in
theorem address_notMem (A : Allocator α) (s : Pool α ν) : s.address A ∉ s.cells := fun h =>
  A.fresh s.made s.cells.keys (Finmap.mem_keys.mpr h)

end Pool

/-! ## Objects of a chain -/

/-- `Linked h p ps vs`: the chain from `p` has the objects at `ps`, with the values `vs`. -/
inductive Linked (h : Cells α ν) : Option α → List α → List ν → Prop
  | nil : Linked h none [] []
  | cons {p : α} {q : Option α} {v : ν} {ps : List α} {vs : List ν} : h.lookup p = some ⟨v, q⟩ →
    Linked h q ps vs → Linked h (some p) (p :: ps) (v :: vs)

/-- `Extra g h xs`: the objects of `h` are those of `g`, unchanged, and others at `xs`, each once. -/
structure Extra (g h : Cells α ν) (xs : List α) : Prop where
  nodup : xs.Nodup
  fresh : ∀ x ∈ xs, x ∉ g
  present : ∀ x ∈ xs, x ∈ h
  others : ∀ x ∉ xs, h.lookup x = g.lookup x

section Linked

variable {g h h' : Cells α ν} {p x : α} {q : Option α} {c : Cell α ν} {ps xs ys : List α} {vs : List ν}

/-- Only the objects of the chain matter. -/
theorem Linked.congr (hl : Linked h q ps vs) (hsame : ∀ x ∈ ps, h'.lookup x = h.lookup x) :
    Linked h' q ps vs := by
  induction hl with
  | nil => exact .nil
  | cons hp _ ih =>
    obtain ⟨hpsame, hrest⟩ := List.forall_mem_cons.mp hsame
    exact .cons (hpsame.trans hp) (ih hrest)

theorem Linked.length_eq (hl : Linked h q ps vs) : ps.length = vs.length := by
  induction hl with
  | nil => rfl
  | cons _ _ ih => exact congrArg (· + 1) ih

theorem Linked.eq_none_iff (hl : Linked h q ps vs) : q = none ↔ vs = [] := by
  cases hl <;> simp

namespace Extra

theorem refl (g : Cells α ν) : Extra g g [] :=
  ⟨.nil, fun _ hx => absurd hx List.not_mem_nil, fun _ hx => absurd hx List.not_mem_nil, fun _ _ => rfl⟩

/-- What `h` has not, `g` has not. -/
theorem notMem (he : Extra g h xs) (hx : x ∉ h) : x ∉ g := by
  by_cases hmem : x ∈ xs
  · exact he.fresh x hmem
  · rw [← Finmap.lookup_eq_none, ← he.others x hmem]
    exact Finmap.lookup_eq_none.mpr hx

theorem new (he : Extra g h xs) (hp : p ∉ h) (c : Cell α ν) : Extra g (h.insert p c) (p :: xs) where
  nodup := List.nodup_cons.mpr ⟨fun hmem => hp (he.present p hmem), he.nodup⟩
  fresh := List.forall_mem_cons.mpr ⟨he.notMem hp, he.fresh⟩
  present := List.forall_mem_cons.mpr ⟨Finmap.mem_insert.mpr (.inl rfl),
    fun x hx => Finmap.mem_insert.mpr (.inr (he.present x hx))⟩
  others x hx := by
    rw [List.mem_cons, not_or] at hx
    rw [Finmap.lookup_insert_of_ne h hx.1]
    exact he.others x hx.2

theorem delete (he : Extra g h (p :: xs)) : Extra g (h.erase p) xs where
  nodup := (List.nodup_cons.mp he.nodup).2
  fresh x hx := he.fresh x (List.mem_cons_of_mem p hx)
  present x hx := Finmap.mem_erase.mpr
    ⟨fun hxp => (List.nodup_cons.mp he.nodup).1 (hxp ▸ hx), he.present x (List.mem_cons_of_mem p hx)⟩
  others x hx := by
    by_cases hxp : x = p
    · rw [hxp, Finmap.lookup_erase]
      exact (Finmap.lookup_eq_none.mpr (he.fresh p List.mem_cons_self)).symm
    · rw [Finmap.lookup_erase_ne hxp]
      exact he.others x fun hmem => (List.mem_cons.mp hmem).elim hxp hx

theorem put (he : Extra g h xs) (hp : p ∈ xs) (c : Cell α ν) : Extra g (h.insert p c) xs where
  nodup := he.nodup
  fresh := he.fresh
  present x hx := Finmap.mem_insert.mpr (.inr (he.present x hx))
  others x hx := by
    have hxp : x ≠ p := fun hxp => hx (hxp ▸ hp)
    rw [Finmap.lookup_insert_of_ne h hxp]
    exact he.others x hx

theorem trans (hx : Extra g h xs) (hy : Extra h h' ys) : Extra g h' (xs ++ ys) where
  nodup := List.Nodup.append hx.nodup hy.nodup fun x hmem hmem' => hy.fresh x hmem' (hx.present x hmem)
  fresh := List.forall_mem_append.mpr ⟨hx.fresh, fun x hmem => hx.notMem (hy.fresh x hmem)⟩
  present := by
    refine List.forall_mem_append.mpr ⟨fun x hmem => ?_, hy.present⟩
    have hxh := hx.present x hmem
    have hout : x ∉ ys := fun hmem' => hy.fresh x hmem' hxh
    rw [← Finmap.lookup_isSome] at hxh ⊢
    rw [hy.others x hout]
    exact hxh
  others x hout := by
    rw [List.mem_append, not_or] at hout
    exact (hy.others x hout.2).trans (hx.others x hout.1)

theorem length_le (he : Extra g h xs) : xs.length ≤ h.keys.card := by
  rw [← List.toFinset_card_of_nodup he.nodup]
  refine Finset.card_le_card fun x hx => ?_
  exact Finmap.mem_keys.mpr (he.present x (List.mem_toFinset.mp hx))

end Extra

end Linked

/-! ## Stacks -/

/-- From `p` there is a chain with the values `vs`, and its objects are all that `h` has more than `g`. -/
def Stacked (g h : Cells α ν) (p : Option α) (vs : List ν) : Prop :=
  ∃ ps, Linked h p ps vs ∧ Extra g h ps

namespace Stacked

variable {g : Cells α ν} {s : Pool α ν} {h : Cells α ν} {p : α} {q : Option α} {v w : ν} {vs : List ν}

theorem empty (g : Cells α ν) : Stacked g g none [] := ⟨[], .nil, .refl g⟩

/-- **Push**: a new object that points to the top. -/
theorem push (hs : Stacked g s.cells q vs) (A : Allocator α) (v : ν) :
    Stacked g (s.new A ⟨v, q⟩).cells (some (s.address A)) (v :: vs) := by
  obtain ⟨ps, hl, he⟩ := hs
  have hnew := Pool.address_notMem A s
  refine ⟨s.address A :: ps, .cons (Finmap.lookup_insert _) (hl.congr fun x hx => ?_), he.new hnew _⟩
  exact Finmap.lookup_insert_of_ne _ fun hxp => hnew (hxp ▸ he.present x hx)

/-- The top of a stack that is not empty. -/
theorem top (hs : Stacked g h q (v :: vs)) : ∃ p r, q = some p ∧ h.lookup p = some ⟨v, r⟩ := by
  obtain ⟨ps, hl, -⟩ := hs
  cases hl with
  | @cons p r _ _ _ hp _ => exact ⟨p, r, rfl, hp⟩

/-- Below the top: the chain goes on from its pointer, and does not come back to it. -/
theorem below (hs : Stacked g h (some p) (v :: vs)) (hp : h.lookup p = some ⟨w, q⟩) :
    ∃ ps, Linked h q ps vs ∧ p ∉ ps ∧ Extra g h (p :: ps) := by
  obtain ⟨ps, hl, he⟩ := hs
  cases hl with
  | cons hp' hl =>
    cases hp'.symm.trans hp
    exact ⟨_, hl, (List.nodup_cons.mp he.nodup).1, he⟩

/-- **Pop**: the top is deleted, and the pointer in it leads to the rest. -/
theorem pop (hs : Stacked g h (some p) (v :: vs)) (hp : h.lookup p = some ⟨w, q⟩) :
    Stacked g (h.erase p) q vs := by
  obtain ⟨ps, hl, hout, he⟩ := hs.below hp
  refine ⟨ps, hl.congr fun x hx => ?_, he.delete⟩
  exact Finmap.lookup_erase_ne fun hxp => hout (hxp ▸ hx)

/-- **Set**: the top gets another value and keeps its pointer. -/
theorem set (hs : Stacked g h (some p) (v :: vs)) (hp : h.lookup p = some ⟨v, q⟩) (w : ν) :
    Stacked g (h.insert p ⟨w, q⟩) (some p) (w :: vs) := by
  obtain ⟨ps, hl, hout, he⟩ := hs.below hp
  refine ⟨p :: ps, .cons (Finmap.lookup_insert _) (hl.congr fun x hx => ?_), he.put List.mem_cons_self _⟩
  exact Finmap.lookup_insert_of_ne _ fun hxp => hout (hxp ▸ hx)

end Stacked

end Lib
