import Mathlib.Data.Finmap

/-!
# Objects that own others

A heap of objects. Each has a value and pointers to the objects it owns, which its destructor deletes
one after another.

* `Heap`, `delete`, `deleteAll`: deletion, undefined for an object that is not there;
* `Reads`: the trees that pointers lead to, and the objects on the way;
* **`deleteAll_iff`**: deletion is defined exactly when no object is met twice, and removes these objects;
* `Builds`, **`Builds.reads`**: trees of new objects, each pointer used once.
-/

namespace Lib

/-- Trees of values. -/
inductive Rose (ν : Type)
  | node (value : ν) (children : List (Rose ν))

/-- Objects at their addresses, each with the pointers it owns. -/
abbrev Heap (α ν : Type) : Type := Finmap fun _ : α => ν × List α

variable {α ν : Type} [DecidableEq α]

/-! ## Deletion -/

/-- `delete p`, with a bound on the nesting. The lifetime of the object ends where its destructor starts,
so an object cannot be deleted again while its destructor runs. -/
def delete : ℕ → α → Heap α ν → Option (Heap α ν)
  | 0, _, _ => none
  | n + 1, p, h => do
    let o ← h.lookup p
    o.2.foldlM (fun h q => delete n q h) (h.erase p)

/-- `delete` of one pointer after another. -/
def deleteAll (n : ℕ) (ps : List α) (h : Heap α ν) : Option (Heap α ν) :=
  ps.foldlM (fun h q => delete n q h) h

/-- The heap without some objects. -/
def without (h : Heap α ν) (xs : List α) : Heap α ν := xs.foldl (fun h x => h.erase x) h

section Delete

variable {n : ℕ} {h h' : Heap α ν} {p x : α} {ps xs ys : List α}

theorem deleteAll_cons (n : ℕ) (p : α) (ps : List α) (h : Heap α ν) :
    deleteAll n (p :: ps) h = (delete n p h).bind (deleteAll n ps) := by
  rw [deleteAll, List.foldlM_cons]
  rfl

theorem deleteAll_singleton (n : ℕ) (p : α) (h : Heap α ν) : deleteAll n [p] h = delete n p h := by
  rw [deleteAll_cons]
  rcases delete n p h with - | g <;> rfl

theorem delete_of_lookup {o : ν × List α} (ho : h.lookup p = some o) :
    delete (n + 1) p h = deleteAll n o.2 (h.erase p) := by
  rw [delete, ho]
  rfl

theorem delete_of_notMem (hp : h.lookup p = none) : delete n p h = none := by
  cases n with
  | zero => rfl
  | succ n =>
    rw [delete, hp]
    rfl

@[simp] theorem without_nil (h : Heap α ν) : without h [] = h := rfl

theorem without_cons (h : Heap α ν) (x : α) (xs : List α) :
    without h (x :: xs) = without (h.erase x) xs := rfl

theorem without_append (h : Heap α ν) (xs ys : List α) :
    without h (xs ++ ys) = without (without h xs) ys := List.foldl_append

theorem lookup_without : (without h xs).lookup x = if x ∈ xs then none else h.lookup x := by
  induction xs generalizing h with
  | nil => simp
  | cons y xs ih =>
    rw [without_cons, ih]
    by_cases hxy : x = y
    · subst hxy
      simp
    · simp [hxy, Finmap.lookup_erase_ne hxy]

theorem without_le (h : Heap α ν) (xs : List α) (x : α) (o : ν × List α)
    (ho : (without h xs).lookup x = some o) : h.lookup x = some o := by
  rw [lookup_without] at ho
  split_ifs at ho
  exact ho

theorem notMem_without (hx : x ∈ xs) : x ∉ without h xs :=
  Finmap.lookup_eq_none.mp (lookup_without.trans (if_pos hx))

theorem card_erase_lt (hp : p ∈ h) : (h.erase p).keys.card < h.keys.card := by
  rw [Finmap.keys_erase]
  exact Finset.card_erase_lt_of_mem (Finmap.mem_keys.mpr hp)

theorem card_without_le (h : Heap α ν) (xs : List α) : (without h xs).keys.card ≤ h.keys.card := by
  refine Finset.card_le_card fun x hx => ?_
  rw [Finmap.mem_keys] at hx ⊢
  by_contra hout
  have hlookup : (without h xs).lookup x = none := by
    rw [lookup_without, Finmap.lookup_eq_none.mpr hout, ite_self]
  exact Finmap.lookup_eq_none.mp hlookup hx

end Delete

/-! ## The trees below pointers -/

/-- `Reads h ps ts xs`: the pointers `ps` lead to the trees `ts`, and `xs` are the objects met on the way,
each as often as it is met. -/
inductive Reads (h : Heap α ν) : List α → List (Rose ν) → List α → Prop
  | nil : Reads h [] [] []
  | cons {p : α} {v : ν} {qs xs ps ys : List α} {us ts : List (Rose ν)} : h.lookup p = some (v, qs) →
    Reads h qs us xs → Reads h ps ts ys → Reads h (p :: ps) (.node v us :: ts) (p :: xs ++ ys)

section Reads

variable {h h' : Heap α ν} {p x : α} {ps xs ys : List α} {t : Rose ν} {ts us : List (Rose ν)} {n : ℕ}

theorem Reads.mem (hr : Reads h ps ts xs) (hx : x ∈ xs) : x ∈ h := by
  induction hr with
  | nil => cases hx
  | cons hp _ _ ihx ihy =>
    rcases List.mem_append.mp hx with hx | hx
    · rcases List.mem_cons.mp hx with rfl | hx
      · exact Finmap.mem_of_lookup_eq_some hp
      · exact ihx hx
    · exact ihy hx

/-- Only the objects met matter. -/
theorem Reads.congr (hr : Reads h ps ts xs) (hsame : ∀ x ∈ xs, h'.lookup x = h.lookup x) :
    Reads h' ps ts xs := by
  induction hr with
  | nil => exact .nil
  | cons hp _ _ ihx ihy =>
    obtain ⟨hleft, hright⟩ := List.forall_mem_append.mp hsame
    obtain ⟨hpsame, hleft⟩ := List.forall_mem_cons.mp hleft
    exact .cons (hpsame.trans hp) (ihx hleft) (ihy hright)

/-- What a part of the heap says, the heap says. -/
theorem Reads.mono (hr : Reads h ps ts xs) (hsub : ∀ x o, h.lookup x = some o → h'.lookup x = some o) :
    Reads h' ps ts xs := by
  induction hr with
  | nil => exact .nil
  | cons hp _ _ ihx ihy => exact .cons (hsub _ _ hp) ihx ihy

/-- Pointers lead to one list of trees only. -/
theorem Reads.unique (hr : Reads h ps ts xs) (hr' : Reads h ps us ys) : us = ts ∧ ys = xs := by
  induction hr generalizing us ys with
  | nil =>
    cases hr'
    exact ⟨rfl, rfl⟩
  | cons hp _ _ ihx ihy =>
    cases hr' with
    | cons hp' hqs hps =>
      cases hp.symm.trans hp'
      obtain ⟨rfl, rfl⟩ := ihx hqs
      obtain ⟨rfl, rfl⟩ := ihy hps
      exact ⟨rfl, rfl⟩

theorem Reads.append {qs : List α} (hr : Reads h ps ts xs) (hq : Reads h qs us ys) :
    Reads h (ps ++ qs) (ts ++ us) (xs ++ ys) := by
  induction hr with
  | nil => exact hq
  | cons hp hqs _ _ ih =>
    rw [List.append_assoc]
    exact .cons hp hqs ih

/-- What was deleted was met once. -/
theorem reads_of_deleteAll (hd : deleteAll n ps h = some h') :
    ∃ ts xs, Reads h ps ts xs ∧ xs.Nodup ∧ h' = without h xs := by
  induction n generalizing ps h h' with
  | zero =>
    cases ps with
    | nil =>
      cases hd
      exact ⟨[], [], .nil, .nil, rfl⟩
    | cons p ps =>
      rw [deleteAll_cons] at hd
      cases hd
  | succ n ih =>
    induction ps generalizing h with
    | nil =>
      cases hd
      exact ⟨[], [], .nil, .nil, rfl⟩
    | cons p ps ihp =>
      rw [deleteAll_cons] at hd
      obtain ⟨g, hg, hd⟩ := Option.bind_eq_some_iff.mp hd
      rcases hp : h.lookup p with - | ⟨v, qs⟩
      · rw [delete_of_notMem hp] at hg
        cases hg
      · rw [delete_of_lookup hp] at hg
        obtain ⟨us, xs, hqs, hxs, rfl⟩ := ih hg
        obtain ⟨ts, ys, hps, hys, rfl⟩ := ihp hd
        rw [← without_cons] at hps ⊢
        refine ⟨.node v us :: ts, p :: xs ++ ys, ?_, ?_, (without_append h (p :: xs) ys).symm⟩
        · exact .cons hp (hqs.mono (without_le h [p])) (hps.mono (without_le h (p :: xs)))
        · have hpxs : p ∉ xs := fun hmem => (Finmap.mem_erase.mp (hqs.mem hmem)).1 rfl
          refine List.Nodup.append (List.nodup_cons.mpr ⟨hpxs, hxs⟩) hys fun x hx hy => ?_
          exact notMem_without hx (hps.mem hy)

/-- What is met once can be deleted. -/
theorem Reads.deleteAll_eq (hr : Reads h ps ts xs) (hxs : xs.Nodup)
    (hsame : ∀ x ∈ xs, h'.lookup x = h.lookup x) (hn : h'.keys.card ≤ n) :
    deleteAll n ps h' = some (without h' xs) := by
  induction hr generalizing h' n with
  | nil => rfl
  | @cons p v qs xs ps ys us ts hp hqs hps ihx ihy =>
    obtain ⟨hleft, hys, hdisjoint⟩ := List.nodup_append.mp hxs
    obtain ⟨hpxs, hxs⟩ := List.nodup_cons.mp hleft
    obtain ⟨hsamex, hsamey⟩ := List.forall_mem_append.mp hsame
    obtain ⟨hsamep, hsamex⟩ := List.forall_mem_cons.mp hsamex
    have hpmem : p ∈ h' := Finmap.mem_of_lookup_eq_some (hsamep.trans hp)
    have hlt := card_erase_lt hpmem
    cases n with
    | zero => omega
    | succ n =>
      have hchildren : deleteAll n qs (h'.erase p) = some (without (h'.erase p) xs) := by
        refine ihx hxs (fun x hx => ?_) (by omega)
        have hne : x ≠ p := fun hxp => hpxs (hxp ▸ hx)
        exact (Finmap.lookup_erase_ne hne).trans (hsamex x hx)
      have hrest : deleteAll (n + 1) ps (without h' (p :: xs)) =
          some (without (without h' (p :: xs)) ys) := by
        refine ihy hys (fun y hy => ?_) ((card_without_le h' _).trans hn)
        rw [lookup_without, if_neg fun hmem => hdisjoint y hmem y hy rfl]
        exact hsamey y hy
      rw [deleteAll_cons, delete_of_lookup (hsamep.trans hp), hchildren, Option.bind_some,
        ← without_cons, hrest, without_append]

/-- **Deletion is defined exactly when no object is met twice**, and removes the objects met. -/
theorem deleteAll_iff (hn : h.keys.card ≤ n) : deleteAll n ps h = some h' ↔
    ∃ ts xs, Reads h ps ts xs ∧ xs.Nodup ∧ h' = without h xs := by
  constructor
  · exact reads_of_deleteAll
  · rintro ⟨ts, xs, hr, hxs, rfl⟩
    exact hr.deleteAll_eq hxs (fun _ _ => rfl) hn

/-- Where pointers lead to trees, deletion removes their objects, or meets one twice. -/
theorem Reads.deleteAll_cases (hr : Reads h ps ts xs) (hn : h.keys.card ≤ n) :
    (xs.Nodup → deleteAll n ps h = some (without h xs)) ∧ (¬ xs.Nodup → deleteAll n ps h = none) := by
  refine ⟨fun hxs => hr.deleteAll_eq hxs (fun _ _ => rfl) hn, fun hxs => ?_⟩
  rcases hd : deleteAll n ps h with - | h'
  · rfl
  · obtain ⟨us, ys, hr', hys, -⟩ := (deleteAll_iff hn).mp hd
    exact absurd ((hr.unique hr').2 ▸ hys) hxs

end Reads

/-! ## New objects -/

/-- `new`, which puts an object at the address `p`. -/
def alloc (p : α) (v : ν) (qs : List α) (h : Heap α ν) : Heap α ν := h.insert p (v, qs)

/-- `Builds h ts ps h'`: objects for the trees `ts` are made by `new`, at the addresses `ps`; each pointer
is passed to one object only. -/
inductive Builds : Heap α ν → List (Rose ν) → List α → Heap α ν → Prop
  | nil (h : Heap α ν) : Builds h [] [] h
  | cons {h g h' : Heap α ν} {p : α} {v : ν} {qs ps : List α} {us ts : List (Rose ν)} :
    Builds h us qs g → p ∉ g → Builds (alloc p v qs g) ts ps h' →
      Builds h (.node v us :: ts) (p :: ps) h'

/-- `Adds h h' xs`: the objects `xs` are new in `h'`, all others are those of `h`. -/
structure Adds (h h' : Heap α ν) (xs : List α) : Prop where
  fresh : ∀ x ∈ xs, x ∉ h
  others : ∀ x ∉ xs, h'.lookup x = h.lookup x

section Builds

variable {h g h' : Heap α ν} {p x : α} {ps xs ys : List α} {ts us : List (Rose ν)}

theorem Adds.refl (h : Heap α ν) : Adds h h [] := ⟨fun _ hx => absurd hx List.not_mem_nil, fun _ _ => rfl⟩

theorem Adds.alloc (hp : p ∉ h) (v : ν) (qs : List α) : Adds h (alloc p v qs h) [p] :=
  ⟨List.forall_mem_singleton.mpr hp, fun _ hx =>
    Finmap.lookup_insert_of_ne h (mt List.mem_singleton.mpr hx)⟩

theorem Adds.lookup_of_mem (ha : Adds h h' xs) (hx : x ∈ h) : h'.lookup x = h.lookup x :=
  ha.others x fun hmem => ha.fresh x hmem hx

theorem Adds.mem (ha : Adds h h' xs) (hx : x ∈ h) : x ∈ h' := by
  by_contra hout
  have hlookup := ha.lookup_of_mem hx
  rw [Finmap.lookup_eq_none.mpr hout] at hlookup
  exact Finmap.lookup_eq_none.mp hlookup.symm hx

theorem Adds.trans (hx : Adds h g xs) (hy : Adds g h' ys) : Adds h h' (xs ++ ys) := by
  refine ⟨fun x hmem => ?_, fun x hout => ?_⟩
  · rcases List.mem_append.mp hmem with hmem | hmem
    · exact hx.fresh x hmem
    · exact fun hxh => hy.fresh x hmem (hx.mem hxh)
  · rw [List.mem_append, not_or] at hout
    exact (hy.others x hout.2).trans (hx.others x hout.1)

theorem Adds.perm (ha : Adds h h' xs) (hp : xs.Perm ys) : Adds h h' ys :=
  ⟨fun x hx => ha.fresh x (hp.mem_iff.mpr hx), fun x hx => ha.others x (mt hp.mem_iff.mp hx)⟩

/-- Without the new objects, the heap is the one before. -/
theorem Adds.without_eq (ha : Adds h h' xs) : without h' xs = h := by
  refine Finmap.ext_lookup fun x => ?_
  rw [lookup_without]
  split_ifs with hx
  · exact (Finmap.lookup_eq_none.mpr (ha.fresh x hx)).symm
  · exact ha.others x hx

/-- **New objects are met once**, below the pointers to them, and all others are as before. -/
theorem Builds.reads (hb : Builds h ts ps h') :
    ∃ xs, Reads h' ps ts xs ∧ xs.Nodup ∧ Adds h h' xs := by
  induction hb with
  | nil h => exact ⟨[], .nil, .nil, .refl h⟩
  | @cons h g h' p v qs ps us ts _ hp _ ihq ihp =>
    obtain ⟨xs, hqs, hxs, haddx⟩ := ihq
    obtain ⟨ys, hps, hys, haddy⟩ := ihp
    have hnew : Adds g h' (p :: ys) := (Adds.alloc hp v qs).trans haddy
    have hlookup : h'.lookup p = some (v, qs) :=
      (haddy.lookup_of_mem (Finmap.mem_insert.mpr (.inl rfl))).trans (Finmap.lookup_insert g)
    have hchildren : Reads h' qs us xs := hqs.congr fun x hx => hnew.lookup_of_mem (hqs.mem hx)
    refine ⟨p :: xs ++ ys, .cons hlookup hchildren hps, ?_, ?_⟩
    · refine List.Nodup.append (List.nodup_cons.mpr ⟨fun hmem => hp (hqs.mem hmem), hxs⟩) hys ?_
      intro x hx hy
      refine haddy.fresh x hy (Finmap.mem_insert.mpr ?_)
      exact (List.mem_cons.mp hx).imp_right hqs.mem
    · exact (haddx.trans hnew).perm List.perm_middle

end Builds

end Lib
