import Mathlib.Data.Finmap

/-!
# Chains of finite maps

A chain is a stack of finite maps, innermost first; a key means what the first map that has it
says. This is the lookup of nested scopes.

* `resolve`, `resolve_cons`, `resolve_append`;
* `resolve_append_of_forall_notMem`: maps that lack a key do not change what it means.
-/

namespace Lib

variable {α β : Type} [DecidableEq α]

/-- What a key means in a chain of finite maps. -/
def resolve (c : List (Finmap fun _ : α => β)) (a : α) : Option β :=
  c.findSome? fun m => m.lookup a

@[simp] theorem resolve_nil (a : α) : resolve ([] : List (Finmap fun _ : α => β)) a = none := rfl

theorem resolve_cons (m : Finmap fun _ : α => β) (c : List (Finmap fun _ : α => β)) (a : α) :
    resolve (m :: c) a = (m.lookup a).or (resolve c a) := by
  unfold resolve
  rw [List.findSome?_cons]
  cases m.lookup a <;> rfl

theorem resolve_append (c d : List (Finmap fun _ : α => β)) (a : α) :
    resolve (c ++ d) a = (resolve c a).or (resolve d a) := by
  unfold resolve
  rw [List.findSome?_append]

/-- Maps that lack a key do not change what it means. -/
theorem resolve_append_of_forall_notMem {c d : List (Finmap fun _ : α => β)} {a : α}
    (h : ∀ m ∈ c, a ∉ m) : resolve (c ++ d) a = resolve d a := by
  have hc : resolve c a = none := by
    unfold resolve
    rw [List.findSome?_eq_none_iff]
    exact fun m hm => Finmap.lookup_eq_none.mpr (h m hm)
  rw [resolve_append, hc, Option.none_or]

end Lib
