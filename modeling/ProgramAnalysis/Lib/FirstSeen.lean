import Mathlib.Data.List.Induction
import Mathlib.Data.List.Nodup

/-!
# First appearances

The distinct values of a list in the order of their first appearance, and a record of them that stops
at a limit.

* `eraseDups_concat`, `nodup_eraseDups`: one more value;
* `record`, **`record_firstSeen`**: a value goes to the end of the record if it is new and there is
  room; so the record always holds the first distinct values.
-/

namespace Lib

variable {α : Type} [DecidableEq α] {cap : ℕ} {rs : List α} {r : α}

theorem eraseDups_concat (rs : List α) (r : α) :
    (rs ++ [r]).eraseDups = if r ∈ rs then rs.eraseDups else rs.eraseDups ++ [r] := by
  rw [List.eraseDups_append]
  split_ifs with h
  · simp [List.removeAll, h]
  · simp [List.removeAll, h, List.eraseDups_cons]

theorem nodup_eraseDups (rs : List α) : rs.eraseDups.Nodup := by
  induction rs using List.reverseRecOn with
  | nil => exact List.nodup_nil
  | append_singleton rs r ih =>
    rw [eraseDups_concat]
    split_ifs with h
    · exact ih
    · refine List.nodup_append.mpr ⟨ih, List.nodup_singleton r, fun a ha b hb hab => h ?_⟩
      rw [← List.mem_singleton.mp hb, ← hab]
      exact List.mem_eraseDups.mp ha

/-- Put a value at the end of a record, if it is new and there is room. -/
def record (cap : ℕ) (h : List α) (r : α) : List α :=
  if r ∈ h then h else if h.length < cap then h ++ [r] else h

/-- While there is room, the record holds all values. -/
theorem take_eraseDups_of_lt (h : (rs.eraseDups.take cap).length < cap) :
    rs.eraseDups.take cap = rs.eraseDups := by
  rw [List.length_take] at h
  exact List.take_of_length_le (by omega)

theorem mem_firstSeen_iff (h : (rs.eraseDups.take cap).length < cap) :
    r ∈ rs.eraseDups.take cap ↔ r ∈ rs := by
  rw [take_eraseDups_of_lt h, List.mem_eraseDups]

/-- **The record holds the first distinct values**, and so it does with one more value. -/
theorem record_firstSeen (cap : ℕ) (rs : List α) (r : α) :
    record cap (rs.eraseDups.take cap) r = (rs ++ [r]).eraseDups.take cap := by
  rw [record, eraseDups_concat]
  by_cases hseen : r ∈ rs.eraseDups.take cap
  · rw [if_pos hseen, if_pos (List.mem_eraseDups.mp (List.mem_of_mem_take hseen))]
  rw [if_neg hseen]
  by_cases hroom : (rs.eraseDups.take cap).length < cap
  · have hnew : r ∉ rs := mt (mem_firstSeen_iff hroom).mpr hseen
    have hall := take_eraseDups_of_lt hroom
    rw [if_pos hroom, if_neg hnew, hall, List.take_of_length_le]
    rw [List.length_append, List.length_singleton]
    rw [hall] at hroom
    exact hroom
  · have hfull : cap ≤ rs.eraseDups.length := by
      rw [List.length_take] at hroom
      omega
    rw [if_neg hroom]
    split_ifs
    · rfl
    · rw [List.take_append_of_le_length hfull]

end Lib
