import Mathlib.Data.Finset.Sort
import Mathlib.Data.Finmap
import Mathlib.Data.String.Basic

/-!
# Text of lines

* `Lib.text`: lines, each with its newline;
* **`text_injective`**: lines without a newline of their own can be read back from the text;
* `entry`, `entry_injective`: a key and a value in a line, where the value has no colon;
* `entries`, **`entries_injective`**: the lines for the entries of a map.
-/

namespace Lib

/-! ## Lines -/

section Terminated

variable {α : Type} {e : α} {l m s t : List α}

/-- Two lists up to the first `e` in each. -/
theorem append_cons_inj (hl : e ∉ l) (hm : e ∉ m) (h : l ++ e :: s = m ++ e :: t) :
    l = m ∧ s = t := by
  induction l generalizing m with
  | nil =>
    cases m with
    | nil => exact ⟨rfl, (List.cons.inj h).2⟩
    | cons b m => exact absurd (List.mem_cons.mpr (.inl (List.cons.inj h).1)) hm
  | cons a l ih =>
    cases m with
    | nil => exact absurd (List.mem_cons.mpr (.inl (List.cons.inj h).1.symm)) hl
    | cons b m =>
      obtain ⟨rfl, htail⟩ := List.cons.inj h
      obtain ⟨rfl, hst⟩ := ih (fun h' => hl (List.mem_cons_of_mem a h'))
        (fun h' => hm (List.mem_cons_of_mem a h')) htail
      exact ⟨rfl, hst⟩

theorem flatMap_concat_injective {ls ms : List (List α)} (hls : ∀ l ∈ ls, e ∉ l)
    (hms : ∀ l ∈ ms, e ∉ l) (h : ls.flatMap (· ++ [e]) = ms.flatMap (· ++ [e])) : ls = ms := by
  induction ls generalizing ms with
  | nil =>
    cases ms with
    | nil => rfl
    | cons m ms => simp at h
  | cons l ls ih =>
    cases ms with
    | nil => simp at h
    | cons m ms =>
      simp only [List.flatMap_cons, List.append_assoc, List.singleton_append] at h
      obtain ⟨hl, hls'⟩ := List.forall_mem_cons.mp hls
      obtain ⟨hm, hms'⟩ := List.forall_mem_cons.mp hms
      obtain ⟨rfl, hrest⟩ := append_cons_inj hl hm h
      rw [ih hls' hms' hrest]

end Terminated

/-- The text of lines that are each ended by a newline. -/
def text (lines : List String) : String := String.join (lines.map (· ++ "\n"))

/-- **Lines can be read back from their text.** -/
theorem text_injective {ls ms : List String} (hls : ∀ l ∈ ls, '\n' ∉ l.toList)
    (hms : ∀ l ∈ ms, '\n' ∉ l.toList) (h : text ls = text ms) : ls = ms := by
  have htext : ∀ ls : List String, (text ls).toList =
      (ls.map String.toList).flatMap (· ++ ['\n']) := by
    intro ls
    rw [text, String.toList_join, List.flatMap_map, List.flatMap_map]
    simp only [String.toList_append]
    rfl
  refine List.map_injective_iff.mpr (fun _ _ => String.toList_injective) ?_
  refine flatMap_concat_injective (e := '\n') ?_ ?_ ?_
  · exact fun l hl => by
      obtain ⟨l, hmem, rfl⟩ := List.mem_map.mp hl
      exact hls l hmem
  · exact fun l hl => by
      obtain ⟨l, hmem, rfl⟩ := List.mem_map.mp hl
      exact hms l hmem
  · rw [← htext, ← htext, h]

/-! ## Entries -/

/-- A key and a value in a line. -/
def entry (key value : String) : String := key ++ " : " ++ value

theorem toList_entry (key value : String) :
    (entry key value).toList = key.toList ++ ' ' :: ':' :: ' ' :: value.toList := by
  simp [entry]

/-- The key ends before the last colon, whatever it is. -/
theorem entry_injective {k k' v v' : String} (hv : ':' ∉ v.toList) (hv' : ':' ∉ v'.toList)
    (h : entry k v = entry k' v') : k = k' ∧ v = v' := by
  have hlist : (v.toList.reverse ++ [' ']) ++ ':' :: ' ' :: k.toList.reverse =
      (v'.toList.reverse ++ [' ']) ++ ':' :: ' ' :: k'.toList.reverse := by
    have hreverse := congrArg (fun s => s.toList.reverse) h
    simpa [toList_entry] using hreverse
  obtain ⟨hvalue, hkey⟩ := append_cons_inj (by simpa using hv) (by simpa using hv') hlist
  exact ⟨String.toList_injective (List.reverse_injective (List.cons.inj hkey).2),
    String.toList_injective (List.reverse_injective (List.append_cancel_right hvalue))⟩

theorem newline_notMem_entry {key value : String} (hk : '\n' ∉ key.toList)
    (hv : '\n' ∉ value.toList) : '\n' ∉ (entry key value).toList := by
  rw [toList_entry]
  simp [hk, hv]

/-- The entries of a map, in the order of their keys. -/
def listing {V : Type} (T : Finmap fun _ : String => V) : List (String × V) :=
  T.keys.sort.filterMap fun key => (T.lookup key).map (key, ·)

/-- A line for every entry of a map. -/
def entries {V : Type} (shown : V → String) (T : Finmap fun _ : String => V) : List String :=
  (listing T).map fun p => entry p.1 (shown p.2)

section Entries

variable {V : Type} {shown : V → String} {T U : Finmap fun _ : String => V}

theorem mem_listing {key : String} {v : V} : (key, v) ∈ listing T ↔ T.lookup key = some v := by
  simp only [listing, List.mem_filterMap, Finset.mem_sort, Finmap.mem_keys, Option.map_eq_some_iff,
    Prod.mk.injEq]
  constructor
  · rintro ⟨_, -, _, h, rfl, rfl⟩
    exact h
  · intro h
    exact ⟨key, Finmap.mem_iff.mpr ⟨v, h⟩, v, h, rfl, rfl⟩

theorem listing_singleton (key : String) (v : V) :
    listing ((∅ : Finmap fun _ : String => V).insert key v) = [(key, v)] := by
  have hkeys : ((∅ : Finmap fun _ : String => V).insert key v).keys = {key} := by
    ext key'
    simp [Finmap.mem_keys, Finmap.mem_insert, Finmap.notMem_empty]
  rw [listing, hkeys, Finset.sort_singleton]
  simp [Finmap.lookup_insert]

theorem listing_injective (h : listing T = listing U) : T = U := by
  refine Finmap.ext_lookup fun key => Option.ext fun v => ?_
  rw [← mem_listing, ← mem_listing, h]

theorem entries_list_injective (hshown : shown.Injective) (hcolon : ∀ v, ':' ∉ (shown v).toList)
    (h : entries shown T = entries shown U) : T = U := by
  refine listing_injective (List.map_injective_iff.mpr ?_ h)
  rintro ⟨k, v⟩ ⟨k', v'⟩ hentry
  obtain ⟨rfl, hv⟩ := entry_injective (hcolon v) (hcolon v') hentry
  rw [hshown hv]

theorem newline_notMem_entries (hline : ∀ v, '\n' ∉ (shown v).toList)
    (hT : ∀ key ∈ T, '\n' ∉ key.toList) : ∀ l ∈ entries shown T, '\n' ∉ l.toList := by
  intro l hl
  obtain ⟨⟨key, v⟩, hmem, rfl⟩ := List.mem_map.mp hl
  have hkey : key ∈ T := Finmap.mem_iff.mpr ⟨v, mem_listing.mp hmem⟩
  exact newline_notMem_entry (hT key hkey) (hline v)

/-- **A map can be read back from the text of its entries**, where no key has a newline, and no value a
newline or a colon. -/
theorem entries_injective (hshown : shown.Injective) (hline : ∀ v, '\n' ∉ (shown v).toList)
    (hcolon : ∀ v, ':' ∉ (shown v).toList) (hT : ∀ key ∈ T, '\n' ∉ key.toList)
    (hU : ∀ key ∈ U, '\n' ∉ key.toList) (h : text (entries shown T) = text (entries shown U)) :
    T = U :=
  entries_list_injective hshown hcolon
    (text_injective (newline_notMem_entries hline hT) (newline_notMem_entries hline hU) h)

/-- A line that ends with a colon is no entry. -/
theorem notMem_entries (hcolon : ∀ v, ':' ∉ (shown v).toList) (hne : ∀ v, shown v ≠ "")
    {line : String} (hlast : line.toList.getLast? = some ':') : line ∉ entries shown T := by
  intro hmem
  obtain ⟨⟨key, v⟩, -, rfl⟩ := List.mem_map.mp hmem
  have hv : (shown v).toList ≠ [] := fun h => hne v (String.toList_eq_nil_iff.mp h)
  have hsplit : (entry key (shown v)).toList = (key.toList ++ [' ', ':', ' ']) ++ (shown v).toList := by
    rw [toList_entry]
    simp
  rw [hsplit, List.getLast?_append_of_ne_nil _ hv] at hlast
  exact hcolon v (List.mem_of_getLast? hlast)

end Entries

/-! ## Numbers -/

/-- A number in decimals has no other characters than digits and a sign. -/
theorem mem_toString_int {z : ℤ} {c : Char} (h : c ∈ (toString z).toList) : c.isDigit ∨ c = '-' := by
  have hdigits : ∀ {n : ℕ}, c ∈ n.repr.toList → c.isDigit := fun h =>
    Nat.isDigit_of_mem_toDigits (by decide) (by decide) (Nat.toList_repr ▸ h)
  rw [Int.toString_eq_repr, Int.repr_eq_if] at h
  split_ifs at h
  · exact .inl (hdigits h)
  · rw [String.toList_append, List.mem_append] at h
    rcases h with h | h
    · exact .inr (by simpa using h)
    · exact .inl (hdigits h)

theorem toString_int_injective {y z : ℤ} (h : toString y = toString z) : y = z := by
  have hnat : ∀ {m n : ℕ}, m.repr = n.repr → m = n := by
    intro m n h
    have hlist := congrArg (fun s => Nat.ofDigitChars 10 s.toList 0) h
    simpa only [Nat.toList_repr, Nat.ofDigitChars_ten_toDigits] using hlist
  -- a sign is no digit
  have hsign : ∀ {m n : ℕ}, m.repr ≠ "-" ++ n.repr := by
    intro m n h
    have hmem : '-' ∈ m.repr.toList := by
      rw [h, String.toList_append]
      exact List.mem_append_left _ (by decide)
    rw [Nat.toList_repr] at hmem
    exact absurd (Nat.isDigit_of_mem_toDigits (by decide) (by decide) hmem) (by decide)
  simp only [Int.toString_eq_repr, Int.repr_eq_if] at h
  split_ifs at h with hy hz hz
  · have hsame := hnat h
    omega
  · exact absurd h hsign
  · exact absurd h.symm hsign
  · have hsame := hnat (String.append_right_inj _ |>.mp h)
    omega

end Lib
