import Mathlib.Data.BitVec

/-!
# Byte memories

A memory that is addressed byte by byte and accessed by little-endian words.

* `Memory w`, `byte`: a byte at every `w`-bit address; the bytes of a word;
* `peek`, `poke`: the word of `k` bytes at an address, read and written;
* `byte_peek`: **a read has the bytes of the memory**;
* `poke_offset`, `poke_of_ne`: **a write has the bytes of the word**, and leaves the rest.
-/

namespace Lib

/-- A byte at every address. -/
abbrev Memory (w : ℕ) : Type := BitVec w → BitVec 8

/-- Byte `i` of a word, the lowest one first. -/
def byte {n : ℕ} (x : BitVec n) (i : ℕ) : BitVec 8 := x.extractLsb' (8 * i) 8

/-- The address `i` bytes after `a`. -/
def offset {w : ℕ} (a : BitVec w) (i : ℕ) : BitVec w := a + BitVec.ofNat w i

/-- The `k` bytes from `a` on as one word. -/
def peek {w : ℕ} (m : Memory w) (a : BitVec w) : (k : ℕ) → BitVec (8 * k)
  | 0 => 0
  | k + 1 => peek m (offset a 1) k ++ m a

/-- The memory after the `k` low bytes of `x` were written from `a` on. -/
def poke {w n : ℕ} (m : Memory w) (a : BitVec w) (k : ℕ) (x : BitVec n) : Memory w := fun p =>
  if (p - a).toNat < k then byte x (p - a).toNat else m p

section Word

variable {n : ℕ}

theorem getLsbD_byte (x : BitVec n) (i j : ℕ) :
    (byte x i).getLsbD j = (decide (j < 8) && x.getLsbD (8 * i + j)) := by
  rw [byte, BitVec.getLsbD_extractLsb']

/-- Words have one byte in common when they have its bits in common. -/
theorem byte_eq_of_getLsbD {m : ℕ} {x : BitVec n} {y : BitVec m} {i k : ℕ}
    (h : ∀ j, j < 8 → x.getLsbD (8 * i + j) = y.getLsbD (8 * k + j)) : byte x i = byte y k := by
  refine BitVec.eq_of_getLsbD_eq fun j hj => ?_
  rw [getLsbD_byte, getLsbD_byte, h j hj]

/-- A word has no bytes above its width. -/
theorem byte_of_le {x : BitVec n} {i : ℕ} (h : n ≤ 8 * i) : byte x i = 0 := by
  refine BitVec.eq_of_getLsbD_eq fun j _ => ?_
  rw [getLsbD_byte, BitVec.getLsbD_of_ge x (8 * i + j) (by omega), Bool.and_false]
  exact (BitVec.getLsbD_zero).symm

/-- The bytes of a word are those of a wider or narrower one, up to the width. -/
theorem byte_setWidth {m : ℕ} {x : BitVec n} {i : ℕ} (h : 8 * i + 8 ≤ m) :
    byte (x.setWidth m) i = byte x i := by
  refine byte_eq_of_getLsbD fun j hj => ?_
  have hlt : 8 * i + j < m := by omega
  rw [BitVec.getLsbD_setWidth, decide_eq_true hlt, Bool.true_and]

theorem byte_append_zero (x : BitVec n) (b : BitVec 8) : byte (x ++ b) 0 = b := by
  refine BitVec.eq_of_getLsbD_eq fun j hj => ?_
  have hlt : 8 * 0 + j < 8 := by omega
  rw [getLsbD_byte, BitVec.getLsbD_append, decide_eq_true hj, Bool.true_and, if_pos hlt,
    Nat.mul_zero, Nat.zero_add]

theorem byte_append_succ (x : BitVec n) (b : BitVec 8) (i : ℕ) :
    byte (x ++ b) (i + 1) = byte x i := by
  refine byte_eq_of_getLsbD fun j hj => ?_
  have hge : ¬ 8 * (i + 1) + j < 8 := by omega
  have hsub : 8 * (i + 1) + j - 8 = 8 * i + j := by omega
  rw [BitVec.getLsbD_append, if_neg hge, hsub]

end Word

section Memory

variable {w n k i : ℕ} {m : Memory w} {a p : BitVec w}

theorem offset_zero (a : BitVec w) : offset a 0 = a := BitVec.add_zero a

theorem offset_offset (a : BitVec w) (i j : ℕ) : offset (offset a i) j = offset a (i + j) := by
  rw [offset, offset, offset, BitVec.add_assoc, ← BitVec.ofNat_add]

theorem offset_sub_toNat (h : i < 2 ^ w) : (offset a i - a).toNat = i := by
  rw [offset, BitVec.add_comm, BitVec.add_sub_cancel, BitVec.toNat_ofNat, Nat.mod_eq_of_lt h]

/-- Different offsets below the size of the memory are different addresses. -/
theorem offset_injective {j : ℕ} (hi : i < 2 ^ w) (hj : j < 2 ^ w) (h : offset a i = offset a j) :
    i = j := by
  rw [← offset_sub_toNat (a := a) hi, h, offset_sub_toNat hj]

/-- **A read has the bytes of the memory.** -/
theorem byte_peek (m : Memory w) (a : BitVec w) (h : i < k) :
    byte (peek m a k) i = m (offset a i) := by
  induction k generalizing a i with
  | zero => omega
  | succ k ih =>
    cases i with
    | zero =>
      rw [offset_zero]
      exact byte_append_zero (peek m (offset a 1) k) (m a)
    | succ i =>
      have htail := ih (i := i) (offset a 1) (by omega)
      rw [offset_offset, Nat.add_comm 1 i] at htail
      rw [← htail]
      exact byte_append_succ (peek m (offset a 1) k) (m a) i

/-- **A write has the bytes of the word.** -/
theorem poke_offset {x : BitVec n} (hk : k ≤ 2 ^ w) (h : i < k) :
    poke m a k x (offset a i) = byte x i := by
  have hi : (offset a i - a).toNat = i := offset_sub_toNat (Nat.lt_of_lt_of_le h hk)
  rw [poke, hi, if_pos h]

/-- A write changes nothing else. -/
theorem poke_of_ne {x : BitVec n} (h : ∀ i, i < k → p ≠ offset a i) : poke m a k x p = m p := by
  have hout : ¬ (p - a).toNat < k := by
    intro hlt
    refine h _ hlt ?_
    rw [offset, BitVec.ofNat_toNat, BitVec.setWidth_eq, BitVec.add_comm, BitVec.sub_add_cancel]
  rw [poke, if_neg hout]

end Memory

end Lib
