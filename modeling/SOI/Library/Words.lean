import Mathlib.Tactic
import Mathlib.Logic.Function.Basic

/-! # Words and bytes of memory

Memory from some address on, as 32-bit words. Words are stored one after the other, and
a number of bytes is read, the lowest byte of each word first. What has been read depends
on what had been in memory before as soon as it goes beyond the words stored.
-/
namespace SOI.Words

abbrev Memory := ℕ → UInt32

variable {mem mem' : Memory} {ws : List UInt32} {i j k n : ℕ}

/-- Words stored one after the other from the index `k` on. -/
def store (mem : Memory) (k : ℕ) : List UInt32 → Memory
  | [] => mem
  | w :: ws => store (Function.update mem k w) (k + 1) ws

theorem store_append (mem : Memory) (k : ℕ) (ws vs : List UInt32) :
    store mem k (ws ++ vs) = store (store mem k ws) (k + ws.length) vs := by
  induction ws generalizing mem k with
  | nil => rfl
  | cons w ws ih =>
    rw [List.cons_append, store, store, ih, List.length_cons, Nat.add_right_comm, Nat.add_assoc]

theorem store_of_lt (h : j < k) : store mem k ws j = mem j := by
  induction ws generalizing mem k with
  | nil => rfl
  | cons w ws ih => rw [store, ih (by omega), Function.update_of_ne (by omega)]

theorem store_of_ge (h : k + ws.length ≤ j) : store mem k ws j = mem j := by
  induction ws generalizing mem k with
  | nil => rfl
  | cons w ws ih =>
    rw [List.length_cons] at h
    rw [store, ih (by omega), Function.update_of_ne (by omega)]

theorem store_add (h : i < ws.length) : store mem k ws (k + i) = ws[i] := by
  induction ws generalizing mem k i with
  | nil => simp at h
  | cons w ws ih =>
    cases i with
    | zero => rw [store, store_of_lt (by omega), Nat.add_zero, Function.update_self, List.getElem_cons_zero]
    | succ i =>
      have hindex : k + (i + 1) = k + 1 + i := by omega
      rw [store, hindex, ih (by simpa using h), List.getElem_cons_succ]

def byteOf (w : UInt32) (i : ℕ) : UInt8 := UInt8.ofNat (w.toNat / 256 ^ i)

def bytes (mem : Memory) (n : ℕ) : List UInt8 := (List.range n).map fun i => byteOf (mem (i / 4)) (i % 4)

@[simp] theorem length_bytes (mem : Memory) (n : ℕ) : (bytes mem n).length = n := by
  rw [bytes, List.length_map, List.length_range]

def wordAt (bs : List UInt8) (j : ℕ) : UInt32 :=
  UInt32.ofNat ((bs.getD (4 * j) 0).toNat + 256 * (bs.getD (4 * j + 1) 0).toNat +
    65536 * (bs.getD (4 * j + 2) 0).toNat + 16777216 * (bs.getD (4 * j + 3) 0).toNat)

theorem getD_bytes (hi : i < 4) (h : 4 * j + i < n) : (bytes mem n).getD (4 * j + i) 0 = byteOf (mem j) i := by
  have hdiv : (4 * j + i) / 4 = j := by omega
  have hmod : (4 * j + i) % 4 = i := by omega
  rw [List.getD_eq_getElem?_getD, bytes, List.getElem?_map, List.getElem?_range h, Option.map_some, Option.getD_some,
    hdiv, hmod]

theorem wordAt_bytes (h : 4 * (j + 1) ≤ n) : wordAt (bytes mem n) j = mem j := by
  have hlt := (mem j).toNat_lt
  apply UInt32.toNat_inj.mp
  rw [wordAt, getD_bytes (i := 1) (by decide) (by omega), getD_bytes (i := 2) (by decide) (by omega),
    getD_bytes (i := 3) (by decide) (by omega), ← Nat.add_zero (4 * j), getD_bytes (i := 0) (by decide) (by omega)]
  simp only [byteOf, UInt8.toNat_ofNat', UInt32.toNat_ofNat']
  omega

/-- The words that have been read completely. -/
def wholeWords (bs : List UInt8) : List UInt32 := (List.range (bs.length / 4)).map (wordAt bs)

theorem wholeWords_bytes (mem : Memory) (n : ℕ) : wholeWords (bytes mem n) = (List.range (n / 4)).map mem := by
  rw [wholeWords, length_bytes]
  refine List.map_congr_left fun j hj => wordAt_bytes ?_
  rw [List.mem_range] at hj
  omega

theorem wholeWords_store (h : 4 * ws.length ≤ n) : wholeWords (bytes (store mem 0 ws) n) =
    ws ++ (List.range (n / 4 - ws.length)).map fun i => mem (ws.length + i) := by
  have hsplit : n / 4 = ws.length + (n / 4 - ws.length) := by omega
  rw [wholeWords_bytes, hsplit, List.range_add, List.map_append, Nat.add_sub_cancel_left, List.map_map]
  congr 1
  · refine List.ext_getElem (by simp) fun i hi hi' => ?_
    rw [List.getElem_map, List.getElem_range]
    simpa using @store_add mem ws i 0 hi'
  · refine List.map_congr_left fun i _ => store_of_ge ?_
    simp

/-- What is read does not depend on memory exactly if only words stored are read. -/
theorem bytes_store_fixed_iff : (∀ mem mem' : Memory, bytes (store mem 0 ws) n = bytes (store mem' 0 ws) n) ↔
    n ≤ 4 * ws.length := by
  constructor
  · intro h
    by_contra hn
    have hbyte : ∀ mem : Memory, (bytes (store mem 0 ws) n).getD (4 * ws.length + 0) 0 = byteOf (mem ws.length) 0 := by
      intro mem
      rw [getD_bytes (by decide) (by omega), store_of_ge (by omega)]
    have hsame := congrArg (fun bs => bs.getD (4 * ws.length + 0) 0) (h (fun _ => 0) fun _ => 1)
    simp only [hbyte] at hsame
    exact absurd hsame (by decide)
  · intro h mem mem'
    refine List.map_congr_left fun i hi => ?_
    rw [List.mem_range] at hi
    have hstored : i / 4 < ws.length := by omega
    rw [← Nat.zero_add (i / 4), store_add hstored, store_add hstored]

end SOI.Words
