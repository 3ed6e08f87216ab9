import SOI.Memory.WorstFit
import SOI.Library.Words

/-! # The map of holes

`do_hole_map` fills a local array with the lengths and bases of the holes below the swap
area, and copies as many bytes as the caller asks for from its start. The array is not
initialised, and behind it lies other memory of the memory manager.
-/
namespace SOI.Memory
open Linked Intervals Words
variable {N swap_base dst_vir : ℕ} {t : Table N} {xs ys zs : List (Fin N)} {m1_i1 : Int32}

/-- The conversion of an int; numbers that are not negative stay as they are. -/
def size_t (n : Int32) : ℕ := n.toUInt32.toNat

structure Reply where
  count : ℕ
  dst_vir : ℕ
  bytes : List UInt8

def fillPairs (t : Table N) (swap_base max_pairs : ℕ) :
    ℕ → ℕ → Memory → Option (Fin N) → Except Stop (ℕ × Memory)
  | 0, _, _, _ => .error .loop
  | _ + 1, count, buffer, none => .ok (count,buffer)
  | fuel + 1, count, buffer, some hp =>
    if count < max_pairs ∧ (t.hole hp).h_base < swap_base then
      let buffer := Function.update buffer (count * 2) (UInt32.ofNat (t.hole hp).h_len)
      let buffer := Function.update buffer (count * 2 + 1) (UInt32.ofNat (t.hole hp).h_base)
      fillPairs t swap_base max_pairs fuel (count + 1) buffer (t.next hp)
    else .ok (count,buffer)

/-- `buffer` is the memory from the local array on, as the call finds it. -/
def do_hole_map (t : Table N) (swap_base m1_p1 : ℕ) (m1_i1 : Int32) (buffer : Memory) : Except Stop Reply := do
  let nbytes := size_t m1_i1
  let max_pairs := nbytes / (2 * 4)
  let (count,buffer) ← fillPairs t swap_base max_pairs (N + 1) 0 buffer t.hole_head
  let buffer := if count < max_pairs then Function.update buffer (count * 2) 0 else buffer
  .ok ⟨count,m1_p1,bytes buffer nbytes⟩

/-- The loop of the client over the words that it has got: the lengths that it prints, none
if it finds no zero. -/
def scan : List UInt32 → Option (List UInt32)
  | [] => none
  | [l] => if l = 0 then some [] else none
  | l :: _ :: rest => if l = 0 then some [] else (scan rest).map (l :: ·)

def pairWords (bs : List Block) : List UInt32 := bs.flatMap fun b => [UInt32.ofNat b.len,UInt32.ofNat b.base]

theorem pairWords_cons (b : Block) (bs : List Block) :
    pairWords (b :: bs) = UInt32.ofNat b.len :: UInt32.ofNat b.base :: pairWords bs := rfl

@[simp] theorem length_pairWords (bs : List Block) : (pairWords bs).length = 2 * bs.length := by
  induction bs with
  | nil => rfl
  | cons b bs ih =>
    rw [pairWords_cons, List.length_cons, List.length_cons, List.length_cons, ih]
    omega

def lowBlocks (swap_base : ℕ) (bs : List Block) : List Block := bs.takeWhile fun b => b.base < swap_base

theorem blocks_low (t : Table N) (swap_base : ℕ) (xs : List (Fin N)) :
    t.blocks (t.low swap_base xs) = lowBlocks swap_base (t.blocks xs) := by
  rw [Table.blocks, Table.blocks, lowBlocks, List.takeWhile_map]
  rfl

theorem fillPairs_store {max_pairs fuel count : ℕ} {buffer : Memory} {b : Option (Fin N)}
    (h : Seg some t.next b xs none) (hfuel : xs.length < fuel) :
    fillPairs t swap_base max_pairs fuel count buffer b =
      .ok (count + ((lowBlocks swap_base (t.blocks xs)).take (max_pairs - count)).length,
        store buffer (count * 2) (pairWords ((lowBlocks swap_base (t.blocks xs)).take (max_pairs - count)))) := by
  induction xs generalizing b fuel count buffer with
  | nil =>
    obtain ⟨fuel,rfl⟩ : ∃ n, fuel = n + 1 := ⟨fuel - 1,by omega⟩
    obtain rfl : b = none := h
    rw [Table.blocks, List.map_nil, lowBlocks, List.takeWhile_nil, List.take_nil]
    rfl
  | cons x xs ih =>
    obtain ⟨fuel,rfl⟩ : ∃ n, fuel = n + 1 := ⟨fuel - 1,by omega⟩
    obtain ⟨rfl,hrest⟩ := h
    rw [← blocks_low]
    by_cases hgoes : count < max_pairs ∧ (t.hole x).h_base < swap_base
    · obtain ⟨m,hm⟩ : ∃ m, max_pairs - count = m + 1 := ⟨max_pairs - count - 1,by omega⟩
      have hm' : max_pairs - (count + 1) = m := by omega
      have hlow : (t.blocks (t.low swap_base (x :: xs))).take (max_pairs - count) =
          t.block x :: (lowBlocks swap_base (t.blocks xs)).take m := by
        rw [hm, low_cons_of_lt hgoes.2, ← blocks_low]
        rfl
      rw [fillPairs, if_pos hgoes, ih hrest (show xs.length < fuel by simp at hfuel; omega), hlow, hm',
        List.length_cons, Nat.add_assoc, Nat.add_comm 1, Nat.add_mul]
      rfl
    · have hlow : (t.blocks (t.low swap_base (x :: xs))).take (max_pairs - count) = [] := by
        rcases not_and_or.mp hgoes with hfull | habove
        · rw [Nat.sub_eq_zero_of_le (Nat.le_of_not_lt hfull), List.take_zero]
        · rw [low_cons_of_not_lt habove]
          exact List.take_nil
      rw [fillPairs, if_neg hgoes, hlow]
      rfl

def filled (max_pairs : ℕ) (bs : List Block) : List UInt32 :=
  pairWords (bs.take max_pairs) ++ if bs.length < max_pairs then [0] else []

theorem length_filled (max_pairs : ℕ) (bs : List Block) :
    (filled max_pairs bs).length = 2 * min bs.length max_pairs + if bs.length < max_pairs then 1 else 0 := by
  rw [filled, List.length_append, length_pairWords, List.length_take, Nat.min_comm]
  split_ifs <;> rfl

/-- The whole call: what has been filled in, as many bytes as asked for. -/
theorem do_hole_map_eq (h : Slots t xs ys) (swap_base m1_p1 : ℕ) (m1_i1 : Int32) (buffer : Memory) :
    do_hole_map t swap_base m1_p1 m1_i1 buffer =
      .ok ⟨min (lowBlocks swap_base (t.blocks xs)).length (size_t m1_i1 / 8),m1_p1,
        bytes (store buffer 0 (filled (size_t m1_i1 / 8) (lowBlocks swap_base (t.blocks xs)))) (size_t m1_i1)⟩ := by
  have hfill := @fillPairs_store _ swap_base _ _ (size_t m1_i1 / 8) _ 0 buffer _ h.holes h.length_le
  generalize lowBlocks swap_base (t.blocks xs) = bs at hfill ⊢
  have hcount : (bs.take (size_t m1_i1 / 8)).length = min bs.length (size_t m1_i1 / 8) := by
    rw [List.length_take, Nat.min_comm]
  rw [Nat.sub_zero, Nat.zero_add, Nat.zero_mul, hcount] at hfill
  have hdone : do_hole_map t swap_base m1_p1 m1_i1 buffer =
      (fillPairs t swap_base (size_t m1_i1 / 8) (N + 1) 0 buffer t.hole_head).bind fun r => .ok ⟨r.1,m1_p1,
        bytes (if r.1 < size_t m1_i1 / 8 then Function.update r.2 (r.1 * 2) 0 else r.2) (size_t m1_i1)⟩ := rfl
  rw [hdone, hfill]
  show Except.ok _ = Except.ok _
  congr 3
  rw [filled, store_append, Nat.zero_add, length_pairWords, hcount, Nat.mul_comm]
  by_cases hlt : bs.length < size_t m1_i1 / 8
  · rw [if_pos hlt, if_pos (by omega)]
    rfl
  · rw [if_neg hlt, if_neg (by omega)]
    rfl

theorem filled_fits (h : Slots t xs ys) (swap_base max_pairs : ℕ) :
    (filled max_pairs (lowBlocks swap_base (t.blocks xs))).length ≤ N * 2 + 1 := by
  have hlow : (lowBlocks swap_base (t.blocks xs)).length ≤ (t.blocks xs).length := (List.takeWhile_prefix _).length_le
  have hxs : (t.blocks xs).length = xs.length := List.length_map ..
  have hle := h.length_le
  rw [length_filled]
  split_ifs <;> omega

theorem scan_pairWords {bs : List Block} {rest : List UInt32} (hbs : ∀ b ∈ bs, UInt32.ofNat b.len ≠ 0) :
    scan (pairWords bs ++ 0 :: rest) = some (bs.map fun b => UInt32.ofNat b.len) := by
  induction bs with
  | nil =>
    cases rest with
    | nil => rfl
    | cons w rest => rfl
  | cons b bs ih =>
    rw [pairWords_cons, List.cons_append, List.cons_append, scan, if_neg (hbs b List.mem_cons_self),
      ih fun c hc => hbs c (List.mem_cons_of_mem _ hc)]
    rfl

/-- The words that the caller gets: the pairs, then a zero, or nothing, or the next word of memory. -/
theorem words_cases (bs : List Block) (nbytes : ℕ) (buffer : Memory) : ∃ rest : List UInt32,
    wholeWords (bytes (store buffer 0 (filled (nbytes / 8) bs)) nbytes) = pairWords (bs.take (nbytes / 8)) ++ rest ∧
    (bs.length < nbytes / 8 → rest.head? = some 0) ∧
    (nbytes / 8 ≤ bs.length → rest.head? = if nbytes % 8 < 4 then none else some (buffer (2 * (nbytes / 8)))) := by
  obtain ⟨k,hk⟩ : ∃ k, (filled (nbytes / 8) bs).length = k := ⟨_,rfl⟩
  have hlength := length_filled (nbytes / 8) bs
  rw [hk] at hlength
  have hwords : wholeWords (bytes (store buffer 0 (filled (nbytes / 8) bs)) nbytes) =
      filled (nbytes / 8) bs ++ (List.range (nbytes / 4 - k)).map fun i => buffer (k + i) := by
    rw [← hk]
    refine wholeWords_store ?_
    split_ifs at hlength <;> omega
  refine ⟨(if bs.length < nbytes / 8 then [0] else []) ++ (List.range (nbytes / 4 - k)).map fun i => buffer (k + i),
    by rw [hwords, filled, List.append_assoc],fun hlt => by rw [if_pos hlt]; rfl,fun hle => ?_⟩
  rw [if_neg (Nat.not_lt.mpr hle), Nat.min_eq_right hle, Nat.add_zero] at hlength
  rw [if_neg (Nat.not_lt.mpr hle), List.nil_append, List.head?_map, hlength]
  by_cases hword : nbytes % 8 < 4
  · have hnone : nbytes / 4 - 2 * (nbytes / 8) = 0 := by omega
    rw [if_pos hword, hnone]
    rfl
  · have hone : nbytes / 4 - 2 * (nbytes / 8) = 1 := by omega
    rw [if_neg hword, hone]
    rfl

/-- Both lists are in order, the holes in ascending order, their numbers words and their
lengths not zero. -/
structure WellFormed (t : Table N) (xs ys : List (Fin N)) : Prop where
  slots : Slots t xs ys
  ascending : Ascending t xs
  len_pos : ∀ b ∈ t.blocks xs, 0 < b.len
  words : ∀ b ∈ t.blocks xs, b.len < 2 ^ 32 ∧ b.base < 2 ^ 32

def blocksBelow (swap_base : ℕ) (bs : List Block) : List Block := bs.filter fun b => b.base < swap_base

theorem WellFormed.lowBlocks_eq (h : WellFormed t xs ys) (swap_base : ℕ) :
    lowBlocks swap_base (t.blocks xs) = blocksBelow swap_base (t.blocks xs) := by
  rw [← blocks_low, h.ascending.low_eq, blocksBelow, Table.blocks, Table.blocks, List.filter_map]
  rfl

/-- The format of the reply: so many holes as there are and fit in whole, the pairs of the
first of them, and a zero behind them if there is room for one word more; then the client's
loop reads just these holes. -/
structure Formatted (swap_base nbytes : ℕ) (bs : List Block) (r : Reply) : Prop where
  count : r.count = min (blocksBelow swap_base bs).length (nbytes / 8)
  pairs : ((wholeWords r.bytes).take (2 * r.count)).map UInt32.toNat =
    ((blocksBelow swap_base bs).take r.count).flatMap fun b => [b.len,b.base]
  terminated : (2 * r.count + 1) * 4 ≤ nbytes → (wholeWords r.bytes)[2 * r.count]? = some 0
  scanned : (2 * r.count + 1) * 4 ≤ nbytes → (scan (wholeWords r.bytes)).map (List.map UInt32.toNat) =
    some (((blocksBelow swap_base bs).take r.count).map Block.len)

theorem toNat_pairWords {bs : List Block} (h : ∀ b ∈ bs, b.len < 2 ^ 32 ∧ b.base < 2 ^ 32) :
    (pairWords bs).map UInt32.toNat = bs.flatMap fun b => [b.len,b.base] := by
  induction bs with
  | nil => rfl
  | cons b bs ih =>
    obtain ⟨hlen,hbase⟩ := h b List.mem_cons_self
    rw [pairWords_cons, List.map_cons, List.map_cons, ih fun c hc => h c (List.mem_cons_of_mem _ hc),
      UInt32.toNat_ofNat_of_lt' hlen, UInt32.toNat_ofNat_of_lt' hbase]
    rfl

theorem formatted_iff {nbytes : ℕ} {bs : List Block} {r : Reply} {rest : List UInt32}
    (hbs : ∀ b ∈ blocksBelow swap_base bs, 0 < b.len ∧ b.len < 2 ^ 32 ∧ b.base < 2 ^ 32)
    (hcount : r.count = min (blocksBelow swap_base bs).length (nbytes / 8))
    (hwords : wholeWords r.bytes = pairWords ((blocksBelow swap_base bs).take (nbytes / 8)) ++ rest) :
    Formatted swap_base nbytes bs r ↔ ((2 * r.count + 1) * 4 ≤ nbytes → rest.head? = some 0) := by
  have htake : (blocksBelow swap_base bs).take r.count = (blocksBelow swap_base bs).take (nbytes / 8) := by
    rw [List.take_eq_take_iff, hcount]
    omega
  have hlength : (pairWords ((blocksBelow swap_base bs).take (nbytes / 8))).length = 2 * r.count := by
    rw [length_pairWords, List.length_take, hcount, Nat.min_comm]
  have hmem : ∀ b ∈ (blocksBelow swap_base bs).take (nbytes / 8), b ∈ blocksBelow swap_base bs :=
    fun b hb => List.mem_of_mem_take hb
  constructor
  · intro h hroom
    have hword := h.terminated hroom
    rwa [hwords, List.getElem?_append_right hlength.le, hlength, Nat.sub_self, ← List.head?_eq_getElem?] at hword
  · intro hzero
    refine ⟨hcount,?_,fun hroom => ?_,fun hroom => ?_⟩
    · rw [hwords, List.take_left' hlength, htake]
      exact toNat_pairWords fun b hb => (hbs b (hmem b hb)).2
    · rw [hwords, List.getElem?_append_right hlength.le, hlength, Nat.sub_self, ← List.head?_eq_getElem?]
      exact hzero hroom
    · obtain ⟨rest',rfl⟩ := List.head?_eq_some_iff.mp (hzero hroom)
      have hne : ∀ b ∈ (blocksBelow swap_base bs).take (nbytes / 8), UInt32.ofNat b.len ≠ 0 := by
        intro b hb hlen
        obtain ⟨hpos,hlt,-⟩ := hbs b (hmem b hb)
        have hval := congrArg UInt32.toNat hlen
        rw [UInt32.toNat_ofNat_of_lt' hlt] at hval
        exact hpos.ne' hval
      rw [hwords, scan_pairWords hne, Option.map_some, List.map_map, htake]
      refine congrArg some (List.map_congr_left fun b hb => ?_)
      exact UInt32.toNat_ofNat_of_lt' (hbs b (hmem b hb)).2.1

/-- The reply has the format unless there are as many holes as pairs, and the buffer is
longer by a word: then that word is what has been in memory. -/
theorem hole_map_formatted_iff (h : WellFormed t xs ys) (swap_base m1_p1 : ℕ) (m1_i1 : Int32) (buffer : Memory) :
    (∃ r, do_hole_map t swap_base m1_p1 m1_i1 buffer = .ok r ∧
      Formatted swap_base (size_t m1_i1) (t.blocks xs) r) ↔
    (blocksBelow swap_base (t.blocks xs)).length < size_t m1_i1 / 8 ∨ size_t m1_i1 % 8 < 4 ∨
      buffer (2 * (size_t m1_i1 / 8)) = 0 := by
  have hbs : ∀ b ∈ blocksBelow swap_base (t.blocks xs), 0 < b.len ∧ b.len < 2 ^ 32 ∧ b.base < 2 ^ 32 := by
    intro b hb
    have hmem := List.mem_of_mem_filter hb
    exact ⟨h.len_pos b hmem,h.words b hmem⟩
  rw [do_hole_map_eq h.slots, h.lowBlocks_eq]
  obtain ⟨rest,hwords,hroom,hfull⟩ := words_cases (blocksBelow swap_base (t.blocks xs)) (size_t m1_i1) buffer
  generalize bytes (store buffer 0 (filled (size_t m1_i1 / 8) (blocksBelow swap_base (t.blocks xs)))) (size_t m1_i1) =
    copied at hwords ⊢
  have hformat : Formatted swap_base (size_t m1_i1) (t.blocks xs)
      ⟨min (blocksBelow swap_base (t.blocks xs)).length (size_t m1_i1 / 8),m1_p1,copied⟩ ↔
      ((2 * min (blocksBelow swap_base (t.blocks xs)).length (size_t m1_i1 / 8) + 1) * 4 ≤ size_t m1_i1 →
        rest.head? = some 0) := formatted_iff hbs rfl hwords
  simp only [Except.ok.injEq, exists_eq_left', hformat]
  by_cases hlt : (blocksBelow swap_base (t.blocks xs)).length < size_t m1_i1 / 8
  · exact iff_of_true (fun _ => hroom hlt) (Or.inl hlt)
  have hle := Nat.le_of_not_lt hlt
  rw [Nat.min_eq_right hle, hfull hle]
  by_cases hword : size_t m1_i1 % 8 < 4
  · exact iff_of_true (fun hroom => by omega) (Or.inr (Or.inl hword))
  · rw [if_neg hword, Option.some.injEq]
    constructor
    · intro hzero
      exact Or.inr (Or.inr (hzero (by omega)))
    · rintro (hlt' | hword' | hzero)
      · exact absurd hlt' hlt
      · exact absurd hword' hword
      · exact fun _ => hzero

def oneHole : Table 2 := (free_mem (emptyTable 2) 0 4).toOption.getD (emptyTable 2)

theorem oneHole_wellFormed : WellFormed oneHole [0] [1] :=
  ⟨⟨⟨rfl,rfl⟩,⟨rfl,rfl⟩,by decide,by decide⟩,List.pairwise_singleton _ _,by decide,by decide⟩

/-- Three words are asked for: the third is what has been in memory, here a one. -/
theorem third_word_not_zero : ∃ buffer : Memory, WellFormed oneHole [0] [1] ∧
    ¬ ∃ r, do_hole_map oneHole 100 0 12 buffer = .ok r ∧ Formatted 100 (size_t 12) (oneHole.blocks [0]) r := by
  refine ⟨fun _ => 1,oneHole_wellFormed,?_⟩
  rintro ⟨r,hr,hformat⟩
  have hword : (do_hole_map oneHole 100 0 12 fun _ => 1).toOption.map (fun r => (r.count,wholeWords r.bytes)) =
      some (1,[4,0,1]) := by decide
  rw [hr] at hword
  obtain ⟨hcount,hwords⟩ := Prod.mk.inj (Option.some.inj hword)
  have hzero := hformat.terminated (by rw [hcount]; decide)
  rw [hcount, hwords] at hzero
  cases hzero

theorem four_words_formatted : ∃ r, do_hole_map oneHole 100 0 16 (fun _ => 1) = .ok r ∧
    Formatted 100 (size_t 16) (oneHole.blocks [0]) r :=
  (hole_map_formatted_iff oneHole_wellFormed 100 0 16 fun _ => 1).mpr (Or.inl (by decide))

/-- The bytes delivered are the same whatever table the same holes are in and whatever is in
memory, and none of them lies behind the words filled in. -/
structure LeaksNothing (t : Table N) (xs : List (Fin N)) (swap_base m1_p1 : ℕ) (m1_i1 : Int32) : Prop where
  same : ∀ (t' : Table N) xs' ys' buffer buffer', Slots t' xs' ys' → t'.blocks xs' = t.blocks xs →
    (do_hole_map t swap_base m1_p1 m1_i1 buffer).map Reply.bytes =
      (do_hole_map t' swap_base m1_p1 m1_i1 buffer').map Reply.bytes
  own : ∀ buffer r, do_hole_map t swap_base m1_p1 m1_i1 buffer = .ok r →
    r.bytes.length ≤ 4 * (2 * r.count + if r.count < size_t m1_i1 / 8 then 1 else 0)

theorem filled_covers_iff {nbytes : ℕ} {bs : List Block} :
    nbytes ≤ 4 * (filled (nbytes / 8) bs).length ↔ nbytes % 8 = 0 ∧ nbytes / 8 ≤ bs.length := by
  rw [length_filled]
  split_ifs <;> omega

/-- Nothing is leaked only if the buffer is a number of pairs, and not more of them than
there are holes. -/
theorem leaks_nothing_iff (h : Slots t xs ys) (swap_base m1_p1 : ℕ) (m1_i1 : Int32) :
    LeaksNothing t xs swap_base m1_p1 m1_i1 ↔
      size_t m1_i1 % 8 = 0 ∧ size_t m1_i1 / 8 ≤ (lowBlocks swap_base (t.blocks xs)).length := by
  constructor
  · intro hleaks
    refine filled_covers_iff.mp (bytes_store_fixed_iff.mp fun mem mem' => ?_)
    have hsame := hleaks.same t xs ys mem mem' h rfl
    rw [do_hole_map_eq h, do_hole_map_eq h] at hsame
    exact Except.ok.inj hsame
  · intro hfits
    refine ⟨fun t' xs' ys' buffer buffer' h' hblocks => ?_,fun buffer r hr => ?_⟩
    · rw [do_hole_map_eq h, do_hole_map_eq h', hblocks]
      exact congrArg Except.ok (bytes_store_fixed_iff.mpr (filled_covers_iff.mpr hfits) buffer buffer')
    · rw [do_hole_map_eq h] at hr
      obtain rfl := Except.ok.inj hr
      rw [length_bytes]
      show _ ≤ 4 * (2 * min _ _ + if min _ _ < _ then 1 else 0)
      split_ifs <;> omega

/-- Four words are asked for, and three are filled in. -/
theorem fourth_word_leaked : ∃ buffer buffer' : Memory,
    (do_hole_map oneHole 100 0 16 buffer).map Reply.bytes ≠ (do_hole_map oneHole 100 0 16 buffer').map Reply.bytes := by
  refine ⟨fun _ => 0,fun _ => 1,fun h => ?_⟩
  have hwords := congrArg (fun r => r.toOption.map wholeWords) h
  revert hwords
  decide

theorem one_pair_leaks_nothing : LeaksNothing oneHole [0] 100 0 8 :=
  (leaks_nothing_iff oneHole_wellFormed.slots 100 0 8).mpr (by decide)

end SOI.Memory
