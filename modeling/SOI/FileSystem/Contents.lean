import SOI.FileSystem.Growth
import SOI.Library.Splice

/-! # The contents of a file

What the copying loops of `read` and `write` do to the bytes in the blocks of a chain.
-/
namespace SOI.FileSystem
open Linked Splice
variable {s s' : State} {memory memory' : Fin MEMORY_SIZE → Int8} {fat : Block → Int16} {p : Int16} {xs ys : List Block}
  {b : Block} {buffer : ℕ → Int8} {o n pos fuel : ℕ}

/-- The place of a byte of a block. -/
def cell (b : Block) (k : Fin BLOCK_SIZE) : Fin MEMORY_SIZE :=
  ⟨b * BLOCK_SIZE + k,by have hb : (b : ℕ) < 64 := b.isLt; have hk : (k : ℕ) < 32 := k.isLt; show (b : ℕ) * 32 + k < 2048; omega⟩

def blockBytes (memory : Fin MEMORY_SIZE → Int8) (b : Block) : List Int8 :=
  List.ofFn fun k : Fin BLOCK_SIZE => memory (cell b k)

def bytesOf (memory : Fin MEMORY_SIZE → Int8) (xs : List Block) : List Int8 := xs.flatMap (blockBytes memory)

def blocksFrom (fat : Block → Int16) : ℕ → Int16 → List Block
  | 0, _ => []
  | fuel + 1, block_idx =>
    match index NUM_BLOCKS block_idx.toInt with
    | .error _ => []
    | .ok b => b :: blocksFrom fat fuel (fat b)

/-- The bytes of a file. -/
def contents (s : State) (i : Fin NUM_FILES) : List Int8 :=
  (bytesOf s.memory (blocksFrom s.fat NUM_BLOCKS (s.fd_table i).starting_block)).take (s.fd_table i).size.toInt.toNat

def bytesFrom (buffer : ℕ → Int8) (pos n : ℕ) : List Int8 := (List.range n).map fun k => buffer (pos + k)

theorem cell_val (b : Block) (k : Fin BLOCK_SIZE) : (cell b k : ℕ) = b * 32 + k := rfl

theorem getElem?_blockBytes {k : ℕ} (hk : k < BLOCK_SIZE) : (blockBytes memory b)[k]? = some (memory (cell b ⟨k,hk⟩)) := by
  rw [blockBytes, List.getElem?_ofFn, dif_pos hk]

@[simp] theorem length_blockBytes : (blockBytes memory b).length = BLOCK_SIZE := by simp [blockBytes]

@[simp] theorem length_bytesFrom : (bytesFrom buffer pos n).length = n := by simp [bytesFrom]

theorem bytesFrom_add {m : ℕ} : bytesFrom buffer pos (m + n) = bytesFrom buffer pos m ++ bytesFrom buffer (pos + m) n := by
  simp [bytesFrom, List.range_add, Nat.add_assoc]

theorem bytesOf_cons : bytesOf memory (b :: xs) = blockBytes memory b ++ bytesOf memory xs := rfl

theorem bytesOf_append : bytesOf memory (xs ++ ys) = bytesOf memory xs ++ bytesOf memory ys := by
  simp [bytesOf]

theorem length_bytesOf : (bytesOf memory xs).length = BLOCK_SIZE * xs.length := by
  induction xs with
  | nil => rfl
  | cons b xs ih =>
    rw [bytesOf_cons, List.length_append, ih, length_blockBytes, List.length_cons]
    ring

theorem bytesOf_congr (h : ∀ b ∈ xs, blockBytes memory' b = blockBytes memory b) :
    bytesOf memory' xs = bytesOf memory xs :=
  List.flatMap_congr h

theorem blocksFrom_chain (h : Chain fat p xs) (hfuel : xs.length ≤ fuel) : blocksFrom fat fuel p = xs := by
  induction xs generalizing p fuel with
  | nil =>
    cases fuel with
    | zero => rfl
    | succ fuel =>
      rw [blocksFrom, seg_nil.mp h]
      rfl
  | cons b xs ih =>
    obtain ⟨fuel,rfl⟩ : ∃ m, fuel = m + 1 := ⟨fuel - 1,by rw [List.length_cons] at hfuel; omega⟩
    rw [blocksFrom, Chain.index_ok h]
    simp only
    rw [ih h.2 (by simpa using hfuel)]

theorem contents_eq {i : Fin NUM_FILES} (h : Chain s.fat (s.fd_table i).starting_block xs) :
    contents s i = (bytesOf s.memory xs).take (s.fd_table i).size.toInt.toNat := by
  rw [contents, blocksFrom_chain h (Chain.length_le h)]

theorem seek_chain (h : Chain fat p (xs ++ ys)) : ∃ q, seek fat xs.length p = .ok q ∧ Chain fat q ys := by
  induction xs generalizing p with
  | nil => exact ⟨p,rfl,h⟩
  | cons b xs ih =>
    obtain ⟨q,hseek,hq⟩ := ih h.2
    refine ⟨q,?_,hq⟩
    rw [List.length_cons, seek, Chain.index_ok h]
    exact hseek

theorem seek_ok_iff {m : ℕ} {q : Int16} : seek fat m p = .ok q ↔ ∃ xs, xs.length = m ∧ Seg blockPtr fat p xs q := by
  induction m generalizing p with
  | zero =>
    rw [seek, Except.ok.injEq]
    constructor
    · intro h
      exact ⟨[],rfl,h⟩
    · rintro ⟨xs,hlen,hseg⟩
      rwa [List.eq_nil_of_length_eq_zero hlen] at hseg
  | succ m ih =>
    constructor
    · intro h
      obtain ⟨b,hb,h⟩ := bind_ok.mp h
      obtain ⟨xs,hlen,hseg⟩ := ih.mp h
      exact ⟨b :: xs,by rw [List.length_cons, hlen],index_eq_ptr hb,hseg⟩
    · rintro ⟨_ | ⟨b,xs⟩,hlen,hseg⟩
      · cases hlen
      · rw [hseg.1]
        exact bind_ok.mpr ⟨b,index_blockPtr b,ih.mpr ⟨xs,Nat.succ.inj hlen,hseg.2⟩⟩

theorem seekInChain_some_iff {m : ℕ} {q : Int16} (hp : p ≠ END_OF_CHAIN) :
    seekInChain fat m p = .ok (some q) ↔ (∃ xs, xs.length = m ∧ Seg blockPtr fat p xs q) ∧ q ≠ END_OF_CHAIN := by
  induction m generalizing p with
  | zero =>
    rw [seekInChain, Except.ok.injEq, Option.some.injEq]
    constructor
    · rintro rfl
      exact ⟨⟨[],rfl,rfl⟩,hp⟩
    · rintro ⟨⟨xs,hlen,hseg⟩,-⟩
      rwa [List.eq_nil_of_length_eq_zero hlen] at hseg
  | succ m ih =>
    constructor
    · intro h
      obtain ⟨b,hb,h⟩ := bind_ok.mp h
      split_ifs at h with hend
      · cases h
      obtain ⟨⟨xs,hlen,hseg⟩,hq⟩ := (ih hend).mp h
      exact ⟨⟨b :: xs,by rw [List.length_cons, hlen],index_eq_ptr hb,hseg⟩,hq⟩
    · rintro ⟨⟨_ | ⟨b,xs⟩,hlen,hseg⟩,hq⟩
      · cases hlen
      · have hend : fat b ≠ END_OF_CHAIN := by
          intro hend
          have hrest := hseg.2
          rw [hend] at hrest
          cases xs with
          | nil => exact hq hrest.symm
          | cons c xs => exact blockPtr_ne_end c hrest.1
        rw [hseg.1]
        refine bind_ok.mpr ⟨b,index_blockPtr b,?_⟩
        rw [if_neg hend]
        exact (ih hend).mpr ⟨⟨xs,Nat.succ.inj hlen,hseg.2⟩,hq⟩

/-- With a block at the offset, the end of the chain is not met before. -/
theorem seekInChain_chain (h : Chain fat p (xs ++ b :: ys)) :
    ∃ q, seekInChain fat xs.length p = .ok (some q) ∧ Chain fat q (b :: ys) := by
  induction xs generalizing p with
  | nil => exact ⟨p,rfl,h⟩
  | cons x xs ih =>
    obtain ⟨q,hseek,hq⟩ := ih h.2
    have hlink : fat x ≠ END_OF_CHAIN := Chain.link_ne_end h (List.append_ne_nil_of_right_ne_nil xs (List.cons_ne_nil b ys))
    refine ⟨q,?_,hq⟩
    rw [List.length_cons, seekInChain, Chain.index_ok h]
    exact (if_neg hlink).trans hseek

theorem seekInChain_end (h : Chain fat p xs) (hne : xs ≠ []) : seekInChain fat xs.length p = .ok none := by
  induction xs generalizing p with
  | nil => exact absurd rfl hne
  | cons x xs ih =>
    rw [List.length_cons, seekInChain, Chain.index_ok h]
    by_cases hend : fat x = END_OF_CHAIN
    · exact if_pos hend
    · refine (if_neg hend).trans (ih h.2 ?_)
      rintro rfl
      exact hend (seg_nil.mp h.2)

theorem block_start (b : Block) (o : ℕ) : (blockPtr b).toInt * BLOCK_SIZE + o = ((b * 32 + o : ℕ) : ℤ) := by
  rw [blockPtr_toInt]
  push_cast
  rfl

theorem copyOut_block (h : o + n ≤ BLOCK_SIZE) :
    copyOut memory ((blockPtr b).toInt * BLOCK_SIZE + o) n = .ok (((blockBytes memory b).drop o).take n) := by
  have hb : (b : ℕ) < 64 := b.isLt
  have hn : o + n ≤ 32 := h
  rw [block_start, copyOut, dif_pos (by push_cast; omega)]
  refine congrArg Except.ok (List.ext_getElem? fun k => ?_)
  rw [List.getElem?_ofFn, List.getElem?_take, List.getElem?_drop]
  by_cases hk : k < n
  · rw [dif_pos hk, if_pos hk, getElem?_blockBytes (by omega)]
    refine congrArg (fun a => some (memory a)) (Fin.ext ?_)
    simp only [cell_val, Int.toNat_natCast]
    omega
  · rw [dif_neg hk, if_neg hk]

theorem copyIn_block (h : o + n ≤ BLOCK_SIZE) :
    ∃ memory', copyIn memory ((blockPtr b).toInt * BLOCK_SIZE + o) n (fun k => buffer (pos + k)) = .ok memory' ∧
      blockBytes memory' b = splice (blockBytes memory b) o (bytesFrom buffer pos n) ∧
      ∀ c, c ≠ b → blockBytes memory' c = blockBytes memory c := by
  have hb : (b : ℕ) < 64 := b.isLt
  have hn : o + n ≤ 32 := h
  rw [block_start, copyIn, if_pos (by push_cast; omega)]
  refine ⟨_,rfl,List.ext_getElem? fun k => ?_,fun c hc => ?_⟩
  · rw [getElem?_splice (by rw [length_blockBytes]; omega), length_bytesFrom]
    by_cases hk : k < BLOCK_SIZE
    · have hval : (cell b ⟨k,hk⟩ : ℕ) = b * 32 + k := rfl
      rw [getElem?_blockBytes hk, getElem?_blockBytes hk, hval]
      by_cases hin : o ≤ k ∧ k < o + n
      · have hbuffer : (bytesFrom buffer pos n)[k - o]? = some (buffer (pos + (k - o))) := by
          rw [bytesFrom, List.getElem?_map, List.getElem?_range (by omega)]
          rfl
        rw [if_pos (by push_cast; omega), if_neg (by omega), if_pos hin.2, hbuffer]
        refine congrArg (fun m => some (buffer (pos + m))) ?_
        omega
      · rw [if_neg (by push_cast; omega)]
        split_ifs
        · rfl
        · omega
        · rfl
    · have hnone : ∀ m : Fin MEMORY_SIZE → Int8, (blockBytes m b)[k]? = none := fun m =>
        List.getElem?_eq_none (by rw [length_blockBytes]; exact not_lt.mp hk)
      rw [hnone, hnone]
      split_ifs
      · rfl
      · omega
      · rfl
  · have hcb : (c : ℕ) ≠ b := fun heq => hc (Fin.ext heq)
    refine congrArg List.ofFn (funext fun k => if_neg ?_)
    have hk : (k : ℕ) < 32 := k.isLt
    rw [cell_val]
    push_cast
    omega

theorem readLoop_succ (s : State) (fuel : ℕ) (p : Int16) (block_offset : ℤ) (n : ℕ) :
    readLoop s (fuel + 1) p block_offset (n + 1) =
      (copyOut s.memory (p.toInt * BLOCK_SIZE + block_offset) (bytesInBlock block_offset (n + 1))).bind fun copied =>
        if n + 1 - bytesInBlock block_offset (n + 1) = 0 then .ok copied
        else (index NUM_BLOCKS p.toInt).bind fun b =>
          if s.fat b = END_OF_CHAIN then .ok copied
          else (readLoop s fuel (s.fat b) 0 (n + 1 - bytesInBlock block_offset (n + 1))).map (copied ++ ·) := rfl

theorem writeLoop_succ (fuel : ℕ) (p : Int16) (block_offset : ℤ) :
    writeLoop fat buffer (fuel + 1) memory pos p block_offset (n + 1) =
      (copyIn memory (p.toInt * BLOCK_SIZE + block_offset) (bytesInBlock block_offset (n + 1))
          fun k => buffer (pos + k)).bind fun memory =>
        if n + 1 - bytesInBlock block_offset (n + 1) = 0 then .ok memory
        else (index NUM_BLOCKS p.toInt).bind fun b =>
          if fat b = END_OF_CHAIN then .ok memory
          else writeLoop fat buffer fuel memory (pos + bytesInBlock block_offset (n + 1)) (fat b) 0
            (n + 1 - bytesInBlock block_offset (n + 1)) := rfl

theorem bytesInBlock_eq (o n : ℕ) : bytesInBlock o n = min (32 - o) n := by
  unfold bytesInBlock
  push_cast
  omega

theorem ne_nil_of_across (hn : o + n ≤ BLOCK_SIZE * (b :: xs).length) (hlast : ¬ o + n ≤ 32) : xs ≠ [] := by
  rintro rfl
  exact hlast hn

/-- Reading from a chain that is long enough. -/
theorem readLoop_chain (h : Chain s.fat p xs) (ho : o < BLOCK_SIZE) (hn : o + n ≤ BLOCK_SIZE * xs.length)
    (hfuel : n ≤ fuel) : readLoop s fuel p o n = .ok (((bytesOf s.memory xs).drop o).take n) := by
  induction xs generalizing p o n fuel with
  | nil =>
    obtain rfl : n = 0 := by simp at hn; omega
    cases fuel <;> rfl
  | cons b xs ih =>
    cases n with
    | zero => cases fuel <;> rfl
    | succ n =>
      obtain ⟨fuel,rfl⟩ : ∃ m, fuel = m + 1 := ⟨fuel - 1,by omega⟩
      have hlength : (blockBytes s.memory b).length = 32 := length_blockBytes
      have hn' : o + (n + 1) ≤ 32 * (xs.length + 1) := hn
      have ho' : o < 32 := ho
      have hbytes : bytesInBlock o (n + 1) = min (32 - o) (n + 1) := bytesInBlock_eq o (n + 1)
      have hcopy : copyOut s.memory (p.toInt * BLOCK_SIZE + o) (min (32 - o) (n + 1)) =
          .ok (((blockBytes s.memory b).drop o).take (min (32 - o) (n + 1))) := by
        rw [Chain.cons_ptr h]
        exact copyOut_block (show o + min (32 - o) (n + 1) ≤ 32 by omega)
      rw [readLoop_succ, hbytes, hcopy, bytesOf_cons, List.drop_append_of_le_length (by omega)]
      by_cases hlast : o + (n + 1) ≤ 32
      · have hmin : min (32 - o) (n + 1) = n + 1 := by omega
        rw [hmin, List.take_append_of_le_length (by rw [List.length_drop, hlength]; omega)]
        exact if_pos (Nat.sub_self _)
      · have hmin : min (32 - o) (n + 1) = 32 - o := by omega
        have hlink : s.fat b ≠ END_OF_CHAIN := Chain.link_ne_end h (ne_nil_of_across hn hlast)
        have hrest := @ih (s.fat b) 0 (n + 1 - (32 - o)) fuel h.2 (by decide) (by
          rw [Nat.zero_add]
          show n + 1 - (32 - o) ≤ 32 * xs.length
          omega) (by omega)
        have hwhole : ((blockBytes s.memory b).drop o).length = 32 - o := by rw [List.length_drop, hlength]
        have htake : ((blockBytes s.memory b).drop o).take (32 - o) = (blockBytes s.memory b).drop o :=
          List.take_of_length_le hwhole.le
        rw [hmin, htake, List.take_append, hwhole, List.take_of_length_le (by omega)]
        refine (if_neg (by omega)).trans ?_
        rw [Chain.index_ok h]
        refine (if_neg hlink).trans ?_
        have hzero : readLoop s fuel (s.fat b) 0 (n + 1 - (32 - o)) = _ := hrest
        rw [hzero]
        rfl

/-- Writing to a chain that is long enough: its bytes are overwritten, and no other block. -/
theorem writeLoop_chain (h : Chain fat p xs) (ho : o < BLOCK_SIZE) (hn : o + n ≤ BLOCK_SIZE * xs.length)
    (hfuel : n ≤ fuel) : ∃ memory', writeLoop fat buffer fuel memory pos p o n = .ok memory' ∧
      bytesOf memory' xs = splice (bytesOf memory xs) o (bytesFrom buffer pos n) ∧
      ∀ c ∉ xs, blockBytes memory' c = blockBytes memory c := by
  induction xs generalizing p o n pos fuel memory with
  | nil =>
    obtain rfl : n = 0 := by simp at hn; omega
    exact ⟨memory,by cases fuel <;> rfl,(splice_nil _ _).symm,fun _ _ => rfl⟩
  | cons b xs ih =>
    cases n with
    | zero => exact ⟨memory,by cases fuel <;> rfl,(splice_nil _ _).symm,fun _ _ => rfl⟩
    | succ n =>
      obtain ⟨fuel,rfl⟩ : ∃ m, fuel = m + 1 := ⟨fuel - 1,by omega⟩
      have hb : b ∉ xs := (List.nodup_cons.mp (Chain.nodup h)).1
      have hlength : (blockBytes memory b).length = 32 := length_blockBytes
      have hn' : o + (n + 1) ≤ 32 * (xs.length + 1) := hn
      have ho' : o < 32 := ho
      have hbytes : bytesInBlock o (n + 1) = min (32 - o) (n + 1) := bytesInBlock_eq o (n + 1)
      obtain ⟨memory₁,hcopy,hblock,hother⟩ := @copyIn_block memory b buffer o (min (32 - o) (n + 1)) pos
        (show o + min (32 - o) (n + 1) ≤ 32 by omega)
      rw [← Chain.cons_ptr h] at hcopy
      have hrest : bytesOf memory₁ xs = bytesOf memory xs := by
        refine bytesOf_congr fun c hc => hother c ?_
        rintro rfl
        exact hb hc
      rw [writeLoop_succ, hbytes, hcopy, bytesOf_cons]
      by_cases hlast : o + (n + 1) ≤ 32
      · have hmin : min (32 - o) (n + 1) = n + 1 := by omega
        rw [hmin] at hblock ⊢
        refine ⟨memory₁,if_pos (Nat.sub_self _),?_,fun c hc => hother c fun heq => hc (by simp [heq])⟩
        rw [bytesOf_cons, hblock, hrest, splice_append_left]
        rw [length_bytesFrom, hlength]
        exact hlast
      · have hmin : min (32 - o) (n + 1) = 32 - o := by omega
        have hlink : fat b ≠ END_OF_CHAIN := Chain.link_ne_end h (ne_nil_of_across hn hlast)
        obtain ⟨memory₂,hloop,htail,hframe⟩ := @ih memory₁ (fat b) 0 (n + 1 - (32 - o)) (pos + (32 - o)) fuel h.2
          (by decide) (by
            rw [Nat.zero_add]
            show n + 1 - (32 - o) ≤ 32 * xs.length
            omega) (by omega)
        rw [hmin] at hblock ⊢
        refine ⟨memory₂,?_,?_,fun d hd => ?_⟩
        · refine (if_neg (by omega)).trans ?_
          rw [Chain.index_ok h]
          exact (if_neg hlink).trans hloop
        · have hsum : n + 1 = 32 - o + (n + 1 - (32 - o)) := by omega
          rw [bytesOf_cons, hframe b hb, hblock, htail, hrest]
          conv_rhs => rw [hsum, bytesFrom_add, splice_across (by rw [length_bytesFrom, hlength]; omega)]
        · rw [List.mem_cons, not_or] at hd
          rw [hframe d hd.2, hother d hd.1]

theorem bytesOf_drop (m : ℕ) (hm : m ≤ xs.length) :
    (bytesOf memory xs).drop (BLOCK_SIZE * m + o) = (bytesOf memory (xs.drop m)).drop o := by
  have hlength : (bytesOf memory (xs.take m)).length = BLOCK_SIZE * m := by
    rw [length_bytesOf, List.length_take, Nat.min_eq_left hm]
  conv_lhs => rw [← List.take_append_drop m xs, bytesOf_append, ← List.drop_drop, ← hlength, List.drop_left]

section
variable {k : Fin NUM_OPENED_FILES} {file : FileDescriptor} {start size : Int16} {offset : ℕ}

theorem offset_split (offset : ℕ) : blocksBefore offset = offset / 32 ∧ offsetInBlock offset = (offset % 32 : ℕ) ∧
    offset = 32 * (offset / 32) + offset % 32 := by
  have hblocks : blocksBefore offset = offset / 32 := rfl
  refine ⟨hblocks,?_,by omega⟩
  rw [offsetInBlock, hblocks]
  push_cast
  omega

theorem readSize_eq {offset : ℤ} (hnonneg : 0 ≤ offset) (hle : offset ≤ file.size.toInt) :
    ∃ n : Int16, n.toInt = min size.toInt (file.size.toInt - offset) ∧
      (if file.size.toInt < offset + size.toInt then Int16.ofInt (file.size.toInt - offset) else size) = n := by
  have hmax := file.size.toInt_lt
  split_ifs with hlong
  · refine ⟨_,?_,rfl⟩
    rw [Int16.toInt_ofInt_of_le (by omega) (by omega)]
    omega
  · exact ⟨size,by omega,rfl⟩

/-- At most the rest of the file is read, and the offset moves on by as much. -/
theorem readAt_chain (h : Chain s.fat file.starting_block xs) (hoffset : (s.open_file_fd_table k).offset.toInt = offset)
    (hle : offset ≤ file.size.toInt) (hroom : file.size.toInt ≤ BLOCK_SIZE * xs.length) :
    ∃ n : Int16, n.toInt = min size.toInt (file.size.toInt - offset) ∧ readAt k file size s =
      done (.FILE_READ_SUCCESS,((bytesOf s.memory xs).drop offset).take n.toInt.toNat) (s.advance k n) := by
  obtain ⟨hblocks,hplace,hsplit⟩ := offset_split offset
  have hroom' : file.size.toInt ≤ 32 * xs.length := hroom
  have hm : offset / 32 ≤ xs.length := by omega
  obtain ⟨n,hn,hsize'⟩ := @readSize_eq file size offset (Int.natCast_nonneg offset) hle
  have hchain := h
  rw [← List.take_append_drop (offset / 32) xs] at hchain
  obtain ⟨q,hseek,hq⟩ := seek_chain hchain
  rw [List.length_take, Nat.min_eq_left hm] at hseek
  have hloop := @readLoop_chain s q _ (offset % 32) n.toInt.toNat n.toInt.toNat hq (Nat.mod_lt _ (by decide)) (by
    rw [List.length_drop]
    show offset % 32 + n.toInt.toNat ≤ 32 * (xs.length - offset / 32)
    omega) le_rfl
  refine ⟨n,hn,?_⟩
  have hbytes : (bytesOf s.memory xs).drop offset = (bytesOf s.memory (xs.drop (offset / 32))).drop (offset % 32) := by
    rw [← bytesOf_drop _ hm]
    congr 1
  unfold readAt
  simp only
  rw [hoffset, if_neg (by omega), hsize', hblocks, hseek, hplace]
  simp only [proceed, hloop, hbytes]

/-- Where the chain has a block at the offset and room behind it, writing succeeds. -/
theorem writeAt_chain (h : Chain s.fat start xs) (hoffset : (s.open_file_fd_table k).offset.toInt = offset)
    (hin : offset < BLOCK_SIZE * xs.length) (hroom : offset + size.toInt ≤ BLOCK_SIZE * xs.length) :
    ∃ memory', writeAt k start buffer size s =
        saved .FILE_WRITE_SUCCESS (({ s with memory := memory' } : State).advance k size) ∧
      bytesOf memory' xs = splice (bytesOf s.memory xs) offset (bytesFrom buffer 0 size.toInt.toNat) ∧
      ∀ c ∉ xs, blockBytes memory' c = blockBytes s.memory c := by
  obtain ⟨hblocks,hplace,hsplit⟩ := offset_split offset
  have hin' : offset < 32 * xs.length := hin
  have hroom' : offset + size.toInt ≤ 32 * xs.length := hroom
  have hm : offset / 32 < xs.length := by omega
  obtain ⟨b,back,hback⟩ : ∃ b back, xs.drop (offset / 32) = b :: back :=
    ⟨_,_,List.drop_eq_getElem_cons hm⟩
  have hfront : (xs.take (offset / 32)).length = offset / 32 := by rw [List.length_take, Nat.min_eq_left hm.le]
  have hxs : xs = xs.take (offset / 32) ++ b :: back := by rw [← hback, List.take_append_drop]
  have hlength : (b :: back).length = xs.length - offset / 32 := by rw [← hback, List.length_drop]
  have hnodup := Chain.nodup h
  rw [hxs] at h hnodup
  obtain ⟨q,hseek,hq⟩ := seekInChain_chain h
  rw [hfront] at hseek
  obtain ⟨memory',hloop,hbytes,hframe⟩ := @writeLoop_chain s.memory s.fat q (b :: back) buffer (offset % 32)
    size.toInt.toNat 0 size.toInt.toNat hq (Nat.mod_lt _ (by decide)) (by
      rw [hlength]
      show offset % 32 + size.toInt.toNat ≤ 32 * (xs.length - offset / 32)
      omega) le_rfl
  refine ⟨memory',?_,?_,fun c hc => hframe c fun hin => hc ?_⟩
  · unfold writeAt
    simp only
    rw [hoffset, hblocks, hseek, hplace]
    simp only [proceed, hloop]
  · have hkept : bytesOf memory' (xs.take (offset / 32)) = bytesOf s.memory (xs.take (offset / 32)) :=
      bytesOf_congr fun c hc => hframe c fun hin => (List.disjoint_of_nodup_append hnodup) hc hin
    have hwhole : (bytesOf s.memory (xs.take (offset / 32))).length = 32 * (offset / 32) := by
      rw [length_bytesOf, hfront]
    have hrest : offset - 32 * (offset / 32) = offset % 32 := by omega
    rw [hxs, bytesOf_append, bytesOf_append, splice_append_right (by rw [hwhole]; omega), hwhole, hrest, hkept, hbytes]
  · rw [hxs]
    exact List.mem_append_right _ hin

/-- At the end of the last block there is nothing to write to. -/
theorem writeAt_end (h : Chain s.fat start xs) (hne : xs ≠ [])
    (hoffset : (s.open_file_fd_table k).offset.toInt = (BLOCK_SIZE * xs.length : ℕ)) :
    writeAt k start buffer size s = done .FILE_WRITE_EXCEEDS_FILE_SIZE s := by
  have hblocks : blocksBefore ((BLOCK_SIZE * xs.length : ℕ) : ℤ) = xs.length := by
    show 32 * xs.length / 32 = xs.length
    omega
  unfold writeAt
  simp only
  rw [hoffset, hblocks, seekInChain_end h hne]
  rfl

end

end SOI.FileSystem
