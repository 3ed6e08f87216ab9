import SOI.FileSystem.Contents
import SOI.FileSystem.FatInvariant

/-! # Reading and writing by name

`open_` and `close` count the open files by slots, while `read` and `write` look into
the slot that has the number of the descriptor. Where that slot holds the descriptor,
they do what they should.
-/
namespace SOI.FileSystem
open Linked Runs Splice Texts
variable {s s' t : State} {chain : Fin NUM_FILES → List Block} {ys : List Block} {i : Fin NUM_FILES}
  {k : Fin NUM_OPENED_FILES} {name : Text} {buffer : ℕ → Int8} {size : Int16} {past : Option FileDescriptor}

/-- The slot holds the file, at an offset inside of it. -/
structure Opened (s : State) (k : Fin NUM_OPENED_FILES) (i : Fin NUM_FILES) : Prop where
  idx : (s.open_file_fd_table k).idx.toInt = i
  offset_nonneg : 0 ≤ (s.open_file_fd_table k).offset.toInt
  offset_le : (s.open_file_fd_table k).offset.toInt ≤ (s.fd_table i).size.toInt

/-- Every slot is free or holds a file in use. -/
def OffsetsInside (s : State) : Prop :=
  ∀ k, (s.open_file_fd_table k).idx = NO_OPENED_FILE ∨ ∃ i, Live s i ∧ Opened s k i

/-- The chains have room for the files, and every slot is free or holds a file in use. -/
structure Consistent (s : State) (chain : Fin NUM_FILES → List Block) : Prop where
  chained : Chained s chain
  size_nonneg : ∀ i, Live s i → 0 ≤ (s.fd_table i).size.toInt
  room : ∀ i, Live s i → (s.fd_table i).size.toInt ≤ BLOCK_SIZE * (chain i).length
  opened : ∀ k, (s.open_file_fd_table k).idx = NO_OPENED_FILE ∨ ∃ i, Live s i ∧ Opened s k i
  malfunction_flag : s.malfunction_flag = false

/-- The other files and the other slots are as before. -/
structure LeavesOthers (s s' : State) (i : Fin NUM_FILES) (k : Fin NUM_OPENED_FILES) : Prop where
  descriptors : ∀ j, j ≠ i → s'.fd_table j = s.fd_table j
  contents : ∀ j, Live s j → j ≠ i → contents s' j = contents s j
  entries : ∀ l, l ≠ k → s'.open_file_fd_table l = s.open_file_fd_table l
  file_count : s'.file_count = s.file_count

/-- The slot holds the same file, and its offset has moved on. -/
structure MovedOn (s s' : State) (k : Fin NUM_OPENED_FILES) (n : ℤ) : Prop where
  idx : (s'.open_file_fd_table k).idx = (s.open_file_fd_table k).idx
  offset : (s'.open_file_fd_table k).offset.toInt = (s.open_file_fd_table k).offset.toInt + n

/-- These bytes have been read from the file, from the offset on. -/
structure HasRead (s s' : State) (i : Fin NUM_FILES) (k : Fin NUM_OPENED_FILES) (size : Int16) (bytes : List Int8) :
    Prop where
  bytes_eq : bytes = ((contents s i).drop (s.open_file_fd_table k).offset.toInt.toNat).take size.toInt.toNat
  moved : MovedOn s s' k bytes.length
  descriptor : s'.fd_table i = s.fd_table i
  contents : contents s' i = contents s i

/-- These bytes have been written to the file, from the offset on. -/
structure HasWritten (s s' : State) (i : Fin NUM_FILES) (k : Fin NUM_OPENED_FILES) (buffer : ℕ → Int8)
    (size : Int16) : Prop where
  contents : contents s' i =
    splice (contents s i) (s.open_file_fd_table k).offset.toInt.toNat (bytesFrom buffer 0 size.toInt.toNat)
  moved : MovedOn s s' k size.toInt
  name : (s'.fd_table i).name = (s.fd_table i).name
  size : (s'.fd_table i).size.toInt =
    max (s.fd_table i).size.toInt ((s.open_file_fd_table k).offset.toInt + size.toInt)

theorem toInt_add_of_le {m n : Int16} (h : -2 ^ 15 ≤ m.toInt + n.toInt) (h' : m.toInt + n.toInt < 2 ^ 15) :
    (m + n).toInt = m.toInt + n.toInt := by
  rw [Int16.toInt_add]
  exact Int.bmod_eq_of_le (by omega) (by omega)

theorem movedOn_advance {n : Int16} (h : -2 ^ 15 ≤ (s.open_file_fd_table k).offset.toInt + n.toInt)
    (h' : (s.open_file_fd_table k).offset.toInt + n.toInt < 2 ^ 15) : MovedOn s (s.advance k n) k n.toInt := by
  have hentry : (s.advance k n).open_file_fd_table k =
      { s.open_file_fd_table k with offset := (s.open_file_fd_table k).offset + n } := Function.update_self ..
  refine ⟨?_,?_⟩
  · rw [hentry]
  · rw [hentry]
    exact toInt_add_of_le h h'

theorem advance_of_ne {n : Int16} {l : Fin NUM_OPENED_FILES} (hl : l ≠ k) :
    (s.advance k n).open_file_fd_table l = s.open_file_fd_table l :=
  Function.update_of_ne hl ..

theorem Opened.kept {l : Fin NUM_OPENED_FILES} (h : Opened s l i)
    (hentry : s'.open_file_fd_table l = s.open_file_fd_table l)
    (hsize : (s.fd_table i).size.toInt ≤ (s'.fd_table i).size.toInt) : Opened s' l i := by
  refine ⟨?_,?_,?_⟩
  · rw [hentry]
    exact h.idx
  · rw [hentry]
    exact h.offset_nonneg
  · rw [hentry]
    exact h.offset_le.trans hsize

theorem WellChained.readAt (h : WellChained s chain) (hi : Live s i)
    (hroom : (s.fd_table i).size.toInt ≤ BLOCK_SIZE * (chain i).length) (ho : Opened s k i) (hsize : 0 ≤ size.toInt) :
    ∃ s' bytes, (readAt k (s.fd_table i) size s).result = .ok ((.FILE_READ_SUCCESS,bytes),s') ∧
      HasRead s s' i k size bytes ∧ LeavesOthers s s' i k := by
  have hseg := h.seg i hi
  have hnonneg := ho.offset_nonneg
  have hle := ho.offset_le
  have hmax := (s.fd_table i).size.toInt_lt
  obtain ⟨n,hn,hread⟩ := @readAt_chain s _ k (s.fd_table i) size (s.open_file_fd_table k).offset.toInt.toNat hseg
    (by omega) (by omega) hroom
  have hnpos : 0 ≤ n.toInt := by omega
  have hmoved := @movedOn_advance s k n (by omega) (by omega)
  have hcontents := contents_eq hseg
  have hlength : (bytesOf s.memory (chain i)).length = BLOCK_SIZE * (chain i).length := length_bytesOf
  refine ⟨_,_,congrArg Outcome.result hread,⟨?_,?_,rfl,rfl⟩,⟨fun _ _ => rfl,fun _ _ _ => rfl,fun l => advance_of_ne,rfl⟩⟩
  · rw [hcontents, List.drop_take, List.take_take]
    congr 1
    omega
  · have hcount : ((((bytesOf s.memory (chain i)).drop (s.open_file_fd_table k).offset.toInt.toNat).take
        n.toInt.toNat).length : ℤ) = n.toInt := by
      rw [List.length_take, List.length_drop, hlength]
      have hroom' : (s.fd_table i).size.toInt ≤ 32 * (chain i).length := hroom
      show ((min n.toInt.toNat (32 * (chain i).length - (s.open_file_fd_table k).offset.toInt.toNat) : ℕ) : ℤ) = _
      omega
    rw [hcount]
    exact hmoved

/-- The file has the blocks `ys` more, and has been given the size `new_size` if that is greater. -/
structure LongEnough (s t : State) (i : Fin NUM_FILES) (chain : Fin NUM_FILES → List Block) (ys : List Block)
    (new_size : ℤ) : Prop where
  chains : WellChained t (Function.update chain i (chain i ++ ys))
  same : SameEntries s t
  others : ∀ j, j ≠ i → t.fd_table j = s.fd_table j
  size : (t.fd_table i).size.toInt = max (s.fd_table i).size.toInt new_size
  room : (t.fd_table i).size.toInt ≤ BLOCK_SIZE * (chain i ++ ys).length

/-- The chain has become long enough for the new size. -/
theorem longEnough_of_grow (h : WellChained s chain) (hi : Live s i) {file_idx : Fin NUM_FILES} {new_size : ℤ}
    (hnonneg : 0 ≤ (s.fd_table i).size.toInt) (hshort : (s.fd_table i).size.toInt ≤ BLOCK_SIZE * (chain i).length)
    (hlt : (s.fd_table i).size.toInt < new_size) (hgrow : (grow file_idx i new_size s).result = .ok (true,t))
    (hlen : ys.length = additionalBlocks s i new_size)
    (hchains : WellChained t (Function.update chain i (chain i ++ ys))) : LongEnough s t i chain ys new_size := by
  obtain ⟨-,-,-,-,-,htable⟩ := grow_enough (h.seg i hi) (h.nonempty i hi) hgrow
  obtain ⟨hsize,hroom⟩ := grow_enough_size (h.seg i hi) (h.nonempty i hi) hnonneg hshort hlt hgrow hlen
  refine ⟨hchains,sameEntries_grow hgrow,fun j hj => ?_,?_,?_⟩
  · rw [htable, Function.update_of_ne hj]
  · rw [hsize, max_eq_right hlt.le]
  · rw [hsize]
    exact hroom

theorem longEnough_of_le (h : WellChained s chain) {new_size : ℤ}
    (hshort : (s.fd_table i).size.toInt ≤ BLOCK_SIZE * (chain i).length)
    (hle : new_size ≤ (s.fd_table i).size.toInt) : LongEnough s s i chain [] new_size := by
  refine ⟨?_,SameEntries.refl s,fun _ _ => rfl,(max_eq_left hle).symm,?_⟩
  · rw [List.append_nil, Function.update_eq_self]
    exact h
  · rw [List.append_nil]
    exact hshort

theorem LongEnough.contents_written {new_size : ℤ} (g : LongEnough s t i chain ys new_size) (h : WellChained s chain)
    (hi : Live s i) (hshort : (s.fd_table i).size.toInt ≤ BLOCK_SIZE * (chain i).length) {u : State} {o : ℕ}
    {bs : List Int8} (hfat : u.fat = t.fat) (htable : u.fd_table = t.fd_table)
    (ho : o ≤ (s.fd_table i).size.toInt.toNat) (hnew : new_size.toNat = o + bs.length)
    (hbytes : bytesOf u.memory (chain i ++ ys) = splice (bytesOf s.memory (chain i ++ ys)) o bs) :
    contents u i = splice (contents s i) o bs := by
  have hseg := g.chains.seg i ((g.same.live i).mpr hi)
  rw [Function.update_self, ← hfat, ← htable] at hseg
  have hgsize := g.size
  have hlong : (s.fd_table i).size.toInt.toNat ≤ 32 * (chain i).length := by
    push_cast at hshort
    omega
  have hold : contents s i = (bytesOf s.memory (chain i ++ ys)).take (s.fd_table i).size.toInt.toNat := by
    rw [contents_eq (h.seg i hi), bytesOf_append, List.take_append_of_le_length]
    rw [length_bytesOf]
    exact hlong
  have hlength : (bytesOf s.memory (chain i ++ ys)).length = 32 * (chain i ++ ys).length := length_bytesOf
  have hroom : (s.fd_table i).size.toInt.toNat ≤ (bytesOf s.memory (chain i ++ ys)).length := by
    rw [hlength, List.length_append]
    omega
  have hsize : (t.fd_table i).size.toInt.toNat = max (s.fd_table i).size.toInt.toNat (o + bs.length) := by omega
  rw [contents_eq hseg, hbytes, hold, htable, hsize, take_splice ho hroom]

theorem LongEnough.contents_kept {new_size : ℤ} (g : LongEnough s t i chain ys new_size) (h : WellChained s chain)
    (hi : Live s i) {u : State} {j : Fin NUM_FILES} (hfat : u.fat = t.fat) (htable : u.fd_table = t.fd_table)
    (hframe : ∀ c ∉ chain i ++ ys, blockBytes u.memory c = blockBytes s.memory c) (hj : Live s j) (hji : j ≠ i) :
    contents u j = contents s j := by
  have hti : Live t i := (g.same.live i).mpr hi
  have htj : Live t j := (g.same.live j).mpr hj
  have hseg := g.chains.seg j htj
  rw [Function.update_of_ne hji, ← hfat, ← htable] at hseg
  have hapart := g.chains.apart j i htj hti hji
  rw [Function.update_self, Function.update_of_ne hji] at hapart
  rw [contents_eq hseg, contents_eq (h.seg j hj), htable, g.others j hji]
  congr 1
  exact bytesOf_congr fun b hb => hframe b fun hb' => hapart hb hb'

/-- Writing to a file that is long enough and has a block at the offset changes the
bytes there and nothing else. -/
theorem LongEnough.write (h : WellChained s chain) (hi : Live s i)
    (hshort : (s.fd_table i).size.toInt ≤ BLOCK_SIZE * (chain i).length) (ho : Opened s k i) (hsize : 0 ≤ size.toInt)
    (g : LongEnough s t i chain ys ((s.open_file_fd_table k).offset.toInt + size.toInt))
    (hin : (s.open_file_fd_table k).offset.toInt < BLOCK_SIZE * (chain i ++ ys).length) :
    ∃ memory s', s' = ({ t with memory := memory } : State).advance k size ∧
      (writeAt k (s.fd_table i).starting_block buffer size t).result = .ok (.FILE_WRITE_SUCCESS,s') ∧
      HasWritten s s' i k buffer size ∧ LeavesOthers s s' i k := by
  have hnonneg := ho.offset_nonneg
  have hle := ho.offset_le
  have hgsize := g.size
  have hroom := g.room
  have hmax := (t.fd_table i).size.toInt_lt
  have hentry : t.open_file_fd_table = s.open_file_fd_table := g.same.open_file_fd_table
  have hseg := g.chains.seg i ((g.same.live i).mpr hi)
  rw [Function.update_self, g.same.starting_block i] at hseg
  obtain ⟨memory',hwrite,hbytes,hframe⟩ := @writeAt_chain t (chain i ++ ys) buffer k (s.fd_table i).starting_block size
    (s.open_file_fd_table k).offset.toInt.toNat hseg (by rw [hentry]; omega) (by omega) (by omega)
  rw [g.same.memory] at hbytes hframe
  have hmoved := @movedOn_advance { t with memory := memory' } k size
    (by show _ ≤ (t.open_file_fd_table k).offset.toInt + _; rw [hentry]; omega)
    (by show (t.open_file_fd_table k).offset.toInt + _ < _; rw [hentry]; omega)
  refine ⟨memory',_,rfl,congrArg Outcome.result hwrite,⟨?_,⟨?_,?_⟩,g.same.name i,g.size⟩,
    ⟨g.others,fun j hj hji => g.contents_kept h hi rfl rfl hframe hj hji,fun l hl => ?_,g.same.file_count⟩⟩
  · exact g.contents_written h hi hshort rfl rfl (by omega) (by rw [length_bytesFrom]; omega) hbytes
  · rw [hmoved.idx]
    show (t.open_file_fd_table k).idx = _
    rw [hentry]
  · rw [hmoved.offset]
    show (t.open_file_fd_table k).offset.toInt + _ = _
    rw [hentry]
  · rw [advance_of_ne hl]
    exact congrFun hentry l

theorem LeavesOthers.refl (s : State) (i : Fin NUM_FILES) (k : Fin NUM_OPENED_FILES) : LeavesOthers s s i k :=
  ⟨fun _ _ => rfl,fun _ _ _ => rfl,fun _ _ => rfl,rfl⟩

theorem OffsetsInside.target (h : OffsetsInside s) (w : Writing name s) :
    Live s w.fd_index ∧ Opened s w.k w.fd_index := by
  rcases h w.k with hfree | ⟨i,hi,hopened⟩
  · exact absurd hfree w.is_open
  · have hindex := index_eq_ok w.descriptor
    rw [hopened.idx] at hindex
    obtain rfl : i = w.fd_index := Fin.ext (by omega)
    exact ⟨hi,hopened⟩

theorem Consistent.target (h : Consistent s chain) (w : Writing name s) :
    Live s w.fd_index ∧ Opened s w.k w.fd_index :=
  OffsetsInside.target h.opened w

def HasRoom (s : State) (i : Fin NUM_FILES) (new_size : ℤ) : Prop :=
  (s.fd_table i).size.toInt < new_size → additionalBlocks s i new_size ≤ countFreeBlocks s.fat

instance (s : State) (i : Fin NUM_FILES) (new_size : ℤ) : Decidable (HasRoom s i new_size) :=
  inferInstanceAs (Decidable (_ → _))

/-- With room for the longer file, `write` writes to the file in the slot. At the very
end of a full last block it writes nothing. -/
theorem WellChained.written (h : WellChained s chain) (w : Writing name s) (hi : Live s w.fd_index)
    (hshort : (s.fd_table w.fd_index).size.toInt ≤ BLOCK_SIZE * (chain w.fd_index).length)
    (ho : Opened s w.k w.fd_index) (hflag : s.malfunction_flag = false) (hsize : 0 ≤ size.toInt)
    (hroom : HasRoom s w.fd_index (w.new_size size)) :
    ∃ st s', (write name buffer size s).result = .ok (st,s') ∧ LeavesOthers s s' w.fd_index w.k ∧
      ((st = .FILE_WRITE_SUCCESS ∧ HasWritten s s' w.fd_index w.k buffer size) ∨
        (st = .FILE_WRITE_EXCEEDS_FILE_SIZE ∧ size = 0 ∧ s' = s)) := by
  have hseg := h.seg _ hi
  have hne := h.nonempty _ hi
  have hnonneg := ho.offset_nonneg.trans ho.offset_le
  rw [w.write_eq]
  by_cases hgrows : w.file.size.toInt < w.new_size size
  · rw [if_pos hgrows]
    obtain ⟨enough,t,hgrow⟩ := @grow_returns s w.file_idx w.fd_index _ (w.new_size size) hseg hne hflag
    cases enough with
    | false => exact absurd (grow_fails hseg hne hgrow).1 (not_lt.mpr (hroom hgrows))
    | true =>
      obtain ⟨ys,hlen,-,hchains,-⟩ := h.grow hi hgrow
      have g := longEnough_of_grow h hi hnonneg hshort hgrows hgrow hlen hchains
      have hin : (s.open_file_fd_table w.k).offset.toInt < BLOCK_SIZE * (chain w.fd_index ++ ys).length := by
        have hgsize := g.size
        have hgroom := g.room
        have hle := ho.offset_le
        have hlt : (s.fd_table w.fd_index).size.toInt < w.new_size size := hgrows
        omega
      obtain ⟨-,s',-,hwrite,hwritten,hothers⟩ := LongEnough.write h hi hshort ho hsize g hin
      exact ⟨_,s',andThen_ok.mpr ⟨true,t,hgrow,hwrite⟩,hothers,Or.inl ⟨rfl,hwritten⟩⟩
  · rw [if_neg hgrows]
    have g := longEnough_of_le h hshort (not_lt.mp hgrows)
    by_cases hin : (s.open_file_fd_table w.k).offset.toInt < BLOCK_SIZE * (chain w.fd_index ++ []).length
    · obtain ⟨-,s',-,hwrite,hwritten,hothers⟩ := LongEnough.write h hi hshort ho hsize g hin
      exact ⟨_,s',hwrite,hothers,Or.inl ⟨rfl,hwritten⟩⟩
    · have hle := ho.offset_le
      have hroom' : (s.fd_table w.fd_index).size.toInt ≤ 32 * (chain w.fd_index).length := hshort
      rw [List.append_nil] at hin
      have hfull : (s.open_file_fd_table w.k).offset.toInt = (32 * (chain w.fd_index).length : ℕ) := by
        have hge : ¬ (s.open_file_fd_table w.k).offset.toInt < 32 * (chain w.fd_index).length := hin
        push_cast
        omega
      have hend := @writeAt_end s _ buffer w.k w.file.starting_block size hseg hne hfull
      have hzero : size = 0 := by
        have hfits : (s.open_file_fd_table w.k).offset.toInt + size.toInt ≤ (s.fd_table w.fd_index).size.toInt :=
          not_lt.mp hgrows
        rw [← Int16.toInt_inj, show (0 : Int16).toInt = 0 from rfl]
        omega
      exact ⟨_,s,congrArg Outcome.result hend,LeavesOthers.refl s _ _,Or.inr ⟨rfl,hzero,rfl⟩⟩

/-- Without room, the other files and all offsets stay as they are. -/
theorem WellChained.not_written (h : WellChained s chain) (w : Writing name s) (hidx : w.file_idx = w.fd_index)
    (hi : Live s w.fd_index) (hflag : s.malfunction_flag = false)
    (hless : ¬ HasRoom s w.fd_index (w.new_size size)) :
    ∃ s', (write name buffer size s).result = .ok (.FILE_WRITE_NO_SPACE,s') ∧ LeavesOthers s s' w.fd_index w.k ∧
      MovedOn s s' w.k 0 := by
  obtain ⟨hgrows,hless⟩ := Classical.not_imp.mp hless
  have hseg := h.seg _ hi
  have hne := h.nonempty _ hi
  rw [w.write_eq, if_pos (show w.file.size.toInt < w.new_size size from hgrows)]
  obtain ⟨enough,t,hgrow⟩ := @grow_returns s w.file_idx w.fd_index _ (w.new_size size) hseg hne hflag
  have hsame := sameEntries_grow hgrow
  have hfalse : enough = false := by
    cases enough with
    | false => rfl
    | true => exact absurd (grow_room hseg hne hgrow) hless
  subst hfalse
  obtain ⟨hfat,htable⟩ := grow_fails_frame hseg hne hgrow
  rw [hidx] at htable
  refine ⟨t,andThen_ok.mpr ⟨false,t,hgrow,rfl⟩,⟨htable,fun j hj hji => ?_,fun l _ => ?_,hsame.file_count⟩,?_,?_⟩
  · have htseg : Chain t.fat (t.fd_table j).starting_block (chain j) := by
      rw [htable j hji]
      refine (h.seg j hj).congr fun b hb => hfat b ?_ (Chain.used (h.seg j hj) hb)
      exact fun hb' => h.apart j _ hj hi hji hb hb'
    rw [contents_eq htseg, contents_eq (h.seg j hj), htable j hji, hsame.memory]
  · rw [hsame.open_file_fd_table]
  · rw [hsame.open_file_fd_table]
  · rw [hsame.open_file_fd_table, add_zero]

/-- A slot is free, or it holds a file in use, at an offset inside of the file if it is this one. -/
def Held (s : State) (i : Fin NUM_FILES) (file : OpenedFile) : Prop :=
  file.idx = NO_OPENED_FILE ∨ ∃ j, Live s j ∧ file.idx.toInt = j ∧
    (j = i → 0 ≤ file.offset.toInt ∧ file.offset.toInt ≤ (s.fd_table i).size.toInt)

/-- What reading and writing one file rely on. The sizes of other files may be wrong, and the
offsets in them. -/
structure Intact (s : State) (chain : Fin NUM_FILES → List Block) (i : Fin NUM_FILES) : Prop where
  chains : WellChained s chain
  slots : ∀ k, Held s i (s.open_file_fd_table k)
  size_nonneg : Live s i → 0 ≤ (s.fd_table i).size.toInt
  room : Live s i → (s.fd_table i).size.toInt ≤ BLOCK_SIZE * (chain i).length
  malfunction_flag : s.malfunction_flag = false

theorem Consistent.intact (h : Consistent s chain) (i : Fin NUM_FILES) : Intact s chain i := by
  refine ⟨h.chained.wellChained,fun k => ?_,h.size_nonneg i,h.room i,h.malfunction_flag⟩
  refine (h.opened k).imp_right fun ⟨j,hj,ho⟩ => ⟨j,hj,ho.idx,?_⟩
  rintro rfl
  exact ⟨ho.offset_nonneg,ho.offset_le⟩

theorem consistent_of_intact (hchained : Chained s chain) (h : ∀ i, Intact s chain i) : Consistent s chain := by
  refine ⟨hchained,fun i => (h i).size_nonneg,fun i => (h i).room,fun k => ?_,(h 0).malfunction_flag⟩
  rcases (h 0).slots k with hfree | ⟨j,hj,hidx,-⟩
  · exact Or.inl hfree
  · refine Or.inr ⟨j,hj,?_⟩
    rcases (h j).slots k with hfree | ⟨l,-,hidx',hinside⟩
    · rw [hfree, show (NO_OPENED_FILE).toInt = -1 from rfl] at hidx
      omega
    · obtain ⟨hnonneg,hle⟩ := hinside (Fin.ext (by omega))
      exact ⟨hidx,hnonneg,hle⟩

theorem Intact.of_chains {chain' : Fin NUM_FILES → List Block} (h : Intact s chain i) (h' : WellChained s chain') :
    Intact s chain' i := by
  refine ⟨h',h.slots,h.size_nonneg,fun hi => ?_,h.malfunction_flag⟩
  rw [← Seg.unique blockPtr_injective blockPtr_ne_end (h.chains.seg i hi) (h'.seg i hi)]
  exact h.room hi

theorem Intact.target (h : Intact s chain i) (w : Writing name s) : Live s w.fd_index ∧
    (s.open_file_fd_table w.k).idx.toInt = w.fd_index ∧ (w.fd_index = i → Opened s w.k i) := by
  obtain ⟨j,hj,hidx,hinside⟩ := (h.slots w.k).resolve_left w.is_open
  have hindex := index_eq_ok w.descriptor
  rw [hidx] at hindex
  obtain rfl : j = w.fd_index := Fin.ext (by omega)
  refine ⟨hj,hidx,fun heq => ?_⟩
  obtain ⟨hnonneg,hle⟩ := hinside heq
  exact ⟨by rw [hidx, heq],hnonneg,hle⟩

/-- Only the offset of one slot has moved, and not out of this file. -/
theorem Intact.advance (h : Intact s chain i) (memory : Fin MEMORY_SIZE → Int8)
    (hinside : (s.open_file_fd_table k).idx.toInt = i → 0 ≤ (s.open_file_fd_table k).offset.toInt + size.toInt ∧
      (s.open_file_fd_table k).offset.toInt + size.toInt ≤ (s.fd_table i).size.toInt) :
    Intact (({ s with memory := memory } : State).advance k size) chain i := by
  refine ⟨⟨h.chains.seg,h.chains.nonempty,h.chains.apart⟩,fun l => ?_,h.size_nonneg,h.room,h.malfunction_flag⟩
  by_cases hl : l = k
  · subst hl
    have hentry : (({ s with memory := memory } : State).advance l size).open_file_fd_table l =
        { s.open_file_fd_table l with offset := (s.open_file_fd_table l).offset + size } := Function.update_self ..
    rw [hentry]
    refine (h.slots l).imp_right fun ⟨j,hj,hidx,_⟩ => ⟨j,hj,hidx,fun heq => ?_⟩
    obtain ⟨hnonneg,hle⟩ := hinside (by rw [hidx, heq])
    have hmax := (s.fd_table i).size.toInt_lt
    have hsum := @toInt_add_of_le (s.open_file_fd_table l).offset size (by omega) (by omega)
    exact ⟨hnonneg.trans hsum.ge,hsum.le.trans hle⟩
  · rw [advance_of_ne hl]
    exact h.slots l

theorem Intact.setOpened (h : Intact s chain i) {file : OpenedFile} (n : Int16)
    (hfile : file.idx = NO_OPENED_FILE ∨ ∃ j, Live s j ∧ file.idx.toInt = j ∧ file.offset = 0) :
    Intact { s.setOpened k file with opened_file_count := n } chain i := by
  refine ⟨⟨h.chains.seg,h.chains.nonempty,h.chains.apart⟩,fun l => ?_,h.size_nonneg,h.room,h.malfunction_flag⟩
  show Held s i ((s.setOpened k file).open_file_fd_table l)
  by_cases hl : l = k
  · subst hl
    rw [show (s.setOpened l file).open_file_fd_table l = file from Function.update_self ..]
    refine hfile.imp_right fun ⟨j,hj,hidx,hoffset⟩ => ⟨j,hj,hidx,?_⟩
    rintro rfl
    rw [hoffset]
    exact ⟨le_rfl,h.size_nonneg hj⟩
  · rw [show (s.setOpened k file).open_file_fd_table l = s.open_file_fd_table l from Function.update_of_ne hl ..]
    exact h.slots l

theorem Intact.create (h : Intact s chain i) (c : Created name size s s') (hsize : 0 ≤ size.toInt) :
    ∃ chain', Intact s' chain' i := by
  obtain ⟨xs,hchains,hlen,-⟩ := h.chains.create c hsize
  have hlive := c.live_iff
  have hentries : s'.open_file_fd_table = s.open_file_fd_table := by rw [c.result]; rfl
  have hflag : s'.malfunction_flag = s.malfunction_flag := by rw [c.result]; rfl
  refine ⟨_,hchains,fun k => ?_,fun hi => ?_,fun hi => ?_,hflag.trans h.malfunction_flag⟩
  · rw [hentries]
    refine (h.slots k).imp_right fun ⟨j,hj,hidx,hinside⟩ => ⟨j,(hlive j).mpr (Or.inr hj),hidx,?_⟩
    rintro rfl
    rw [c.entry_of_ne (c.ne_of_live hj)]
    exact hinside rfl
  · rcases (hlive i).mp hi with rfl | hi
    · rw [c.entry_self]
      exact hsize
    · rw [c.entry_of_ne (c.ne_of_live hi)]
      exact h.size_nonneg hi
  · rcases (hlive i).mp hi with rfl | hi
    · rw [c.entry_self, Function.update_self]
      rw [blocksFor_eq hsize] at hlen
      show size.toInt ≤ 32 * (c.starting_block :: xs).length
      omega
    · rw [c.entry_of_ne (c.ne_of_live hi), Function.update_of_ne (c.ne_of_live hi)]
      exact h.room hi

theorem Intact.grown (h : Intact s chain i) {file_idx j : Fin NUM_FILES} {new_size : ℤ} (hj : Live s j)
    (hlt : (s.fd_table j).size.toInt < new_size) (hgrow : (grow file_idx j new_size s).result = .ok (true,t)) :
    (∃ chain', Intact t chain' i) ∧ (j = i → new_size ≤ (t.fd_table i).size.toInt) := by
  obtain ⟨ys,hlen,-,hchains,-⟩ := h.chains.grow hj hgrow
  have hsame := sameEntries_grow hgrow
  have htable := grow_enough_table hgrow
  have hflag := hsame.malfunction_flag.trans h.malfunction_flag
  by_cases hji : j = i
  · subst hji
    have g := longEnough_of_grow h.chains hj (h.size_nonneg hj) (h.room hj) hlt hgrow hlen hchains
    have hsize := g.size
    have hnonneg := h.size_nonneg hj
    refine ⟨⟨_,hchains,fun k => ?_,fun _ => by omega,fun _ => ?_,hflag⟩,fun _ => by omega⟩
    · rw [hsame.open_file_fd_table]
      refine (h.slots k).imp_right fun ⟨l,hl,hidx,hinside⟩ => ⟨l,(hsame.live l).mpr hl,hidx,fun heq => ?_⟩
      obtain ⟨hoffset,hle⟩ := hinside heq
      exact ⟨hoffset,by omega⟩
    · rw [Function.update_self]
      exact g.room
  · have hentry : t.fd_table i = s.fd_table i := by rw [htable, Function.update_of_ne (Ne.symm hji)]
    refine ⟨⟨_,hchains,fun k => ?_,fun hi => ?_,fun hi => ?_,hflag⟩,fun heq => absurd heq hji⟩
    · rw [hsame.open_file_fd_table]
      refine (h.slots k).imp_right fun ⟨l,hl,hidx,hinside⟩ => ⟨l,(hsame.live l).mpr hl,hidx,?_⟩
      rwa [hentry]
    · rw [hentry]
      exact h.size_nonneg ((hsame.live i).mp hi)
    · rw [hentry, Function.update_of_ne (Ne.symm hji)]
      exact h.room ((hsame.live i).mp hi)

/-- A file could not become longer; the size of this one is as before, and its chain is if it has one block. -/
theorem Intact.not_grown (h : Intact s chain i) {file_idx j : Fin NUM_FILES} {new_size : ℤ} (hj : Live s j)
    (hgrow : (grow file_idx j new_size s).result = .ok (false,t)) (hsize : (t.fd_table i).size = (s.fd_table i).size)
    (hone : j = i → (chain i).length = 1) : ∃ chain', Intact t chain' i := by
  obtain ⟨x,rest,hchain,hchains⟩ := h.chains.not_grown hj hgrow
  have hsame := sameEntries_grow hgrow
  have hkept : Function.update chain j [x] i = chain i := by
    by_cases hji : j = i
    · subst hji
      have hlen := hone rfl
      rw [hchain, List.length_cons, Nat.add_eq_right, List.length_eq_zero_iff] at hlen
      rw [Function.update_self, hchain, hlen]
    · rw [Function.update_of_ne (Ne.symm hji)]
  refine ⟨_,hchains,fun k => ?_,fun hi => ?_,fun hi => ?_,hsame.malfunction_flag.trans h.malfunction_flag⟩
  · rw [hsame.open_file_fd_table]
    refine (h.slots k).imp_right fun ⟨l,hl,hidx,hinside⟩ => ⟨l,(hsame.live l).mpr hl,hidx,?_⟩
    rwa [hsize]
  · rw [hsize]
    exact h.size_nonneg ((hsame.live i).mp hi)
  · rw [hsize, hkept]
    exact h.room ((hsame.live i).mp hi)

/-- No file is deleted, no size is negative (for `create`, unless the file is rejected
for another reason), and no write runs out of blocks. -/
def OffsetSafe (s : State) : Call → Prop
  | .create name size => FatSafe s (.create name size)
  | .read _ size => 0 ≤ size.toInt
  | .write name _ size => 0 ≤ size.toInt ∧ ∀ r ∈ writeTarget name s,
      HasRoom s r.2 ((s.open_file_fd_table r.1).offset.toInt + size.toInt)
  | .delete_ _ => False
  | _ => True

instance (s : State) : (call : Call) → Decidable (OffsetSafe s call)
  | .create name size => inferInstanceAs (Decidable (FatSafe s (.create name size)))
  | .read _ _ => inferInstanceAs (Decidable (_ ≤ _))
  | .write name _ size => inferInstanceAs (Decidable (_ ∧ ∀ r ∈ writeTarget name s,
      HasRoom s r.2 ((s.open_file_fd_table r.1).offset.toInt + size.toInt)))
  | .delete_ _ => isFalse id
  | .open_ _ => isTrue trivial
  | .close _ => isTrue trivial

/-- The rollback leaves this file as it is: the chain of the file that was to grow consists
of one block, and the size computed from that block is right for this file. -/
def RollbackKeeps (s : State) (i fd_index : Fin NUM_FILES) : Prop :=
  (∃ b, (s.fd_table fd_index).starting_block = blockPtr b ∧ s.fat b = END_OF_CHAIN) ∧
    (s.fd_table i).size = Int16.ofInt (((s.fd_table fd_index).starting_block.toInt + 1) * BLOCK_SIZE)

instance (s : State) (i fd_index : Fin NUM_FILES) : Decidable (RollbackKeeps s i fd_index) :=
  inferInstanceAs (Decidable (_ ∧ _))

/-- The call leaves the file with this descriptor in order: no file is deleted or given a
negative size (unless it is rejected for another reason), no offset in this file gets in front
of its start, and no write runs out of blocks that works on this file or is given its name,
unless the rollback happens to fit. -/
def SafeFor (i : Fin NUM_FILES) (s : State) : Call → Prop
  | .create name size => FatSafe s (.create name size)
  | .read name size => ∀ r ∈ writeTarget name s, r.2 = i →
      0 ≤ (s.open_file_fd_table r.1).offset.toInt + size.toInt
  | .write name _ size => ∀ r ∈ writeTarget name s,
      (r.2 = i → 0 ≤ (s.open_file_fd_table r.1).offset.toInt + size.toInt) ∧
      (r.2 = i ∨ (r.1 : ℕ) = i →
        HasRoom s r.2 ((s.open_file_fd_table r.1).offset.toInt + size.toInt) ∨ RollbackKeeps s i r.2)
  | .delete_ _ => False
  | _ => True

instance (i : Fin NUM_FILES) (s : State) : (call : Call) → Decidable (SafeFor i s call)
  | .create name size => inferInstanceAs (Decidable (FatSafe s (.create name size)))
  | .read name _ => inferInstanceAs (Decidable (∀ r ∈ writeTarget name s, _ → _))
  | .write name _ _ => inferInstanceAs (Decidable (∀ r ∈ writeTarget name s, _ ∧ (_ → _ ∨ _)))
  | .delete_ _ => isFalse id
  | .open_ _ => isTrue trivial
  | .close _ => isTrue trivial

theorem OffsetSafe.fatSafe {call : Call} (h : OffsetSafe s call) : FatSafe s call := by
  cases call with
  | create name size => exact h
  | write name buffer size => exact fun r hr _ hlt => Or.inl (h.2 r hr hlt)
  | delete_ name => exact absurd h id
  | open_ name => trivial
  | close name => trivial
  | read name size => trivial

theorem Intact.forward (h : Intact s chain i) {r : Fin NUM_OPENED_FILES × Fin NUM_FILES} (hr : r ∈ writeTarget name s)
    (hsize : 0 ≤ size.toInt) (heq : r.2 = i) : 0 ≤ (s.open_file_fd_table r.1).offset.toInt + size.toInt := by
  obtain ⟨w,rfl⟩ := exists_writing hr
  have hnonneg := ((h.target w).2.2 heq).offset_nonneg
  dsimp only
  omega

theorem OffsetSafe.safeFor {call : Call} (h : OffsetSafe s call) (hs : Intact s chain i) : SafeFor i s call := by
  cases call with
  | create name size => exact h
  | read name size => exact fun r hr heq => hs.forward hr h heq
  | write name buffer size => exact fun r hr => ⟨fun heq => hs.forward hr h.1 heq,fun _ => Or.inl (h.2 r hr)⟩
  | delete_ name => exact absurd h id
  | open_ name => trivial
  | close name => trivial

theorem Intact.write (h : Intact s chain i) {st : FileWriteStatus} (hsafe : SafeFor i s (.write name buffer size))
    (hwrite : (write name buffer size s).result = .ok (st,s')) : ∃ chain', Intact s' chain' i := by
  rcases write_cases hwrite with ⟨-,rfl⟩ | ⟨w,t,⟨ht,hat⟩ | ⟨hlt,-,hgrow⟩⟩
  · exact ⟨chain,h⟩
  · obtain ⟨hlive,hidx,-⟩ := h.target w
    have hforward := (hsafe _ w.target).1
    obtain ⟨⟨chain',h'⟩,hentries,hlong⟩ : (∃ chain', Intact t chain' i) ∧
        t.open_file_fd_table = s.open_file_fd_table ∧
        (w.fd_index = i → w.new_size size ≤ (t.fd_table i).size.toInt) := by
      rcases ht with ⟨hle,rfl⟩ | ⟨hlt,hgrow⟩
      · refine ⟨⟨chain,h⟩,rfl,?_⟩
        rintro rfl
        exact hle
      · obtain ⟨hgrown,hlong⟩ := h.grown hlive hlt hgrow
        exact ⟨hgrown,(sameEntries_grow hgrow).open_file_fd_table,hlong⟩
    rcases writeAt_cases hat with ⟨-,rfl⟩ | ⟨-,-,memory,rfl⟩
    · exact ⟨chain',h'⟩
    · refine ⟨chain',h'.advance memory fun hk => ?_⟩
      rw [hentries] at hk ⊢
      have heq : w.fd_index = i := Fin.ext (by omega)
      exact ⟨hforward heq,hlong heq⟩
  · obtain ⟨hlive,-,-⟩ := h.target w
    have hseg := h.chains.seg _ hlive
    have hne := h.chains.nonempty _ hlive
    obtain ⟨hless,-⟩ := grow_fails hseg hne hgrow
    by_cases hthis : w.fd_index = i ∨ (w.k : ℕ) = i
    · rcases (hsafe _ w.target).2 hthis with hroom | ⟨⟨b,hstart,hend⟩,hfits⟩
      · exact absurd (hroom hlt) (not_le.mpr hless)
      · have hone : Chain s.fat (s.fd_table w.fd_index).starting_block [b] := ⟨hstart,hend⟩
        have hchain : chain w.fd_index = [b] := Seg.unique blockPtr_injective blockPtr_ne_end hseg hone
        refine h.not_grown hlive hgrow ?_ fun heq => by rw [← heq, hchain]; rfl
        by_cases hfile : i = w.file_idx
        · rw [hfits, hfile, grow_fails_size hone hgrow]
        · rw [(grow_fails_frame hseg hne hgrow).2 i hfile]
    · rw [not_or] at hthis
      have hfile : i ≠ w.file_idx := by
        rintro rfl
        have hslot := w.slot_eq
        exact hthis.2 (by omega)
      refine h.not_grown hlive hgrow ?_ fun heq => absurd heq hthis.1
      rw [(grow_fails_frame hseg hne hgrow).2 i hfile]

theorem Intact.perform (h : Intact s chain i) {call : Call} {r : Reply} (hsafe : SafeFor i s call)
    (hresult : (perform past call s).result = .ok (r,s')) : ∃ chain', Intact s' chain' i := by
  cases call with
  | create name size =>
    obtain ⟨st,hcreate,rfl⟩ := map_ok.mp hresult
    rcases create_cases hcreate with ⟨-,rfl⟩ | ⟨-,⟨c⟩⟩
    · exact ⟨chain,h⟩
    · exact h.create c (c.size_nonneg hsafe)
  | open_ name =>
    obtain ⟨st,hopen,rfl⟩ := map_ok.mp hresult
    rcases open_cases hopen with ⟨-,rfl⟩ | ⟨-,j,k,hfind,-,rfl⟩
    · exact ⟨chain,h⟩
    · exact ⟨chain,h.setOpened _ (Or.inr ⟨j,(find_live hfind).1,toInt_fileIndex j,rfl⟩)⟩
  | close name =>
    obtain ⟨st,hclose,rfl⟩ := map_ok.mp hresult
    rcases close_cases hclose with rfl | ⟨k,-,-,rfl⟩
    · exact ⟨chain,h⟩
    · exact ⟨chain,h.setOpened _ (Or.inl rfl)⟩
  | read name size =>
    obtain ⟨st,hread,rfl⟩ := map_ok.mp hresult
    rcases read_writing hread with rfl | ⟨w,hread⟩
    · exact ⟨chain,h⟩
    rcases readAt_cases hread with rfl | rfl
    · exact ⟨chain,h⟩
    refine ⟨chain,h.advance s.memory fun hk => ?_⟩
    obtain ⟨-,hidx,hopened⟩ := h.target w
    have heq : w.fd_index = i := Fin.ext (by omega)
    have ho := hopened heq
    have hnonneg := ho.offset_nonneg
    have hle := ho.offset_le
    have hforward := hsafe _ w.target heq
    obtain ⟨n,hn,hsize⟩ := @readSize_eq (s.fd_table i) size _ hnonneg hle
    have hmoved : readSize s w.k w.file size = n := by rw [← hsize, readSize, Writing.file, heq]
    rw [hmoved]
    dsimp only at hforward
    omega
  | write name buffer size =>
    obtain ⟨st,hwrite,rfl⟩ := map_ok.mp hresult
    exact h.write hsafe hwrite
  | delete_ name => exact absurd hsafe id

theorem Consistent.create (h : Consistent s chain) (c : Created name size s s') (hsize : 0 ≤ size.toInt) :
    ∃ chain', Consistent s' chain' := by
  obtain ⟨xs,hchained,-⟩ := h.chained.create c hsize
  refine ⟨_,consistent_of_intact hchained fun i => ?_⟩
  obtain ⟨chain',hi⟩ := (h.intact i).create c hsize
  exact hi.of_chains hchained.wellChained

theorem Consistent.written (h : Consistent s chain) (w : Writing name s) (hsafe : OffsetSafe s (.write name buffer size)) :
    ∃ st s', (write name buffer size s).result = .ok (st,s') ∧ LeavesOthers s s' w.fd_index w.k ∧
      ((st = .FILE_WRITE_SUCCESS ∧ HasWritten s s' w.fd_index w.k buffer size) ∨
        (st = .FILE_WRITE_EXCEEDS_FILE_SIZE ∧ size = 0 ∧ s' = s)) := by
  obtain ⟨hi,ho⟩ := h.target w
  exact h.chained.wellChained.written w hi (h.room _ hi) ho h.malfunction_flag hsafe.1 (hsafe.2 _ w.target)

theorem Consistent.perform (h : Consistent s chain) {call : Call} {r : Reply} (hsafe : OffsetSafe s call)
    (hresult : (perform past call s).result = .ok (r,s')) : ∃ chain', Consistent s' chain' := by
  obtain ⟨chain',hchained⟩ := h.chained.perform hsafe.fatSafe hresult
  refine ⟨chain',consistent_of_intact hchained fun i => ?_⟩
  obtain ⟨chain₁,hi⟩ := (h.intact i).perform (hsafe.safeFor (h.intact i)) hresult
  exact hi.of_chains hchained.wellChained

theorem consistent_empty : Consistent (emptyFileSystem false) fun _ => [] := by
  have hlive : ∀ i, ¬ Live (emptyFileSystem false) i := fun i hi => by
    have hlt : (i : ℤ) < 0 := hi
    omega
  exact ⟨chained_empty false,fun i hi => absurd hi (hlive i),fun i hi => absurd hi (hlive i),fun _ => Or.inl rfl,rfl⟩

theorem consistent_run {calls : List Call} (hsafe : Meets (step past) OffsetSafe (emptyFileSystem false) calls)
    (hrun : run (step past) (emptyFileSystem false) calls = some s) : ∃ chain, Consistent s chain := by
  have hsteps : ∀ (t : State) (call : Call) (u : State), (∃ chain, Consistent t chain) → OffsetSafe t call →
      step past t call = some u → ∃ chain, Consistent u chain := by
    rintro t call u ⟨chain,hchain⟩ hcall hstep
    obtain ⟨r,hr⟩ := step_ok hstep
    exact hchain.perform hcall hr
  exact hsafe.invariant hsteps ⟨_,consistent_empty⟩ hrun

theorem intact_run {calls : List Call} (hsafe : Meets (step past) (SafeFor i) (emptyFileSystem false) calls)
    (hrun : run (step past) (emptyFileSystem false) calls = some s) : ∃ chain, Intact s chain i := by
  have hsteps : ∀ (t : State) (call : Call) (u : State), (∃ chain, Intact t chain i) → SafeFor i t call →
      step past t call = some u → ∃ chain, Intact u chain i := by
    rintro t call u ⟨chain,hchain⟩ hcall hstep
    obtain ⟨r,hr⟩ := step_ok hstep
    exact hchain.perform hcall hr
  exact hsafe.invariant hsteps ⟨_,consistent_empty.intact i⟩ hrun

/-- The slot with the number of the descriptor that has the name holds that descriptor. -/
structure Matched (s : State) (name : Text) (i : Fin NUM_FILES) (k : Fin NUM_OPENED_FILES) : Prop where
  found : findFileIndexByName s name = some i
  slot : (k : ℕ) = i
  holds : (s.open_file_fd_table k).idx.toInt = i

theorem Matched.is_open (m : Matched s name i k) : (s.open_file_fd_table k).idx ≠ NO_OPENED_FILE := by
  intro hfree
  have hholds := m.holds
  rw [hfree, show (NO_OPENED_FILE).toInt = -1 from rfl] at hholds
  omega

theorem Matched.index_slot (m : Matched s name i k) : index NUM_OPENED_FILES (i : ℕ) = .ok k := by
  rw [← m.slot]
  exact index_ok k

theorem Matched.index_descriptor (m : Matched s name i k) :
    index NUM_FILES (s.open_file_fd_table k).idx.toInt = .ok i := by
  rw [m.holds]
  exact index_ok i

def Matched.writing (m : Matched s name i k) : Writing name s :=
  ⟨i,k,i,m.found,m.index_slot,m.is_open,m.index_descriptor⟩

theorem Matched.read_eq (m : Matched s name i k) : read name size s = readAt k (s.fd_table i) size s :=
  m.writing.read_eq

/-- After a run that leaves the file with the name in order, in a state where the slot with
the number of its descriptor holds that descriptor, reading and writing by name work on that
file, at the offset in that slot, and on nothing else. -/
theorem addressing {calls : List Call} (hsafe : Meets (step past) (SafeFor i) (emptyFileSystem false) calls)
    (hrun : run (step past) (emptyFileSystem false) calls = some s) (m : Matched s name i k) :
    (∀ size, 0 ≤ size.toInt → ∃ s' bytes, (read name size s).result = .ok ((.FILE_READ_SUCCESS,bytes),s') ∧
      HasRead s s' i k size bytes ∧ LeavesOthers s s' i k) ∧
    ∀ buffer size, 0 ≤ size.toInt → ∃ st s', (write name buffer size s).result = .ok (st,s') ∧
      LeavesOthers s s' i k ∧ ((st = .FILE_WRITE_SUCCESS ∧ HasWritten s s' i k buffer size) ∨
        (st = .FILE_WRITE_EXCEEDS_FILE_SIZE ∧ size = 0 ∧ s' = s) ∨
        (st = .FILE_WRITE_NO_SPACE ∧ ¬ HasRoom s i ((s.open_file_fd_table k).offset.toInt + size.toInt) ∧
          MovedOn s s' k 0)) := by
  obtain ⟨chain,h⟩ := intact_run hsafe hrun
  obtain ⟨hi,-,hopened⟩ := h.target m.writing
  have ho : Opened s k i := hopened rfl
  constructor
  · intro size hsize
    obtain ⟨s',bytes,hread,hdone⟩ := h.chains.readAt hi (h.room hi) ho hsize
    exact ⟨s',bytes,(congrArg Outcome.result m.read_eq).trans hread,hdone⟩
  · intro buffer size hsize
    by_cases hroom : HasRoom s i ((s.open_file_fd_table k).offset.toInt + size.toInt)
    · obtain ⟨st,s',hwrite,hothers,hwritten⟩ := @WellChained.written s chain name buffer size h.chains m.writing hi
        (h.room hi) ho h.malfunction_flag hsize hroom
      exact ⟨st,s',hwrite,hothers,hwritten.imp_right Or.inl⟩
    · obtain ⟨s',hwrite,hothers,hmoved⟩ := @WellChained.not_written s chain name buffer size h.chains m.writing rfl hi
        h.malfunction_flag hroom
      exact ⟨_,s',hwrite,hothers,Or.inr (Or.inr ⟨rfl,hroom,hmoved⟩)⟩

/-- Files are opened in the order of their descriptors, and a third one runs out of blocks. -/
def inOrder : List Call := [.create ['a'] 40,.create ['b'] 0,.create ['c'] 1900,.open_ ['a'],.open_ ['b'],.open_ ['c'],
  .read ['d'] (-1),.read ['c'] 1900,.write ['c'] (fun _ => 7) 70]

theorem in_order_addressed : ∃ s, run (step none) (emptyFileSystem false) inOrder = some s ∧
    (s.fd_table 2).size = 128 ∧
    (∃ s' bytes, (read ['a'] 33 s).result = .ok ((.FILE_READ_SUCCESS,bytes),s') ∧ HasRead s s' 0 0 33 bytes ∧
      LeavesOthers s s' 0 0) ∧
    ∃ st s', (write ['b'] (fun _ => 7) 40 s).result = .ok (st,s') ∧ LeavesOthers s s' 1 1 := by
  have hruns : ((run (step none) (emptyFileSystem false) inOrder).any fun s =>
      findFileIndexByName s ['a'] = some 0 && (s.open_file_fd_table 0).idx.toInt = 0 &&
        findFileIndexByName s ['b'] = some 1 && (s.open_file_fd_table 1).idx.toInt = 1 &&
          (s.fd_table 2).size = 128) = true := by decide +kernel
  obtain ⟨s,hrun,hs⟩ := (Option.any_eq_true _ _).mp hruns
  simp only [Bool.and_eq_true, decide_eq_true_eq] at hs
  obtain ⟨⟨⟨⟨hfoundA,hholdsA⟩,hfoundB⟩,hholdsB⟩,hsize⟩ := hs
  have ma : Matched s ['a'] 0 0 := ⟨hfoundA,rfl,hholdsA⟩
  have mb : Matched s ['b'] 1 1 := ⟨hfoundB,rfl,hholdsB⟩
  obtain ⟨st,s',hwrite,hothers,-⟩ := (addressing (by decide +kernel) hrun mb).2 (fun _ => 7) 40 (by decide)
  exact ⟨s,hrun,hsize,(addressing (by decide +kernel) hrun ma).1 33 (by decide),st,s',hwrite,hothers⟩

/-- Only the second of two files is open, in the first slot. -/
theorem second_file_not_addressed : ∃ s s', run (step none) (emptyFileSystem false)
    [.create ['a'] 0,.create ['b'] 0] = some s ∧ (open_ ['b'] s).result = .ok (.FILE_OPEN_SUCCESS,s') ∧
      (read ['b'] 1 s').result = .ok ((.FILE_READ_NOT_OPEN,[]),s') ∧
      (write ['b'] (fun _ => 7) 1 s').result = .ok (.FILE_WRITE_NOT_OPENED,s') := by
  have hruns : ((run (step none) (emptyFileSystem false) [.create ['a'] 0,.create ['b'] 0]).any fun s =>
      (open_ ['b'] s).result.toOption.any fun r => r.1 = .FILE_OPEN_SUCCESS &&
        findFileIndexByName r.2 ['b'] = some 1 && (r.2.open_file_fd_table 1).idx = NO_OPENED_FILE) = true := by decide
  obtain ⟨s,hrun,hopens⟩ := (Option.any_eq_true _ _).mp hruns
  obtain ⟨⟨st,s'⟩,hopen,hs⟩ := exists_of_any hopens
  simp only [Bool.and_eq_true, decide_eq_true_eq] at hs
  obtain ⟨⟨rfl,hfound⟩,hfree⟩ := hs
  have hslot : index NUM_OPENED_FILES ((1 : Fin NUM_FILES) : ℕ) = .ok 1 := rfl
  refine ⟨s,s',hrun,hopen,?_,?_⟩
  · simp only [read, hfound, hslot, proceed, if_pos hfree, done_result]
  · simp only [write, hfound, hslot, proceed, if_pos hfree, done_result]

end SOI.FileSystem
