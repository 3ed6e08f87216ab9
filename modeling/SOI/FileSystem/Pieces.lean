import SOI.FileSystem.Update

/-! # Writing in pieces

The blocks that a write appends are a function of the FAT, of the start of the file
and of their number. The numbers for two writes add up, so two writes append the
blocks, and store the bytes, of one.
-/
namespace SOI.FileSystem
open Linked Runs Splice Texts
variable {s s' t : State} {chain : Fin NUM_FILES → List Block} {i : Fin NUM_FILES} {k : Fin NUM_OPENED_FILES} {name : Text}
  {buffer : ℕ → Int8} {size start : Int16} {fat fat' : Block → Int16} {xs ys : List Block}
  {memory memory' : Fin MEMORY_SIZE → Int8} {m n : ℕ}

theorem blockBytes_of_bytesOf (h : bytesOf memory xs = bytesOf memory' xs) {b : Block} (hb : b ∈ xs) :
    blockBytes memory b = blockBytes memory' b := by
  induction xs with
  | nil => cases hb
  | cons c xs ih =>
    rw [bytesOf_cons, bytesOf_cons] at h
    obtain ⟨hblock,hrest⟩ := List.append_inj h (by rw [length_blockBytes, length_blockBytes])
    rcases List.mem_cons.mp hb with rfl | hb
    · exact hblock
    · exact ih hrest hb

theorem memory_ext (h : ∀ b, blockBytes memory b = blockBytes memory' b) : memory = memory' := by
  funext a
  have ha : (a : ℕ) < 2048 := a.isLt
  have hblock := h ⟨a / 32,show (a : ℕ) / 32 < 64 by omega⟩
  have hbytes := congrFun (List.ofFn_injective hblock) ⟨a % 32,Nat.mod_lt _ (by decide)⟩
  have hcell : cell ⟨a / 32,show (a : ℕ) / 32 < 64 by omega⟩ ⟨a % 32,Nat.mod_lt _ (by decide)⟩ = a := by
    apply Fin.ext
    rw [cell_val]
    exact Nat.div_add_mod' _ _
  rwa [hcell] at hbytes

theorem andThen_result {α β : Type} {o : Outcome α} {f : α → State → Outcome β} {a : α} (h : o.result = .ok (a,s)) :
    (o.andThen f).result = (f a s).result := by
  rw [Outcome.andThen, h]

/-- The FAT with so many blocks more in the chain. -/
def lengthen (start : Int16) : ℕ → (Block → Int16) → Option (Block → Int16)
  | 0, fat => some fat
  | n + 1, fat => (firstFreeBlock fat).bind fun new_block =>
    (lastBlock fat (NUM_BLOCKS + 1) start).toOption.bind fun last_block =>
      lengthen start n (Function.update (Function.update fat last_block (blockPtr new_block)) new_block END_OF_CHAIN)

theorem lengthen_add : lengthen start (m + n) fat = (lengthen start m fat).bind (lengthen start n) := by
  induction m generalizing fat with
  | zero => rw [Nat.zero_add, lengthen, Option.bind_some]
  | succ m ih =>
    rw [Nat.succ_add]
    simp only [lengthen, ih, Option.bind_assoc]

theorem Extended.lengthen_eq (e : Extended i s s') :
    lengthen (s.fd_table i).starting_block (n + 1) s.fat = lengthen (s'.fd_table i).starting_block n s'.fat := by
  rw [e.result, lengthen, e.first, e.walked]
  rfl

theorem extendBy_lengthen (h : (extendBy i n s).result = .ok (true,t)) :
    lengthen (s.fd_table i).starting_block n s.fat = some t.fat ∧
      t = { s with fat := t.fat, transaction_log := t.transaction_log } := by
  induction n generalizing s with
  | zero =>
    cases h
    exact ⟨rfl,rfl⟩
  | succ n ih =>
    obtain ⟨more,u,hone,hrest⟩ := andThen_ok.mp h
    rcases extend_cases hone with ⟨rfl,⟨e⟩⟩ | ⟨rfl,-⟩
    · obtain ⟨hfat,ht⟩ := ih hrest
      refine ⟨e.lengthen_eq.trans hfat,?_⟩
      rw [ht, e.result]
    · cases hrest

theorem extendBy_of_lengthen (hflag : s.malfunction_flag = false ∨ n = 0)
    (h : lengthen (s.fd_table i).starting_block n s.fat = some fat') :
    ∃ t, (extendBy i n s).result = .ok (true,t) ∧ t.fat = fat' := by
  induction n generalizing s with
  | zero => exact ⟨s,rfl,Option.some.inj h⟩
  | succ n ih =>
    have hflag' : s.malfunction_flag = false := hflag.resolve_right (Nat.succ_ne_zero n)
    obtain ⟨new_block,hfirst,hbind⟩ := Option.bind_eq_some_iff.mp h
    obtain ⟨last_block,hlast,hlengthen⟩ := Option.bind_eq_some_iff.mp hbind
    have hwalked : lastBlock s.fat (NUM_BLOCKS + 1) (s.fd_table i).starting_block = .ok last_block := by
      cases hr : lastBlock s.fat (NUM_BLOCKS + 1) (s.fd_table i).starting_block with
      | error e =>
        rw [hr] at hlast
        cases hlast
      | ok b =>
        rw [hr] at hlast
        cases hlast
        rfl
    let u : State := { s with
      transaction_log := notedLog s.transaction_log new_block
      fat := Function.update (Function.update s.fat last_block (blockPtr new_block)) new_block END_OF_CHAIN }
    have hone : (extend i s).result = .ok (true,u) := by
      simp only [extend, hfirst, proceed_ok, andThen_ok]
      refine ⟨last_block,hwalked,(),_,noteFirst_ok.mpr rfl,?_⟩
      rw [if_neg (by simp [hflag'])]
      rfl
    obtain ⟨t,hrest,ht⟩ := @ih u (Or.inl hflag') hlengthen
    exact ⟨t,andThen_ok.mpr ⟨true,u,hone,hrest⟩,ht⟩

theorem grow_lengthen {file_idx : Fin NUM_FILES} {new_size : ℤ}
    (h : (grow file_idx i new_size s).result = .ok (true,t)) :
    lengthen (s.fd_table i).starting_block (additionalBlocks s i new_size) s.fat = some t.fat ∧
      t = { setFileSize s i new_size with fat := t.fat, transaction_log := t.transaction_log } := by
  obtain ⟨u,hextend,rfl⟩ := grow_cases h
  obtain ⟨hfat,hu⟩ := extendBy_lengthen hextend
  refine ⟨hfat,?_⟩
  rw [if_pos rfl, hu]
  rfl

theorem grow_of_lengthen {file_idx : Fin NUM_FILES} {new_size : ℤ}
    (hflag : s.malfunction_flag = false ∨ additionalBlocks s i new_size = 0)
    (h : lengthen (s.fd_table i).starting_block (additionalBlocks s i new_size) s.fat = some fat') :
    ∃ t, (grow file_idx i new_size s).result = .ok (true,t) ∧ t.fat = fat' := by
  obtain ⟨u,hextend,hfat⟩ := @extendBy_of_lengthen
    { s with transaction_log := growLog s file_idx (s.fd_table i) new_size } i fat' _ hflag h
  refine ⟨finishGrowing u i new_size,?_,hfat⟩
  exact andThen_ok.mpr ⟨(),_,rfl,andThen_ok.mpr ⟨true,u,hextend,rfl⟩⟩

/-- The file is open in the entry with its number, at an offset inside of it, and its
chain is long enough. -/
structure Ready (s : State) (name : Text) (i : Fin NUM_FILES) (k : Fin NUM_OPENED_FILES) (xs : List Block) : Prop where
  chain : Chain s.fat (s.fd_table i).starting_block xs
  nonempty : xs ≠ []
  matched : Matched s name i k
  room : (s.fd_table i).size.toInt ≤ BLOCK_SIZE * xs.length
  opened : Opened s k i

def newSize (s : State) (k : Fin NUM_OPENED_FILES) (size : Int16) : ℤ :=
  (s.open_file_fd_table k).offset.toInt + size.toInt

def sizedTable (s : State) (i : Fin NUM_FILES) (new_size : ℤ) : Fin NUM_FILES → FileDescriptor :=
  if (s.fd_table i).size.toInt < new_size then (setFileSize s i new_size).fd_table else s.fd_table

theorem sizedTable_entry (s : State) (i j : Fin NUM_FILES) (new_size : ℤ) :
    (sizedTable s i new_size j).name = (s.fd_table j).name ∧
      (sizedTable s i new_size j).starting_block = (s.fd_table j).starting_block := by
  have hsame := sameEntries_setFileSize s i new_size
  unfold sizedTable
  split_ifs
  · exact ⟨hsame.name j,hsame.starting_block j⟩
  · exact ⟨rfl,rfl⟩

theorem find_congr (hcount : t.file_count = s.file_count) (hname : ∀ j, (t.fd_table j).name = (s.fd_table j).name) :
    findFileIndexByName t name = findFileIndexByName s name := by
  have hlive : ∀ j, Live t j ↔ Live s j := fun j => by rw [Live, Live, hcount]
  unfold findFileIndexByName
  congr 1
  funext j
  rw [decide_eq_decide.mpr (hlive j), hname j]

/-- Before the bytes are copied: the chain is long enough and the size is noted. -/
structure Enlarged (s t : State) (i : Fin NUM_FILES) (xs : List Block) (new_size : ℤ) : Prop where
  chain : Chain t.fat (s.fd_table i).starting_block xs
  table : t.fd_table = sizedTable s i new_size
  kept : t = { s with fat := t.fat, fd_table := t.fd_table, transaction_log := t.transaction_log }
  size : (t.fd_table i).size.toInt = max (s.fd_table i).size.toInt new_size
  room : (t.fd_table i).size.toInt ≤ BLOCK_SIZE * xs.length

theorem Ready.nonneg (r : Ready s name i k xs) : 0 ≤ (s.fd_table i).size.toInt :=
  r.opened.offset_nonneg.trans r.opened.offset_le

theorem Ready.write_eq (r : Ready s name i k xs) (buffer : ℕ → Int8) (size : Int16) : write name buffer size s =
    if (s.fd_table i).size.toInt < newSize s k size then
      (grow i i (newSize s k size) s).andThen fun enough t =>
        if enough then writeAt k (s.fd_table i).starting_block buffer size t else done .FILE_WRITE_NO_SPACE t
    else writeAt k (s.fd_table i).starting_block buffer size s :=
  r.matched.writing.write_eq buffer size

/-- Where the blocks are there, `write` gets to copying. -/
theorem Ready.enlarge (r : Ready s name i k xs) (buffer : ℕ → Int8)
    (hflag : s.malfunction_flag = false ∨ (blocksToAdd s i (newSize s k size)).toNat = 0)
    (h : lengthen (s.fd_table i).starting_block (blocksToAdd s i (newSize s k size)).toNat s.fat = some fat') :
    ∃ t ys, t.fat = fat' ∧ Enlarged s t i (xs ++ ys) (newSize s k size) ∧
      (write name buffer size s).result = (writeAt k (s.fd_table i).starting_block buffer size t).result := by
  have hnonneg := r.nonneg
  have hwrite := r.write_eq buffer size
  by_cases hgrows : (s.fd_table i).size.toInt < newSize s k size
  · rw [blocksToAdd_of_lt hnonneg hgrows, Int.toNat_natCast] at hflag h
    obtain ⟨t,hgrow,hfat⟩ := @grow_of_lengthen s i fat' i (newSize s k size) hflag h
    obtain ⟨ys,hlen,hchain,-,-,htable⟩ := grow_enough r.chain r.nonempty hgrow
    obtain ⟨hsize,hlong⟩ := grow_enough_size r.chain r.nonempty hnonneg r.room hgrows hgrow hlen
    refine ⟨t,ys,hfat,⟨hchain,?_,?_,?_,?_⟩,?_⟩
    · rw [htable, sizedTable, if_pos hgrows]
      rfl
    · rw [(grow_lengthen hgrow).2]
      rfl
    · rw [hsize, max_eq_right hgrows.le]
    · rw [hsize]
      exact hlong
    · rw [hwrite, if_pos hgrows, andThen_result hgrow, if_pos rfl]
  · rw [blocksToAdd_of_le (not_lt.mp hgrows)] at h
    refine ⟨s,[],Option.some.inj h,⟨?_,?_,rfl,?_,?_⟩,?_⟩
    · rw [List.append_nil]
      exact r.chain
    · rw [sizedTable, if_neg hgrows]
    · rw [max_eq_left (not_lt.mp hgrows)]
    · rw [List.append_nil]
      exact r.room
    · rw [hwrite, if_neg hgrows]

structure Wrote (s s' : State) (i : Fin NUM_FILES) (k : Fin NUM_OPENED_FILES) (xs : List Block) (buffer : ℕ → Int8)
    (size : Int16) : Prop where
  bytes : bytesOf s'.memory xs = splice (bytesOf s.memory xs) (s.open_file_fd_table k).offset.toInt.toNat
    (bytesFrom buffer 0 size.toInt.toNat)
  frame : ∀ b ∉ xs, blockBytes s'.memory b = blockBytes s.memory b
  table : s'.fd_table = sizedTable s i (newSize s k size)
  grown : (s'.fd_table i).size.toInt = max (s.fd_table i).size.toInt (newSize s k size)
  file_count : s'.file_count = s.file_count
  entries : s'.open_file_fd_table = (s.advance k size).open_file_fd_table
  moved : MovedOn s s' k size.toInt
  malfunction_flag : s'.malfunction_flag = s.malfunction_flag

/-- With the blocks there, `write` succeeds, and the file is ready for the next one. -/
theorem Ready.writes (r : Ready s name i k xs) (hpos : 0 < size.toInt)
    (hflag : s.malfunction_flag = false ∨ (blocksToAdd s i (newSize s k size)).toNat = 0)
    (h : lengthen (s.fd_table i).starting_block (blocksToAdd s i (newSize s k size)).toNat s.fat = some fat') :
    ∃ s' ys, (write name buffer size s).result = .ok (.FILE_WRITE_SUCCESS,s') ∧ s'.fat = fat' ∧
      Wrote s s' i k (xs ++ ys) buffer size ∧ Ready s' name i k (xs ++ ys) := by
  obtain ⟨t,ys,hfat,e,hwrite⟩ := r.enlarge buffer hflag h
  have hoffset := r.opened.offset_nonneg
  have hinside := r.opened.offset_le
  have hsize := e.size
  have hroom := e.room
  have hmax := (t.fd_table i).size.toInt_lt
  have hnew : newSize s k size = (s.open_file_fd_table k).offset.toInt + size.toInt := rfl
  have hentries : t.open_file_fd_table = s.open_file_fd_table := by rw [e.kept]
  obtain ⟨memory,hat,hbytes,hframe⟩ := @writeAt_chain t (xs ++ ys) buffer k (s.fd_table i).starting_block size
    (s.open_file_fd_table k).offset.toInt.toNat e.chain (by rw [hentries]; omega) (by omega) (by omega)
  have hmoved := @movedOn_advance s k size (by omega) (by omega)
  have hadvance : (({ t with memory := memory } : State).advance k size).open_file_fd_table =
      (s.advance k size).open_file_fd_table := by
    show (t.advance k size).open_file_fd_table = _
    rw [e.kept]
    rfl
  have hmemory : t.memory = s.memory := by rw [e.kept]
  have hcount : t.file_count = s.file_count := by rw [e.kept]
  have hflags : t.malfunction_flag = s.malfunction_flag := by rw [e.kept]
  rw [hmemory] at hbytes hframe
  have hentry := congrFun hadvance k
  have hfound : findFileIndexByName (({ t with memory := memory } : State).advance k size) name = some i := by
    rw [← r.matched.found]
    apply find_congr hcount
    intro j
    show (t.fd_table j).name = _
    rw [e.table]
    exact (sizedTable_entry s i j _).1
  have hidx : ((({ t with memory := memory } : State).advance k size).open_file_fd_table k).idx.toInt = i := by
    rw [hentry, hmoved.idx]
    exact r.matched.holds
  have hmoved' : MovedOn s (({ t with memory := memory } : State).advance k size) k size.toInt :=
    ⟨by rw [hentry, hmoved.idx],by rw [hentry, hmoved.offset]⟩
  refine ⟨_,ys,hwrite.trans (congrArg Outcome.result hat),hfat,
    ⟨hbytes,hframe,e.table,hsize,hcount,hadvance,hmoved',hflags⟩,
    ⟨?_,?_,⟨hfound,r.matched.slot,hidx⟩,hroom,⟨hidx,?_,?_⟩⟩⟩
  · show Chain t.fat (t.fd_table i).starting_block _
    rw [e.table, (sizedTable_entry s i i _).2]
    exact e.chain
  · simp [r.nonempty]
  · rw [hentry, hmoved.offset]
    omega
  · rw [hentry, hmoved.offset]
    show _ ≤ (t.fd_table i).size.toInt
    omega

/-- A write that succeeds has appended the blocks that it needs. -/
theorem Ready.lengthened (r : Ready s name i k xs) (h : (write name buffer size s).result = .ok (.FILE_WRITE_SUCCESS,s')) :
    lengthen (s.fd_table i).starting_block (blocksToAdd s i (newSize s k size)).toNat s.fat = some s'.fat ∧
      (s.malfunction_flag = false ∨ (blocksToAdd s i (newSize s k size)).toNat = 0) := by
  rw [r.write_eq] at h
  split_ifs at h with hgrows
  · obtain ⟨enough,t,hgrow,h⟩ := andThen_ok.mp h
    cases enough with
    | false => cases h
    | true =>
      have hfat : s'.fat = t.fat := by
        rcases writeAt_cases h with ⟨hexceeds,-⟩ | ⟨-,-,memory,rfl⟩
        · cases hexceeds
        · rfl
      rw [blocksToAdd_of_lt r.nonneg hgrows, Int.toNat_natCast, hfat]
      refine ⟨(grow_lengthen hgrow).1,?_⟩
      by_contra hboth
      rw [not_or] at hboth
      have hfree := grow_room r.chain r.nonempty hgrow
      have hmal : Malfunctions s i (newSize s k size) := ⟨Bool.eq_true_of_not_eq_false hboth.1,by omega,by omega⟩
      rw [grow_terminates r.chain r.nonempty hmal] at hgrow
      cases hgrow
  · rw [blocksToAdd_of_le (not_lt.mp hgrows)]
    rcases writeAt_cases h with ⟨hexceeds,-⟩ | ⟨-,-,memory,rfl⟩
    · cases hexceeds
    · exact ⟨rfl,Or.inr rfl⟩

theorem blocksToAdd_add {a b : ℤ} (hnonneg : 0 ≤ (s.fd_table i).size.toInt)
    (hsize : (t.fd_table i).size.toInt = max (s.fd_table i).size.toInt a) (hle : a ≤ b) :
    (blocksToAdd s i b).toNat = (blocksToAdd s i a).toNat + (blocksToAdd t i b).toNat := by
  have hmax : max (max (s.fd_table i).size.toInt a) b = max (s.fd_table i).size.toInt b := by omega
  unfold blocksToAdd
  rw [hsize, hmax, blocksFor_eq hnonneg, blocksFor_eq (by omega), blocksFor_eq (by omega)]
  omega

theorem sizedTable_sizedTable {a b : ℤ} (htable : t.fd_table = sizedTable s i a)
    (hsize : (t.fd_table i).size.toInt = max (s.fd_table i).size.toInt a) (hle : a ≤ b) :
    sizedTable t i b = sizedTable s i b := by
  have hcases := htable
  unfold sizedTable at hcases ⊢
  rw [hsize]
  split_ifs at hcases with ha
  · rw [max_eq_right ha.le, if_pos (ha.trans_le hle)]
    split_ifs with hb
    · show Function.update t.fd_table i { t.fd_table i with size := Int16.ofInt b } = Function.update s.fd_table i _
      rw [hcases]
      simp [setFileSize]
    · rw [hcases, le_antisymm hle (not_lt.mp hb)]
  · rw [max_eq_left (not_lt.mp ha)]
    split_ifs with hb
    · show Function.update t.fd_table i { t.fd_table i with size := Int16.ofInt b } = Function.update s.fd_table i _
      rw [hcases]
    · exact hcases

theorem blocksToAdd_mono {a b : ℤ} (hnonneg : 0 ≤ (s.fd_table i).size.toInt) (hle : a ≤ b) :
    (blocksToAdd s i a).toNat ≤ (blocksToAdd s i b).toNat := by
  unfold blocksToAdd
  rw [blocksFor_eq (by omega), blocksFor_eq (by omega), blocksFor_eq (by omega)]
  omega

theorem Wrote.bytes_append (w : Wrote s t i k xs buffer size) (hnodup : (xs ++ ys).Nodup)
    (hfits : (s.open_file_fd_table k).offset.toInt.toNat + size.toInt.toNat ≤ BLOCK_SIZE * xs.length) :
    bytesOf t.memory (xs ++ ys) = splice (bytesOf s.memory (xs ++ ys)) (s.open_file_fd_table k).offset.toInt.toNat
      (bytesFrom buffer 0 size.toInt.toNat) := by
  have hrest : bytesOf t.memory ys = bytesOf s.memory ys :=
    bytesOf_congr fun b hb => w.frame b fun hin => List.disjoint_of_nodup_append hnodup hin hb
  rw [bytesOf_append, bytesOf_append, splice_append_left, w.bytes, hrest]
  rw [length_bytesFrom, length_bytesOf]
  exact hfits

theorem advance_advance {a b : Int16} (hentries : t.open_file_fd_table = (s.advance k a).open_file_fd_table) :
    (t.advance k b).open_file_fd_table = (s.advance k (a + b)).open_file_fd_table := by
  show Function.update t.open_file_fd_table k _ = Function.update s.open_file_fd_table k _
  rw [hentries]
  simp [State.advance, State.setOpened, Int16.add_assoc]

theorem Ready.chain_eq (r : Ready s name i k xs) (h : Chain s.fat (s.fd_table i).starting_block ys) : ys = xs :=
  Seg.unique blockPtr_injective blockPtr_ne_end h r.chain

/-- Two writes append the blocks of one. -/
theorem Ready.writes_twice (r : Ready s name i k xs) (first second : ℕ → Int8) {a b : Int16} (ha : 0 < a.toInt)
    (hb : 0 < b.toInt) (hab : (a + b).toInt = a.toInt + b.toInt)
    (hflag : s.malfunction_flag = false ∨ (blocksToAdd s i (newSize s k (a + b))).toNat = 0)
    (h : lengthen (s.fd_table i).starting_block (blocksToAdd s i (newSize s k (a + b))).toNat s.fat = some fat') :
    ∃ t u ys zs, (write name first a s).result = .ok (.FILE_WRITE_SUCCESS,t) ∧
      (write name second b t).result = .ok (.FILE_WRITE_SUCCESS,u) ∧ u.fat = fat' ∧ Ready t name i k ys ∧
      Ready u name i k (ys ++ zs) ∧ Wrote s t i k ys first a ∧ Wrote t u i k (ys ++ zs) second b ∧
      newSize t k b = newSize s k (a + b) := by
  have hle : newSize s k a ≤ newSize s k (a + b) := by
    unfold newSize
    omega
  have hmono := blocksToAdd_mono r.nonneg hle
  rw [← Nat.add_sub_of_le hmono, lengthen_add] at h
  obtain ⟨fat,hfirst,hsecond⟩ := Option.bind_eq_some_iff.mp h
  obtain ⟨t,ys,hwrite,hfat,w,r'⟩ := @Ready.writes s i k name first a fat xs r ha
    (hflag.imp_right fun hnone => by omega) hfirst
  have hadd := blocksToAdd_add r.nonneg w.grown hle
  have hstart : (t.fd_table i).starting_block = (s.fd_table i).starting_block := by
    rw [w.table]
    exact (sizedTable_entry s i i _).2
  have hoffset : (t.open_file_fd_table k).offset.toInt = (s.open_file_fd_table k).offset.toInt + a.toInt := w.moved.offset
  have hnew : newSize t k b = newSize s k (a + b) := by
    unfold newSize
    omega
  have hneeded : (blocksToAdd s i (newSize s k (a + b))).toNat - (blocksToAdd s i (newSize s k a)).toNat =
      (blocksToAdd t i (newSize t k b)).toNat := by
    rw [hnew]
    omega
  rw [hneeded, ← hstart, ← hfat] at hsecond
  have hflag' : t.malfunction_flag = false ∨ (blocksToAdd t i (newSize t k b)).toNat = 0 := by
    rw [w.malfunction_flag]
    exact hflag.imp_right fun hnone => by omega
  obtain ⟨u,zs,hwrite',hfat',w',r''⟩ := @Ready.writes t i k name second b fat' _ r' hb hflag' hsecond
  exact ⟨t,u,_,zs,hwrite,hwrite',hfat',r',r'',w,w',hnew⟩

/-- Two writes store the bytes of one. -/
theorem Wrote.memory_eq {whole first second : ℕ → Int8} {a b : Int16} {u : State} (w : Wrote s s' i k xs whole size)
    (v : Wrote s t i k ys first a) (v' : Wrote t u i k xs second b) {zs : List Block} (hxs : xs = ys ++ zs)
    (hnodup : xs.Nodup) (hoffset : (t.open_file_fd_table k).offset.toInt.toNat =
      (s.open_file_fd_table k).offset.toInt.toNat + a.toInt.toNat)
    (hfits : (t.open_file_fd_table k).offset.toInt.toNat ≤ BLOCK_SIZE * ys.length)
    (hbytes : bytesFrom whole 0 size.toInt.toNat = bytesFrom first 0 a.toInt.toNat ++ bytesFrom second 0 b.toInt.toNat) :
    u.memory = s'.memory := by
  subst hxs
  have hfront : bytesOf t.memory (ys ++ zs) = _ := v.bytes_append hnodup (by rw [← hoffset]; exact hfits)
  have hlength : (bytesOf s.memory (ys ++ zs)).length = BLOCK_SIZE * (ys.length + zs.length) := by
    rw [length_bytesOf, List.length_append]
  have hchain : bytesOf u.memory (ys ++ zs) = bytesOf s'.memory (ys ++ zs) := by
    have hcontinued := @splice_splice _ (bytesOf s.memory (ys ++ zs)) (bytesFrom first 0 a.toInt.toNat)
      (bytesFrom second 0 b.toInt.toNat) (s.open_file_fd_table k).offset.toInt.toNat (by
        rw [hlength]
        have hys : (t.open_file_fd_table k).offset.toInt.toNat ≤ 32 * ys.length := hfits
        show _ ≤ 32 * (ys.length + zs.length)
        omega)
    rw [length_bytesFrom] at hcontinued
    rw [v'.bytes, hoffset, hfront, w.bytes, hbytes, hcontinued]
  apply memory_ext
  intro c
  by_cases hc : c ∈ ys ++ zs
  · exact blockBytes_of_bytesOf hchain hc
  · have hcy : c ∉ ys := fun hin => hc (List.mem_append_left _ hin)
    rw [v'.frame c hc, v.frame c hcy, w.frame c hc]

/-- The states after one write and after two are the same, but for the log. -/
theorem Ready.pieces (r : Ready s name i k xs) {whole first second : ℕ → Int8} {a b : Int16} (ha : 0 < a.toInt)
    (hb : 0 < b.toInt) (hab : (a + b).toInt = a.toInt + b.toInt)
    (hbytes : bytesFrom whole 0 (a + b).toInt.toNat =
      bytesFrom first 0 a.toInt.toNat ++ bytesFrom second 0 b.toInt.toNat)
    (h : (write name whole (a + b) s).result = .ok (.FILE_WRITE_SUCCESS,s')) :
    ∃ t u, (write name first a s).result = .ok (.FILE_WRITE_SUCCESS,t) ∧
      (write name second b t).result = .ok (.FILE_WRITE_SUCCESS,u) ∧ u.memory = s'.memory ∧ u.fat = s'.fat ∧
      u.fd_table = s'.fd_table ∧ u.file_count = s'.file_count ∧ u.open_file_fd_table = s'.open_file_fd_table := by
  obtain ⟨hlengthen,hflag⟩ := r.lengthened h
  obtain ⟨s'',xs',hwrite,-,w,r'⟩ := @Ready.writes s i k name whole (a + b) _ xs r (by omega) hflag hlengthen
  obtain rfl : s'' = s' := (Prod.mk.inj (Except.ok.inj (hwrite.symm.trans h))).2
  obtain ⟨t,u,ys,zs,hfirst,hsecond,hfat,rt,ru,v,v',hnew⟩ := r.writes_twice first second ha hb hab hflag hlengthen
  have hle : newSize s k a ≤ newSize s k (a + b) := by
    unfold newSize
    omega
  have htable : u.fd_table = s''.fd_table := by
    rw [v'.table, w.table, hnew]
    exact sizedTable_sizedTable v.table v.grown hle
  have hchain : ys ++ zs = xs ++ xs' := by
    have hru := ru.chain
    rw [hfat, htable] at hru
    exact r'.chain_eq hru
  have hmoved : (t.open_file_fd_table k).offset.toInt = (s.open_file_fd_table k).offset.toInt + a.toInt := v.moved.offset
  have hnonneg := r.opened.offset_nonneg
  have hinside := rt.opened.offset_le
  have hroom := rt.room
  rw [hchain] at v'
  have hmemory : u.memory = s''.memory :=
    w.memory_eq v v' hchain.symm (Chain.nodup r'.chain) (by omega) (by omega) hbytes
  exact ⟨t,u,hfirst,hsecond,hmemory,hfat,htable,v'.file_count.trans (v.file_count.trans w.file_count.symm),
    v'.entries.trans ((advance_advance v.entries).trans w.entries.symm)⟩

def bufferOf (x : List Int8) (n : ℕ) : Int8 := x.getD n 0

theorem bytesFrom_bufferOf (x : List Int8) : bytesFrom (bufferOf x) 0 x.length = x := by
  refine List.ext_getElem? fun n => ?_
  by_cases hn : n < x.length
  · simp [bytesFrom, bufferOf, hn]
  · simp [bytesFrom, hn]

theorem toInt_length {x : List Int8} (h : x.length < 2 ^ 15) : (Int16.ofNat x.length).toInt = x.length :=
  Int16.toInt_ofNat_of_lt h

/-- Where a write succeeds, so do two writes of its parts, and they leave the same
memory, FAT, descriptors and open files. -/
theorem write_in_pieces (h : WellChained s chain) (m : Matched s name i k)
    (hroom : blocksFor (s.fd_table i).size.toInt ≤ (chain i).length)
    (hoffset : 0 ≤ (s.open_file_fd_table k).offset.toInt ∧
      (s.open_file_fd_table k).offset.toInt ≤ (s.fd_table i).size.toInt) {x y : List Int8} (hx : x ≠ []) (hy : y ≠ [])
    (hlength : (x ++ y).length < 2 ^ 15)
    (hwrite : (write name (bufferOf (x ++ y)) (Int16.ofNat (x ++ y).length) s).result = .ok (.FILE_WRITE_SUCCESS,s')) :
    ∃ t u, (write name (bufferOf x) (Int16.ofNat x.length) s).result = .ok (.FILE_WRITE_SUCCESS,t) ∧
      (write name (bufferOf y) (Int16.ofNat y.length) t).result = .ok (.FILE_WRITE_SUCCESS,u) ∧
      u.memory = s'.memory ∧ u.fat = s'.fat ∧ u.fd_table = s'.fd_table ∧ u.file_count = s'.file_count ∧
      u.open_file_fd_table = s'.open_file_fd_table := by
  have hlive : Live s i := (find_live m.found).1
  have hnonneg : 0 ≤ (s.fd_table i).size.toInt := hoffset.1.trans hoffset.2
  have hlong := (blocksFor_le_iff hnonneg).mp hroom
  have r : Ready s name i k (chain i) :=
    ⟨h.seg i hlive,h.nonempty i hlive,m,hlong,⟨m.holds,hoffset.1,hoffset.2⟩⟩
  have hlong' : x.length + y.length < 2 ^ 15 := by rwa [List.length_append] at hlength
  have hxpos := List.length_pos_of_ne_nil hx
  have hypos := List.length_pos_of_ne_nil hy
  have hxint := @toInt_length x (by omega)
  have hyint := @toInt_length y (by omega)
  have hxyint := toInt_length hlength
  have hsplit : Int16.ofNat (x ++ y).length = Int16.ofNat x.length + Int16.ofNat y.length := by
    rw [List.length_append, Int16.ofNat_add]
  have hbytes : bytesFrom (bufferOf (x ++ y)) 0 (Int16.ofNat (x ++ y).length).toInt.toNat =
      bytesFrom (bufferOf x) 0 (Int16.ofNat x.length).toInt.toNat ++
        bytesFrom (bufferOf y) 0 (Int16.ofNat y.length).toInt.toNat := by
    rw [hxint, hyint, hxyint, Int.toNat_natCast, Int.toNat_natCast, Int.toNat_natCast, bytesFrom_bufferOf,
      bytesFrom_bufferOf, bytesFrom_bufferOf]
  rw [hsplit] at hwrite hbytes hxyint
  rw [List.length_append, Nat.cast_add] at hxyint
  exact r.pieces (by omega) (by omega) (by omega) hbytes hwrite

theorem written_across_blocks : ∃ s s' t u, run (step none) (emptyFileSystem false)
    [.create ['a'] 31,.open_ ['a'],.read ['a'] 30] = some s ∧
      (write ['a'] (bufferOf [1,2,3,4,5]) 5 s).result = .ok (.FILE_WRITE_SUCCESS,s') ∧
      (write ['a'] (bufferOf [1,2,3]) 3 s).result = .ok (.FILE_WRITE_SUCCESS,t) ∧
      (write ['a'] (bufferOf [4,5]) 2 t).result = .ok (.FILE_WRITE_SUCCESS,u) ∧ u.memory = s'.memory ∧ u.fat = s'.fat := by
  have hruns : ((run (step none) (emptyFileSystem false) [.create ['a'] 31,.open_ ['a'],.read ['a'] 30]).any fun s =>
      findFileIndexByName s ['a'] = some 0 && s.open_file_fd_table 0 = ⟨0,30⟩ && (s.fd_table 0).size = 31 &&
        (write ['a'] (bufferOf [1,2,3,4,5]) 5 s).result.toOption.any fun r => r.1 = .FILE_WRITE_SUCCESS) = true := by
    decide +kernel
  obtain ⟨s,hrun,hs⟩ := (Option.any_eq_true _ _).mp hruns
  simp only [Bool.and_eq_true, decide_eq_true_eq] at hs
  obtain ⟨⟨⟨hfound,hopened⟩,hsize⟩,hwrites⟩ := hs
  obtain ⟨⟨st,s'⟩,hwrite,hst⟩ := exists_of_any hwrites
  obtain rfl : st = .FILE_WRITE_SUCCESS := of_decide_eq_true hst
  obtain ⟨chain,h⟩ := consistent_run (by decide +kernel) hrun
  have hidx : (s.open_file_fd_table 0).idx.toInt = 0 := by rw [hopened]; rfl
  have hoffset : (s.open_file_fd_table 0).offset.toInt = 30 := by rw [hopened]; rfl
  have hthirtyone : (s.fd_table 0).size.toInt = 31 := by rw [hsize]; rfl
  have hlive : Live s 0 := (find_live hfound).1
  have hroom := (blocksFor_le_iff (h.size_nonneg 0 hlive)).mpr (h.room 0 hlive)
  obtain ⟨t,u,hfirst,hsecond,hmemory,hfat,-⟩ := @write_in_pieces s s' chain 0 0 ['a'] h.chained.wellChained
    ⟨hfound,rfl,hidx⟩ hroom ⟨by omega,by omega⟩ [1,2,3] [4,5] (by decide) (by decide) (by decide) hwrite
  exact ⟨s,s',t,u,hrun,hwrite,hfirst,hsecond,hmemory,hfat⟩

end SOI.FileSystem
