import SOI.FileSystem.Addressing

/-! # The blocks of a new file

`create` marks a block, asks for the next free one and links it in one step. The
blocks that it takes are the first free ones, in their order.
-/
namespace SOI.FileSystem
open Linked Runs Texts
variable {s s' : State} {fat : Block → Int16} {b : Block} {xs rest : List Block} {name : Text} {size l : Int16} {n : ℕ}

def freeBlocks (fat : Block → Int16) : List Block := (List.finRange NUM_BLOCKS).filter fun b => fat b = FREE_BLOCK

/-- The blocks that a file of this size needs: one, even when it is empty. -/
def blocksNeeded (size : ℤ) : ℕ := max 1 (blocksFor size).toNat

theorem mem_freeBlocks : b ∈ freeBlocks fat ↔ fat b = FREE_BLOCK := by simp [freeBlocks]

theorem freeBlocks_nodup (fat : Block → Int16) : (freeBlocks fat).Nodup := (List.nodup_finRange NUM_BLOCKS).filter _

theorem length_freeBlocks (fat : Block → Int16) : (freeBlocks fat).length = countFreeBlocks fat :=
  List.countP_eq_length_filter.symm

theorem firstFree_eq_head (fat : Block → Int16) : firstFreeBlock fat = (freeBlocks fat).head? := List.head?_filter.symm

theorem freeBlocks_update (h : freeBlocks fat = b :: rest) {p : Int16} (hp : p ≠ FREE_BLOCK) :
    freeBlocks (Function.update fat b p) = rest := by
  have hnodup := freeBlocks_nodup fat
  rw [h] at hnodup
  have hb : b ∉ rest := (List.nodup_cons.mp hnodup).1
  have hupdate : ∀ c, decide (Function.update fat b p c = FREE_BLOCK) = (decide (c ≠ b) && decide (fat c = FREE_BLOCK)) := by
    intro c
    by_cases hc : c = b
    · subst hc
      simp [hp]
    · simp [hc]
  have hfilter : freeBlocks (Function.update fat b p) = (freeBlocks fat).filter fun c => c ≠ b := by
    unfold freeBlocks
    rw [List.filter_filter]
    exact List.filter_congr fun c _ => hupdate c
  rw [hfilter, h, List.filter_cons_of_neg (by simp), List.filter_eq_self.mpr]
  intro c hc
  exact decide_eq_true fun heq => hb (heq ▸ hc)

/-- From the first free block on, the loop of `create` takes the free blocks in their order. -/
theorem allocate_freeBlocks (h : freeBlocks fat = b :: rest) (hn : n ≤ rest.length) :
    ∃ fat' l', allocate (n + 1) (some b) (fat,l) = .ok (fat',l') ∧ Chain fat' (blockPtr b) (b :: rest.take n) ∧
      ∀ c ∉ b :: rest.take n, fat' c = fat c := by
  induction n generalizing fat b rest l with
  | zero =>
    refine ⟨_,_,rfl,⟨rfl,Function.update_self ..⟩,fun c hc => ?_⟩
    have hcb : c ≠ b := by simpa using hc
    rw [Function.update_of_ne hcb, Function.update_of_ne hcb]
  | succ n ih =>
    cases rest with
    | nil => cases hn
    | cons c rest =>
      have hnodup := freeBlocks_nodup fat
      rw [h] at hnodup
      have hb : b ∉ c :: rest := (List.nodup_cons.mp hnodup).1
      have hnext : firstFreeBlock (Function.update fat b END_OF_CHAIN) = some c := by
        rw [firstFree_eq_head, freeBlocks_update h (by decide)]
        rfl
      obtain ⟨fat',l',hallocate,hchain,hframe⟩ := @ih (Function.update fat b (blockPtr c)) c rest (blockPtr b)
        (freeBlocks_update h (blockPtr_ne_free c)) (by simpa using hn)
      have hlink : (if n + 1 = 0 then END_OF_CHAIN else orNone (some c)) = blockPtr c := rfl
      have hout : b ∉ c :: rest.take n := fun hin => hb ((List.take_sublist (n + 1) (c :: rest)).subset hin)
      refine ⟨fat',l',?_,⟨rfl,?_⟩,fun d hd => ?_⟩
      · rw [allocate, hnext, hlink, Function.update_idem]
        exact hallocate
      · rw [hframe b hout, Function.update_self]
        exact hchain
      · obtain ⟨hdb,hd'⟩ := not_or.mp (mt List.mem_cons.mpr hd)
        rw [hframe d hd', Function.update_of_ne hdb]

/-- A size of zero takes one block all the same. -/
theorem markNewFile_freeBlocks (h : freeBlocks fat = b :: rest) (hsize : 0 ≤ size.toInt)
    (hn : blocksNeeded size.toInt ≤ (b :: rest).length) :
    ∃ fat' l', markNewFile fat b size (blocksFor size.toInt).toNat = .ok (fat',l') ∧
      Chain fat' (blockPtr b) ((b :: rest).take (blocksNeeded size.toInt)) ∧
      ∀ c ∉ (b :: rest).take (blocksNeeded size.toInt), fat' c = fat c := by
  by_cases hzero : size = 0
  · subst hzero
    have hone : blocksNeeded (0 : Int16).toInt = 1 := by decide
    rw [hone]
    refine ⟨_,_,rfl,⟨rfl,Function.update_self ..⟩,fun c hc => ?_⟩
    exact Function.update_of_ne (by simpa using hc) _ _
  · have hpos : 0 < size.toInt := by
      apply lt_of_le_of_ne hsize
      intro heq
      exact hzero (Int16.toInt_inj.mp heq.symm)
    obtain ⟨n,hblocks⟩ : ∃ n : ℕ, (blocksFor size.toInt).toNat = n + 1 := by
      rw [blocksFor_eq hsize]
      exact ⟨((size.toInt + 31) / 32).toNat - 1,by omega⟩
    have hneeded : blocksNeeded size.toInt = n + 1 := by
      unfold blocksNeeded
      omega
    rw [hneeded, List.length_cons] at hn
    rw [hneeded, hblocks, markNewFile, if_neg hzero]
    exact allocate_freeBlocks h (by omega)

/-- The file has been put at the end of the table, on these blocks, and nothing else has
changed but the log. -/
structure AddedFile (name : Text) (size : Int16) (s s' : State) (xs : List Block) : Prop where
  descriptor : ∃ (i : Fin NUM_FILES) (start : Int16), (i : ℤ) = s.file_count.toInt ∧
    s'.fd_table = Function.update s.fd_table i ⟨name,start,size⟩ ∧ Chain s'.fat start xs
  file_count : s'.file_count.toInt = s.file_count.toInt + 1
  frame : ∀ b ∉ xs, s'.fat b = s.fat b
  memory : s'.memory = s.memory
  open_file_fd_table : s'.open_file_fd_table = s.open_file_fd_table
  opened_file_count : s'.opened_file_count = s.opened_file_count
  malfunction_flag : s'.malfunction_flag = s.malfunction_flag

structure Acceptable (s : State) (name : Text) : Prop where
  not_full : s.file_count.toInt < NUM_FILES
  name_fits : MIN_NAME_SIZE ≤ name.length ∧ name.length ≤ MAX_NAME_SIZE
  fresh : duplicateName s name = false

theorem Acceptable.create_eq (a : Acceptable s name) : create name size s =
    if countFreeBlocks s.fat < blocksFor size.toInt then done .FILE_CREATE_NO_SPACE s
    else (firstFreeBlock s.fat).elim (done .FILE_CREATE_NO_SPACE s) fun starting_block =>
      proceed (markNewFile s.fat starting_block size (blocksFor size.toInt).toNat) fun r =>
        proceed (index NUM_FILES s.file_count.toInt) fun i =>
          saved .FILE_CREATE_SUCCESS (addFile s i ⟨name,blockPtr starting_block,size⟩ r.1 r.2) := by
  have hname : ¬ (MAX_NAME_SIZE < name.length ∨ name.length < MIN_NAME_SIZE) := by
    rw [not_or, not_lt, not_lt]
    exact ⟨a.name_fits.2,a.name_fits.1⟩
  rw [create, if_neg (not_le.mpr a.not_full), if_neg hname, if_neg (by simp [a.fresh])]
  cases firstFreeBlock s.fat <;> rfl

theorem create_rejects (h : ¬ Acceptable s name) :
    ∃ st, st ≠ .FILE_CREATE_SUCCESS ∧ create name size s = done st s := by
  unfold create
  split_ifs with hfull hname hdup
  · exact ⟨_,by decide,rfl⟩
  · exact ⟨_,by decide,rfl⟩
  · exact ⟨_,by decide,rfl⟩
  all_goals
    push Not at hname
    exact absurd ⟨not_le.mp hfull,⟨hname.2,hname.1⟩,Bool.eq_false_of_not_eq_true hdup⟩ h

theorem create_no_space (a : Acceptable s name) (hless : countFreeBlocks s.fat < blocksNeeded size.toInt) :
    create name size s = done .FILE_CREATE_NO_SPACE s := by
  rw [a.create_eq]
  split_ifs with hblocks
  · rfl
  · have hnone : freeBlocks s.fat = [] := by
      rw [← List.length_eq_zero_iff, length_freeBlocks]
      unfold blocksNeeded at hless
      omega
    rw [firstFree_eq_head, hnone]
    rfl

theorem create_adds (hcount : 0 ≤ s.file_count.toInt) (hsize : 0 ≤ size.toInt) (a : Acceptable s name)
    (hn : blocksNeeded size.toInt ≤ countFreeBlocks s.fat) :
    ∃ s', create name size s = saved .FILE_CREATE_SUCCESS s' ∧
      AddedFile name size s s' ((freeBlocks s.fat).take (blocksNeeded size.toInt)) := by
  have hlength := length_freeBlocks s.fat
  have hneeded : blocksFor size.toInt ≤ blocksNeeded size.toInt ∧ 1 ≤ blocksNeeded size.toInt := by
    unfold blocksNeeded
    omega
  cases hfree : freeBlocks s.fat with
  | nil =>
    rw [hfree, List.length_nil] at hlength
    omega
  | cons b rest =>
    rw [hfree] at hlength
    obtain ⟨fat',l,hmark,hchain,hframe⟩ := @markNewFile_freeBlocks s.fat b rest size hfree hsize (by omega)
    have hfull := a.not_full
    obtain ⟨i,hi⟩ : ∃ i : Fin NUM_FILES, (i : ℤ) = s.file_count.toInt :=
      ⟨⟨s.file_count.toInt.toNat,by omega⟩,Int.toNat_of_nonneg hcount⟩
    have hindex : index NUM_FILES s.file_count.toInt = .ok i := by rw [← hi, index_ok]
    refine ⟨addFile s i ⟨name,blockPtr b,size⟩ fat' l,?_,⟨⟨i,_,hi,rfl,hchain⟩,?_,hframe,rfl,rfl,rfl,rfl⟩⟩
    · rw [a.create_eq, if_neg (by omega), firstFree_eq_head, hfree]
      simp only [List.head?_cons, Option.elim_some, hmark, hindex, proceed]
    · exact toInt_add_one hcount hfull

/-- Where the name and the number of files are accepted, `create` runs out of space
exactly if there are fewer free blocks than the file needs, and otherwise takes the first
of them; without success it changes nothing. -/
theorem create_allocates (hcount : 0 ≤ s.file_count.toInt) (hsize : 0 ≤ size.toInt) :
    (Acceptable s name →
      ((∃ s', (create name size s).result = .ok (.FILE_CREATE_NO_SPACE,s')) ↔
        countFreeBlocks s.fat < blocksNeeded size.toInt) ∧
      (blocksNeeded size.toInt ≤ countFreeBlocks s.fat → ∃ s', create name size s = saved .FILE_CREATE_SUCCESS s' ∧
        AddedFile name size s s' ((freeBlocks s.fat).take (blocksNeeded size.toInt)))) ∧
    ∃ st s', (create name size s).result = .ok (st,s') ∧ (st ≠ .FILE_CREATE_SUCCESS → s' = s) := by
  constructor
  · intro a
    refine ⟨⟨?_,?_⟩,create_adds hcount hsize a⟩
    · rintro ⟨s',hno⟩
      by_contra hn
      obtain ⟨t,hcreate,-⟩ := create_adds hcount hsize a (not_lt.mp hn)
      rw [hcreate] at hno
      cases hno
    · intro hless
      exact ⟨s,congrArg Outcome.result (create_no_space a hless)⟩
  · by_cases a : Acceptable s name
    · rcases lt_or_ge (countFreeBlocks s.fat) (blocksNeeded size.toInt) with hless | hn
      · exact ⟨_,s,congrArg Outcome.result (create_no_space a hless),fun _ => rfl⟩
      · obtain ⟨s',hcreate,-⟩ := create_adds hcount hsize a hn
        exact ⟨_,s',congrArg Outcome.result hcreate,fun hst => absurd rfl hst⟩
    · obtain ⟨st,-,hcreate⟩ := @create_rejects s name size a
      exact ⟨st,s,congrArg Outcome.result hcreate,fun _ => rfl⟩

/-- A second file takes the rest of the disk; for a third one, even an empty one, there is
no space. -/
theorem disk_filled : ∃ s s', run (step none) (emptyFileSystem false) [.create ['a'] 40,.create ['b'] 1984] = some s ∧
    run (step none) (emptyFileSystem false) [.create ['a'] 40] = some s' ∧
    (∃ t, (create ['c'] 0 s).result = .ok (.FILE_CREATE_NO_SPACE,t)) ∧
    ∃ t, create ['b'] 1984 s' = saved .FILE_CREATE_SUCCESS t ∧
      AddedFile ['b'] 1984 s' t ((freeBlocks s'.fat).take 62) := by
  have hruns : ((run (step none) (emptyFileSystem false) [.create ['a'] 40,.create ['b'] 1984]).any fun s =>
      s.file_count = 2 && !duplicateName s ['c'] && countFreeBlocks s.fat = 0) = true := by decide +kernel
  have hfirst : ((run (step none) (emptyFileSystem false) [.create ['a'] 40]).any fun s =>
      s.file_count = 1 && !duplicateName s ['b'] && countFreeBlocks s.fat = 62) = true := by decide +kernel
  obtain ⟨s,hrun,hs⟩ := (Option.any_eq_true _ _).mp hruns
  obtain ⟨s',hrun',hs'⟩ := (Option.any_eq_true _ _).mp hfirst
  simp only [Bool.and_eq_true, decide_eq_true_eq, Bool.not_eq_true'] at hs hs'
  obtain ⟨⟨htwo,hfresh⟩,hfull⟩ := hs
  obtain ⟨⟨hone,hfresh'⟩,hfree⟩ := hs'
  have hcount : s.file_count.toInt = 2 := by rw [htwo]; rfl
  have hcount' : s'.file_count.toInt = 1 := by rw [hone]; rfl
  have a : Acceptable s ['c'] := ⟨by rw [hcount]; decide,by decide,hfresh⟩
  have a' : Acceptable s' ['b'] := ⟨by rw [hcount']; decide,by decide,hfresh'⟩
  have hblocks : blocksNeeded (1984 : Int16).toInt = 62 := by decide
  have hzero : blocksNeeded (0 : Int16).toInt = 1 := by decide
  have hno := ((@create_allocates s ['c'] 0 (by omega) (by decide)).1 a).1
  have hyes := ((@create_allocates s' ['b'] 1984 (by omega) (by decide)).1 a').2
  rw [hblocks] at hyes
  exact ⟨s,s',hrun,hrun',hno.mpr (by omega),hyes (by omega)⟩

end SOI.FileSystem
