import SOI.FileSystem.Addressing
import SOI.FileSystem.NoSpace
import SOI.FileSystem.OpenFiles

/-! # Offsets inside files

Which calls keep every offset between the start and the end of its file, in runs
without deletions. Chains may be broken there, so what matters of them is how far
their links can be followed.
-/
namespace SOI.FileSystem
open Linked Runs Texts
variable {s s' t : State} {past : Option FileDescriptor} {name : Text} {size : Int16} {buffer : ℕ → Int8}
  {fat : Block → Int16} {p : Int16} {i file_idx : Fin NUM_FILES} {k : Fin NUM_OPENED_FILES} {new_size : ℤ}

/-- Entries in use refer to a descriptor, at an offset between the start and the end of its file. -/
def OffsetsBounded (s : State) : Prop :=
  ∀ k, (s.open_file_fd_table k).idx ≠ NO_OPENED_FILE → ∃ i, Opened s k i

theorem OffsetsInside.bounded (h : OffsetsInside s) : OffsetsBounded s := by
  intro k hk
  obtain ⟨i,-,ho⟩ := (h k).resolve_left hk
  exact ⟨i,ho⟩

theorem not_bounded_of_idx (hidx : (s.open_file_fd_table k).idx.toInt = i)
    (hout : ¬ (0 ≤ (s.open_file_fd_table k).offset.toInt ∧
      (s.open_file_fd_table k).offset.toInt ≤ (s.fd_table i).size.toInt)) : ¬ OffsetsBounded s := by
  intro h
  obtain ⟨j,ho⟩ := h k (used_of_idx hidx)
  obtain rfl : i = j := Fin.ext (by have hj := ho.idx; omega)
  exact hout ⟨ho.offset_nonneg,ho.offset_le⟩

def Follows (fat : Block → Int16) (m : ℕ) (p : Int16) : Prop := ∃ xs q, xs.length = m ∧ Seg blockPtr fat p xs q

/-- So many links can be followed without coming to the end. -/
def FollowsInside (fat : Block → Int16) (m : ℕ) (p : Int16) : Prop :=
  ∃ xs q, xs.length = m ∧ Seg blockPtr fat p xs q ∧ q ≠ END_OF_CHAIN

/-- `write` finds out that there are not enough blocks. -/
def RunsOut (s : State) (i : Fin NUM_FILES) (new_size : ℤ) : Prop :=
  countFreeBlocks s.fat < additionalBlocks s i new_size ∧ (countFreeBlocks s.fat = 0 ∨
    (s.malfunction_flag = false ∧ ∃ xs, Chain s.fat (s.fd_table i).starting_block xs))

/-- `open` is given a file with a size that is not negative; `read` and `write` do not
move an offset to before the start of the file, if they can get to it at all; and when
`write` runs out of blocks, no entry for the file of that name is behind the end of the
first block of the file that was to grow, counted from the start of the memory. -/
def KeepsOffsets (s : State) : Call → Prop
  | .open_ name => ∀ i ∈ findFileIndexByName s name,
      (∃ k, (s.open_file_fd_table k).idx = NO_OPENED_FILE) → 0 ≤ (s.fd_table i).size.toInt
  | .read name size => ∀ r ∈ writeTarget name s,
      Follows s.fat (blocksBefore (s.open_file_fd_table r.1).offset.toInt) (s.fd_table r.2).starting_block →
        0 ≤ (s.open_file_fd_table r.1).offset.toInt + size.toInt
  | .write name _ size => ∀ r ∈ writeTarget name s,
      (FollowsInside s.fat (blocksBefore (s.open_file_fd_table r.1).offset.toInt) (s.fd_table r.2).starting_block →
        0 ≤ (s.open_file_fd_table r.1).offset.toInt + size.toInt) ∧
      ((s.fd_table r.2).size.toInt < (s.open_file_fd_table r.1).offset.toInt + size.toInt →
        RunsOut s r.2 ((s.open_file_fd_table r.1).offset.toInt + size.toInt) →
          ∀ l, (s.open_file_fd_table l).idx.toInt = (r.1 : ℕ) →
            (s.open_file_fd_table l).offset.toInt ≤ ((s.fd_table r.2).starting_block.toInt + 1) * BLOCK_SIZE)
  | _ => True

theorem follows_iff {m : ℕ} : Follows fat m p ↔ ∃ q, seek fat m p = .ok q := by
  simp only [seek_ok_iff]
  constructor
  · rintro ⟨xs,q,hlen,hseg⟩
    exact ⟨q,xs,hlen,hseg⟩
  · rintro ⟨q,xs,hlen,hseg⟩
    exact ⟨xs,q,hlen,hseg⟩

theorem followsInside_iff {m : ℕ} (hp : p ≠ END_OF_CHAIN) :
    FollowsInside fat m p ↔ ∃ q, seekInChain fat m p = .ok (some q) := by
  simp only [seekInChain_some_iff hp]
  constructor
  · rintro ⟨xs,q,hlen,hseg,hq⟩
    exact ⟨q,⟨xs,hlen,hseg⟩,hq⟩
  · rintro ⟨q,⟨xs,hlen,hseg⟩,hq⟩
    exact ⟨xs,q,hlen,hseg,hq⟩

instance (fat : Block → Int16) (m : ℕ) (p : Int16) : Decidable (Follows fat m p) :=
  decidable_of_iff ((seek fat m p).toOption.isSome = true) <| by
    rw [follows_iff]
    cases seek fat m p <;> simp [Except.toOption]

instance (fat : Block → Int16) (m : ℕ) (p : Int16) : Decidable (FollowsInside fat m p) :=
  decidable_of_iff ((seek fat m p).toOption.any (fun q => q ≠ END_OF_CHAIN) = true) <| by
    rw [Option.any_eq_true]
    constructor
    · rintro ⟨q,hseek,hq⟩
      cases hres : seek fat m p with
      | error e =>
        rw [hres] at hseek
        cases hseek
      | ok q' =>
        rw [hres] at hseek
        cases hseek
        obtain ⟨xs,hlen,hseg⟩ := seek_ok_iff.mp hres
        exact ⟨xs,q,hlen,hseg,of_decide_eq_true hq⟩
    · rintro ⟨xs,q,hlen,hseg,hq⟩
      rw [seek_ok_iff.mpr ⟨xs,hlen,hseg⟩]
      exact ⟨q,rfl,decide_eq_true hq⟩

instance (fat : Block → Int16) (p : Int16) : Decidable (∃ xs, Chain fat p xs) :=
  decidable_of_iff _ clearChain_isSome

instance (s : State) (i : Fin NUM_FILES) (new_size : ℤ) : Decidable (RunsOut s i new_size) :=
  inferInstanceAs (Decidable (_ ∧ (_ ∨ (_ ∧ ∃ xs, Chain _ _ xs))))

instance (s : State) : (call : Call) → Decidable (KeepsOffsets s call)
  | .open_ name => inferInstanceAs (Decidable (∀ i ∈ findFileIndexByName s name, _ → _))
  | .read name _ => inferInstanceAs (Decidable (∀ r ∈ writeTarget name s, _ → _))
  | .write name _ _ => inferInstanceAs (Decidable (∀ r ∈ writeTarget name s, _ ∧ (_ → _ → ∀ _, _ → _)))
  | .create _ _ => isTrue trivial
  | .close _ => isTrue trivial
  | .delete_ _ => isTrue trivial

structure Sized (s : State) : Prop where
  starts : ∀ i, Live s i → ∃ b, (s.fd_table i).starting_block = blockPtr b
  bounded : ∀ i, Live s i → blocksFor (s.fd_table i).size.toInt + countFreeBlocks s.fat ≤ 128

theorem Sized.congr (h : Sized s) (hfat : t.fat = s.fat) (htable : t.fd_table = s.fd_table)
    (hcount : t.file_count = s.file_count) : Sized t := by
  have hlive : ∀ i, Live t i ↔ Live s i := fun i => by rw [Live, Live, hcount]
  constructor
  · intro i hi
    rw [htable]
    exact h.starts i ((hlive i).mp hi)
  · intro i hi
    rw [htable, hfat]
    exact h.bounded i ((hlive i).mp hi)

theorem sized_empty (flag : Bool) : Sized (emptyFileSystem flag) := by
  have hlive : ∀ i, ¬ Live (emptyFileSystem flag) i := fun i hi => by
    have hlt : (i : ℤ) < 0 := hi
    omega
  exact ⟨fun i hi => absurd hi (hlive i),fun i hi => absurd hi (hlive i)⟩

theorem Sized.create (h : Sized s) (c : Created name size s s') : Sized s' := by
  have hlive := c.live_iff
  have hfat : s'.fat = c.fat := congrArg State.fat c.result
  have hfree : countFreeBlocks s'.fat ≤ countFreeBlocks s.fat := by
    rw [hfat]
    exact countFree_le_of_free fun b hb => markNewFile_free c.marked hb
  constructor
  · intro i hi
    by_cases hic : i = c.i
    · rw [hic, c.entry_self]
      exact ⟨c.starting_block,rfl⟩
    · rw [c.entry_of_ne hic]
      exact h.starts i (((hlive i).mp hi).resolve_left hic)
  · intro i hi
    by_cases hic : i = c.i
    · have henough := c.enough
      have hall := countFree_le s.fat
      rw [hic, c.entry_self]
      dsimp only
      omega
    · have hold := h.bounded i (((hlive i).mp hi).resolve_left hic)
      rw [c.entry_of_ne hic]
      omega

theorem Sized.grown (h : Sized s) (hi : Live s i) (hnonneg : 0 ≤ (s.fd_table i).size.toInt)
    (hlt : (s.fd_table i).size.toInt < new_size) (hgrow : (grow file_idx i new_size s).result = .ok (true,t)) :
    Sized t ∧ (t.fd_table i).size.toInt = new_size ∧ ∀ j, j ≠ i → t.fd_table j = s.fd_table j := by
  have hsame := sameEntries_grow hgrow
  have htable := grow_enough_table hgrow
  have huses := grow_uses hgrow
  have hbound := h.bounded i hi
  have hothers : ∀ j, j ≠ i → t.fd_table j = s.fd_table j := fun j hj => by rw [htable, Function.update_of_ne hj]
  rw [additionalBlocks, blocksFor_eq hnonneg, blocksFor_eq (by omega)] at huses
  rw [blocksFor_eq hnonneg] at hbound
  have hsize : (t.fd_table i).size.toInt = new_size := by
    rw [htable, Function.update_self]
    exact Int16.toInt_ofInt_of_le (by omega) (by omega)
  refine ⟨⟨fun j hj => ?_,fun j hj => ?_⟩,hsize,hothers⟩
  · rw [hsame.starting_block]
    exact h.starts j ((hsame.live j).mp hj)
  · by_cases hji : j = i
    · rw [hji, hsize, blocksFor_eq (by omega)]
      omega
    · have hold := h.bounded j ((hsame.live j).mp hj)
      rw [hothers j hji]
      omega

theorem rolledBack_size (b : Block) : (Int16.ofInt (((blockPtr b).toInt + 1) * BLOCK_SIZE)).toInt = (b + 1) * BLOCK_SIZE :=
  size_of_block.mp rfl

theorem Sized.not_grown (h : Sized s) (hi : Live s i) (hgrow : (grow file_idx i new_size s).result = .ok (false,t)) :
    Sized t ∧ (t.fd_table file_idx).size.toInt = ((s.fd_table i).starting_block.toInt + 1) * BLOCK_SIZE ∧
      ∀ j, j ≠ file_idx → t.fd_table j = s.fd_table j := by
  have hsame := sameEntries_grow hgrow
  have htable := grow_fails_table hgrow
  obtain ⟨b,hb⟩ := h.starts i hi
  rw [rolledBackTable_of_ptr hb] at htable
  have hfree : countFreeBlocks t.fat ≤ countFreeBlocks s.fat :=
    countFree_le_of_free fun c hc => grow_fails_free hb hgrow hc
  have hsize : (t.fd_table file_idx).size.toInt = (b + 1) * BLOCK_SIZE := by
    rw [htable, Function.update_self]
    exact rolledBack_size b
  have hothers : ∀ j, j ≠ file_idx → t.fd_table j = s.fd_table j := fun j hj => by
    rw [htable, Function.update_of_ne hj]
  refine ⟨⟨fun j hj => ?_,fun j hj => ?_⟩,?_,hothers⟩
  · rw [hsame.starting_block]
    exact h.starts j ((hsame.live j).mp hj)
  · by_cases hjf : j = file_idx
    · have hall := countFree_le t.fat
      have hlt : (b : ℕ) < 64 := b.isLt
      rw [hjf, hsize, blocksFor_eq (by push_cast; omega)]
      push_cast
      omega
    · have hold := h.bounded j ((hsame.live j).mp hj)
      rw [hothers j hjf]
      omega
  · rw [hsize, hb, blockPtr_toInt]

theorem runsOut_of_fails (hgrow : (grow file_idx i new_size s).result = .ok (false,t)) : RunsOut s i new_size := by
  have hneeded : additionalBlocks s i new_size ≠ 0 := fun hnone => by
    cases (grow_zero hnone hgrow).1
  by_cases hzero : countFreeBlocks s.fat = 0
  · exact ⟨by omega,Or.inl hzero⟩
  · obtain ⟨c,hc⟩ := countFree_pos.mp (Nat.pos_of_ne_zero hzero)
    have hfirst : firstFreeBlock s.fat ≠ none := by
      rw [hc]
      exact Option.some_ne_none c
    obtain ⟨xs,hne,h⟩ := grow_walked hneeded hfirst hgrow
    refine ⟨(grow_fails h hne hgrow).1,Or.inr ⟨?_,xs,h⟩⟩
    by_contra hflag
    have hmal : Malfunctions s i new_size :=
      ⟨Bool.eq_true_of_not_eq_false hflag,Nat.pos_of_ne_zero hneeded,Nat.pos_of_ne_zero hzero⟩
    rw [grow_terminates h hne hmal] at hgrow
    cases hgrow

theorem RunsOut.fails (h : RunsOut s i new_size) {b : Block} (hstart : (s.fd_table i).starting_block = blockPtr b) :
    ∃ t, (grow file_idx i new_size s).result = .ok (false,t) := by
  obtain ⟨hless,hzero | ⟨hflag,xs,hxs⟩⟩ := h
  · refine grow_full hstart (by omega) ?_
    by_contra hsome
    have hpos := countFree_pos.mpr (Option.ne_none_iff_exists'.mp hsome)
    omega
  · have hne : xs ≠ [] := by
      rintro rfl
      exact blockPtr_ne_end b ((seg_nil.mp hxs).symm.trans hstart)
    obtain ⟨enough,t,hgrow⟩ := @grow_returns s file_idx i xs new_size hxs hne hflag
    cases enough with
    | false => exact ⟨t,hgrow⟩
    | true => exact absurd (grow_room hxs hne hgrow) (not_le.mpr hless)

section
variable {file : FileDescriptor}

theorem readAt_advance (hnonneg : 0 ≤ (s.open_file_fd_table k).offset.toInt)
    (hle : (s.open_file_fd_table k).offset.toInt ≤ file.size.toInt) {r : FileReadStatus × List Int8}
    (h : (readAt k file size s).result = .ok (r,t)) :
    Follows s.fat (blocksBefore (s.open_file_fd_table k).offset.toInt) file.starting_block ∧
      ∃ n : Int16, n.toInt = min size.toInt (file.size.toInt - (s.open_file_fd_table k).offset.toInt) ∧
        t = s.advance k n := by
  obtain ⟨n,hn,hsize⟩ := @readSize_eq file size _ hnonneg hle
  unfold readAt at h
  dsimp only at h
  rw [if_neg (not_lt.mpr hle), hsize] at h
  obtain ⟨q,hseek,h⟩ := proceed_ok.mp h
  obtain ⟨bytes,-,h⟩ := proceed_ok.mp h
  cases h
  exact ⟨follows_iff.mpr ⟨q,hseek⟩,n,hn,rfl⟩

theorem readAt_back (hle : (s.open_file_fd_table k).offset.toInt ≤ file.size.toInt) (hneg : size.toInt < 0)
    (hfollows : Follows s.fat (blocksBefore (s.open_file_fd_table k).offset.toInt) file.starting_block) :
    ∃ r, (readAt k file size s).result = .ok (r,s.advance k size) := by
  obtain ⟨q,hseek⟩ := follows_iff.mp hfollows
  have hzero : size.toInt.toNat = 0 := by omega
  unfold readAt
  dsimp only
  rw [if_neg (not_lt.mpr hle), if_neg (by omega), hzero]
  exact ⟨_,proceed_ok.mpr ⟨q,hseek,proceed_ok.mpr ⟨[],by rw [readLoop],rfl⟩⟩⟩

theorem writeAt_follows {start : Int16} (hstart : start ≠ END_OF_CHAIN)
    (h : (writeAt k start buffer size s).result = .ok (.FILE_WRITE_SUCCESS,t)) :
    FollowsInside s.fat (blocksBefore (s.open_file_fd_table k).offset.toInt) start := by
  obtain ⟨found,hseek,h⟩ := proceed_ok.mp h
  cases found with
  | none => cases h
  | some q => exact (followsInside_iff hstart).mpr ⟨q,hseek⟩

theorem writeAt_back {start : Int16} (hstart : start ≠ END_OF_CHAIN) (hneg : size.toInt < 0)
    (hfollows : FollowsInside s.fat (blocksBefore (s.open_file_fd_table k).offset.toInt) start) :
    (writeAt k start buffer size s).result = .ok (.FILE_WRITE_SUCCESS,s.advance k size) := by
  obtain ⟨q,hseek⟩ := (followsInside_iff hstart).mp hfollows
  have hzero : size.toInt.toNat = 0 := by omega
  refine proceed_ok.mpr ⟨some q,hseek,proceed_ok.mpr ⟨s.memory,?_,rfl⟩⟩
  rw [hzero, writeLoop]

end

theorem OffsetsInside.congr (h : OffsetsInside s) (hentries : t.open_file_fd_table = s.open_file_fd_table)
    (hlive : ∀ i, Live s i → Live t i)
    (hsize : ∀ l i, Opened s l i → (s.open_file_fd_table l).offset.toInt ≤ (t.fd_table i).size.toInt) :
    OffsetsInside t := by
  intro l
  rcases h l with hfree | ⟨i,hi,ho⟩
  · exact Or.inl (by rw [hentries]; exact hfree)
  · refine Or.inr ⟨i,hlive i hi,?_,?_,?_⟩
    · rw [hentries]
      exact ho.idx
    · rw [hentries]
      exact ho.offset_nonneg
    · rw [hentries]
      exact hsize l i ho

/-- The offset of one entry moves, and stays inside the file. -/
theorem OffsetsInside.advance (h : OffsetsInside s) (hi : Live s i) (ho : Opened s k i)
    (hnonneg : 0 ≤ (s.open_file_fd_table k).offset.toInt + size.toInt)
    (hle : (s.open_file_fd_table k).offset.toInt + size.toInt ≤ (s.fd_table i).size.toInt) :
    OffsetsInside (s.advance k size) := by
  have hmax := (s.fd_table i).size.toInt_lt
  have hmoved := @movedOn_advance s k size (by omega) (by omega)
  intro l
  by_cases hl : l = k
  · subst hl
    refine Or.inr ⟨i,hi,?_,?_,?_⟩
    · rw [hmoved.idx]
      exact ho.idx
    · rw [hmoved.offset]
      exact hnonneg
    · rw [hmoved.offset]
      exact hle
  · rw [advance_of_ne hl]
    rcases h l with hfree | ⟨j,hj,hopened⟩
    · exact Or.inl hfree
    · exact Or.inr ⟨j,hj,hopened.kept (advance_of_ne hl) le_rfl⟩

theorem OffsetsInside.written (h : OffsetsInside s) (hi : Live s i) (ho : Opened s k i) (memory : Fin MEMORY_SIZE → Int8)
    (hnonneg : 0 ≤ (s.open_file_fd_table k).offset.toInt + size.toInt)
    (hle : (s.open_file_fd_table k).offset.toInt + size.toInt ≤ (s.fd_table i).size.toInt) :
    OffsetsInside (({ s with memory := memory } : State).advance k size) := by
  have hin : OffsetsInside { s with memory := memory } := h.congr rfl (fun _ => id) fun _ _ ho => ho.offset_le
  have hopened : Opened { s with memory := memory } k i := ⟨ho.idx,ho.offset_nonneg,ho.offset_le⟩
  exact hin.advance hi hopened hnonneg hle

theorem Created.inside (c : Created name size s s') (h : OffsetsInside s) : OffsetsInside s' := by
  have hlive := c.live_iff
  have hentries : s'.open_file_fd_table = s.open_file_fd_table := by
    rw [c.result]
    rfl
  intro l
  rw [hentries]
  rcases h l with hfree | ⟨i,hi,ho⟩
  · exact Or.inl hfree
  · refine Or.inr ⟨i,(hlive i).mpr (Or.inr hi),ho.kept (congrFun hentries l) ?_⟩
    rw [c.entry_of_ne (c.ne_of_live hi)]

theorem OffsetsInside.setOpened (h : OffsetsInside s) {file : OpenedFile} (n : Int16)
    (hfile : file.idx = NO_OPENED_FILE ∨
      ∃ i, Live s i ∧ file.idx.toInt = i ∧ 0 ≤ file.offset.toInt ∧ file.offset.toInt ≤ (s.fd_table i).size.toInt) :
    OffsetsInside { s.setOpened k file with opened_file_count := n } := by
  intro l
  by_cases hl : l = k
  · subst hl
    have hentry : (s.setOpened l file).open_file_fd_table l = file := Function.update_self ..
    rcases hfile with hfree | ⟨i,hi,hidx,hnonneg,hle⟩
    · refine Or.inl ?_
      show ((s.setOpened l file).open_file_fd_table l).idx = _
      rw [hentry]
      exact hfree
    · refine Or.inr ⟨i,hi,?_,?_,?_⟩
      · show ((s.setOpened l file).open_file_fd_table l).idx.toInt = _
        rw [hentry]
        exact hidx
      · show 0 ≤ ((s.setOpened l file).open_file_fd_table l).offset.toInt
        rw [hentry]
        exact hnonneg
      · show ((s.setOpened l file).open_file_fd_table l).offset.toInt ≤ _
        rw [hentry]
        exact hle
  · have hentry : (s.setOpened k file).open_file_fd_table l = s.open_file_fd_table l := Function.update_of_ne hl ..
    rcases h l with hfree | ⟨i,hi,hopened⟩
    · refine Or.inl ?_
      show ((s.setOpened k file).open_file_fd_table l).idx = _
      rw [hentry]
      exact hfree
    · exact Or.inr ⟨i,hi,hopened.kept hentry le_rfl⟩

theorem not_bounded_advance (ho : Opened s k i) (hneg : (s.open_file_fd_table k).offset.toInt + size.toInt < 0) :
    ¬ OffsetsBounded (s.advance k size) := by
  have hnonneg := ho.offset_nonneg
  have hmin := size.le_toInt
  have hmoved := @movedOn_advance s k size (by omega) (by omega)
  apply not_bounded_of_idx (i := i)
  · rw [hmoved.idx]
    exact ho.idx
  · rw [hmoved.offset]
    omega

theorem Sized.start_ne (h : Sized s) (hi : Live s i) : (s.fd_table i).starting_block ≠ END_OF_CHAIN := by
  obtain ⟨b,hb⟩ := h.starts i hi
  rw [hb]
  exact (blockPtr_ne_end b).symm

theorem Sized.perform (h : Sized s) (hin : OffsetsInside s) {call : Call} {r : Reply}
    (hcall : ∀ name, call ≠ .delete_ name) (hr : (perform past call s).result = .ok (r,s')) : Sized s' := by
  cases call with
  | create name size =>
    obtain ⟨st,hcreate,rfl⟩ := map_ok.mp hr
    rcases create_cases hcreate with ⟨-,rfl⟩ | ⟨-,⟨c⟩⟩
    · exact h
    · exact h.create c
  | open_ name =>
    obtain ⟨st,hopen,rfl⟩ := map_ok.mp hr
    rcases open_cases hopen with ⟨-,rfl⟩ | ⟨-,i,k,-,-,rfl⟩
    · exact h
    · exact h.congr rfl rfl rfl
  | close name =>
    obtain ⟨st,hclose,rfl⟩ := map_ok.mp hr
    rcases close_cases hclose with rfl | ⟨k,-,-,rfl⟩
    · exact h
    · exact h.congr rfl rfl rfl
  | read name size =>
    obtain ⟨st,hread,rfl⟩ := map_ok.mp hr
    rcases read_cases hread with rfl | ⟨k,n,rfl⟩
    · exact h
    · exact h.congr rfl rfl rfl
  | write name buffer size =>
    obtain ⟨st,hwrite,rfl⟩ := map_ok.mp hr
    rcases write_cases hwrite with ⟨-,rfl⟩ | ⟨w,t,⟨ht,hat⟩ | ⟨-,-,hgrow⟩⟩
    · exact h
    · obtain ⟨hi,ho⟩ := hin.target w
      have hsized : Sized t := by
        rcases ht with ⟨-,rfl⟩ | ⟨hlt,hgrow⟩
        · exact h
        · exact (h.grown hi (ho.offset_nonneg.trans ho.offset_le) hlt hgrow).1
      rcases writeAt_cases hat with ⟨-,rfl⟩ | ⟨-,-,memory,rfl⟩
      · exact hsized
      · exact hsized.congr rfl rfl rfl
    · exact (h.not_grown (hin.target w).1 hgrow).1
  | delete_ name => exact absurd rfl (hcall name)

theorem open_keeps {st : FileOpenStatus} (h : OffsetsInside s) (hkeeps : KeepsOffsets s (.open_ name))
    (hopen : (open_ name s).result = .ok (st,t)) : OffsetsInside t := by
  rcases open_cases hopen with ⟨-,rfl⟩ | ⟨-,i,k,hfind,hslot,rfl⟩
  · exact h
  · have hsize := hkeeps i hfind ⟨k,freeSlot_free hslot⟩
    exact h.setOpened _ (Or.inr ⟨i,(find_live hfind).1,toInt_fileIndex i,le_rfl,hsize⟩)

theorem keeps_of_open (htables : Tables s) (hall : ∀ st t, (open_ name s).result = .ok (st,t) → OffsetsBounded t) :
    KeepsOffsets s (.open_ name) := by
  rintro i hi ⟨k,hk⟩
  obtain ⟨l,hl⟩ := freeSlot_exists hk
  have hopen : (open_ name s).result = .ok (.FILE_OPEN_SUCCESS,{ s.setOpened l ⟨Int16.ofInt (i : ℕ),0⟩ with
      opened_file_count := s.opened_file_count + 1 }) := by
    rw [open_, if_neg htables.not_too_many, Option.mem_def.mp hi]
    simp only [proceed, hl, done_result]
  have hentry : Function.update s.open_file_fd_table l ⟨Int16.ofInt (i : ℕ),0⟩ l = ⟨Int16.ofInt (i : ℕ),0⟩ :=
    Function.update_self ..
  have hused : (Function.update s.open_file_fd_table l ⟨Int16.ofInt (i : ℕ),0⟩ l).idx ≠ NO_OPENED_FILE := by
    rw [hentry]
    exact fileIndex_ne i
  obtain ⟨j,ho⟩ := hall _ _ hopen l hused
  have hidx : (Function.update s.open_file_fd_table l ⟨Int16.ofInt (i : ℕ),0⟩ l).idx.toInt = j := ho.idx
  rw [hentry, toInt_fileIndex] at hidx
  obtain rfl : i = j := Fin.ext (by omega)
  exact ho.offset_nonneg.trans ho.offset_le

theorem close_keeps {st : FileCloseStatus} (h : OffsetsInside s) (hclose : (close name s).result = .ok (st,t)) :
    OffsetsInside t := by
  rcases close_cases hclose with rfl | ⟨k,-,-,rfl⟩
  · exact h
  · exact h.setOpened _ (Or.inl rfl)

theorem read_keeps {r : FileReadStatus × List Int8} (h : OffsetsInside s) (hkeeps : KeepsOffsets s (.read name size))
    (hread : (read name size s).result = .ok (r,t)) : OffsetsInside t := by
  rcases read_writing hread with rfl | ⟨w,hread⟩
  · exact h
  · obtain ⟨hi,ho⟩ := h.target w
    obtain ⟨hfollows,n,hn,rfl⟩ := readAt_advance ho.offset_nonneg ho.offset_le hread
    have hforward := hkeeps _ w.target hfollows
    have hle := ho.offset_le
    have hnonneg := ho.offset_nonneg
    dsimp only at hforward
    exact h.advance hi ho (by omega) (by omega)

theorem keeps_of_read (h : OffsetsInside s)
    (hall : ∀ r t, (read name size s).result = .ok (r,t) → OffsetsBounded t) : KeepsOffsets s (.read name size) := by
  intro r hr hfollows
  obtain ⟨w,rfl⟩ := exists_writing hr
  obtain ⟨-,ho⟩ := h.target w
  have hnonneg := ho.offset_nonneg
  by_contra hneg
  dsimp only at hneg hfollows
  obtain ⟨r,hback⟩ := @readAt_back s size w.k w.file ho.offset_le (by omega) hfollows
  rw [← w.read_eq] at hback
  exact not_bounded_advance ho (not_le.mp hneg) (hall r _ hback)

/-- A longer file keeps the offsets. -/
theorem OffsetsInside.grown (h : OffsetsInside s) (hsized : Sized s) (hi : Live s i)
    (hnonneg : 0 ≤ (s.fd_table i).size.toInt) (hlt : (s.fd_table i).size.toInt < new_size)
    (hgrow : (grow file_idx i new_size s).result = .ok (true,t)) : OffsetsInside t := by
  have hsame := sameEntries_grow hgrow
  obtain ⟨-,hsize,hothers⟩ := hsized.grown hi hnonneg hlt hgrow
  apply h.congr hsame.open_file_fd_table fun j => (hsame.live j).mpr
  intro l j ho
  have hle := ho.offset_le
  by_cases hji : j = i
  · subst hji
    omega
  · rwa [hothers j hji]

/-- A write that has run out of blocks sets the size of the file of that name, whose
offsets may then be behind its end. -/
theorem OffsetsInside.not_grown (h : OffsetsInside s) (hsized : Sized s) (hi : Live s i) (hslot : (k : ℤ) = file_idx)
    (hgrow : (grow file_idx i new_size s).result = .ok (false,t))
    (hall : ∀ l, (s.open_file_fd_table l).idx.toInt = (k : ℕ) →
      (s.open_file_fd_table l).offset.toInt ≤ ((s.fd_table i).starting_block.toInt + 1) * BLOCK_SIZE) :
    OffsetsInside t := by
  have hsame := sameEntries_grow hgrow
  obtain ⟨-,hsize,hothers⟩ := hsized.not_grown hi hgrow
  apply h.congr hsame.open_file_fd_table fun j => (hsame.live j).mpr
  intro l j ho
  by_cases hjf : j = file_idx
  · subst hjf
    rw [hsize]
    exact hall l (ho.idx.trans hslot.symm)
  · rw [hothers j hjf]
    exact ho.offset_le

theorem OffsetsBounded.not_grown (hin : OffsetsBounded t) (hsized : Sized s) (hi : Live s i)
    (hslot : (k : ℤ) = file_idx) (hgrow : (grow file_idx i new_size s).result = .ok (false,t))
    {l : Fin NUM_OPENED_FILES} (hidx : (s.open_file_fd_table l).idx.toInt = (k : ℕ)) :
    (s.open_file_fd_table l).offset.toInt ≤ ((s.fd_table i).starting_block.toInt + 1) * BLOCK_SIZE := by
  have hsame := sameEntries_grow hgrow
  obtain ⟨-,hsize,-⟩ := hsized.not_grown hi hgrow
  rw [← hsame.open_file_fd_table] at hidx ⊢
  have hfile : (t.open_file_fd_table l).idx.toInt = file_idx := hidx.trans hslot
  obtain ⟨j,ho⟩ := hin l (used_of_idx hfile)
  obtain rfl : file_idx = j := Fin.ext (by have hj := ho.idx; omega)
  rw [← hsize]
  exact ho.offset_le

theorem write_keeps {st : FileWriteStatus} (h : OffsetsInside s) (hsized : Sized s)
    (hkeeps : KeepsOffsets s (.write name buffer size)) (hwrite : (write name buffer size s).result = .ok (st,s')) :
    OffsetsInside s' := by
  rcases write_cases hwrite with ⟨-,rfl⟩ | ⟨w,t,⟨ht,hat⟩ | ⟨hgrows,-,hgrow⟩⟩
  · exact h
  · obtain ⟨hi,ho⟩ := h.target w
    have hnonneg := ho.offset_nonneg
    have hle := ho.offset_le
    rcases ht with ⟨hshort,rfl⟩ | ⟨hgrows,hgrow⟩
    · rcases writeAt_cases hat with ⟨-,rfl⟩ | ⟨rfl,-,memory,rfl⟩
      · exact h
      · have hfollows := writeAt_follows (hsized.start_ne hi) hat
        exact h.written hi ho memory ((hkeeps _ w.target).1 hfollows) hshort
    · have hsame := sameEntries_grow hgrow
      obtain ⟨-,hsize,-⟩ := hsized.grown hi (hnonneg.trans hle) hgrows hgrow
      have hin := h.grown hsized hi (hnonneg.trans hle) hgrows hgrow
      rcases writeAt_cases hat with ⟨-,rfl⟩ | ⟨-,-,memory,rfl⟩
      · exact hin
      · have hoffset : (t.open_file_fd_table w.k).offset = (s.open_file_fd_table w.k).offset := by
          rw [hsame.open_file_fd_table]
        have hnew : (t.open_file_fd_table w.k).offset.toInt + size.toInt = w.new_size size := by
          rw [hoffset]
          rfl
        have hopened : Opened t w.k w.fd_index :=
          ho.kept (congrFun hsame.open_file_fd_table w.k) (hgrows.le.trans hsize.ge)
        have hforward := (hnonneg.trans hle).trans hgrows.le
        exact hin.written ((hsame.live _).mpr hi) hopened memory (hforward.trans hnew.ge) (hnew.le.trans hsize.ge)
  · exact h.not_grown hsized (h.target w).1 w.slot_eq hgrow ((hkeeps _ w.target).2 hgrows (runsOut_of_fails hgrow))

theorem keeps_of_write (h : OffsetsInside s) (hsized : Sized s)
    (hall : ∀ st t, (write name buffer size s).result = .ok (st,t) → OffsetsBounded t) :
    KeepsOffsets s (.write name buffer size) := by
  intro r hr
  obtain ⟨w,rfl⟩ := exists_writing hr
  obtain ⟨hi,ho⟩ := h.target w
  have hnonneg := ho.offset_nonneg
  have hle := ho.offset_le
  constructor
  · intro hfollows
    by_contra hneg
    dsimp only at hneg hfollows
    have hshort : ¬ w.file.size.toInt < w.new_size size := by
      unfold Writing.file Writing.new_size
      omega
    have hback : (writeAt w.k w.file.starting_block buffer size s).result =
        .ok (.FILE_WRITE_SUCCESS,s.advance w.k size) := writeAt_back (hsized.start_ne hi) (by omega) hfollows
    have hwrite : (write name buffer size s).result = .ok (.FILE_WRITE_SUCCESS,s.advance w.k size) := by
      rw [w.write_eq, if_neg hshort]
      exact hback
    exact not_bounded_advance ho (not_le.mp hneg) (hall _ _ hwrite)
  · intro hgrows hruns l
    have hgrows' : w.file.size.toInt < w.new_size size := hgrows
    obtain ⟨b,hb⟩ := hsized.starts _ hi
    obtain ⟨t,hgrow⟩ := @RunsOut.fails s _ w.file_idx _ hruns b hb
    have hwrite : (write name buffer size s).result = .ok (.FILE_WRITE_NO_SPACE,t) := by
      rw [w.write_eq, if_pos hgrows']
      exact andThen_ok.mpr ⟨false,t,hgrow,rfl⟩
    exact (hall _ _ hwrite).not_grown hsized hi w.slot_eq hgrow

theorem perform_keeps {call : Call} {r : Reply} (h : OffsetsInside s) (hsized : Sized s)
    (hcall : ∀ name, call ≠ .delete_ name) (hkeeps : KeepsOffsets s call)
    (hr : (perform past call s).result = .ok (r,t)) : OffsetsInside t := by
  cases call with
  | create name size =>
    obtain ⟨st,hcreate,rfl⟩ := map_ok.mp hr
    rcases create_cases hcreate with ⟨-,rfl⟩ | ⟨-,⟨c⟩⟩
    · exact h
    · exact c.inside h
  | open_ name =>
    obtain ⟨st,hopen,rfl⟩ := map_ok.mp hr
    exact open_keeps h hkeeps hopen
  | close name =>
    obtain ⟨st,hclose,rfl⟩ := map_ok.mp hr
    exact close_keeps h hclose
  | read name size =>
    obtain ⟨st,hread,rfl⟩ := map_ok.mp hr
    exact read_keeps h hkeeps hread
  | write name buffer size =>
    obtain ⟨st,hwrite,rfl⟩ := map_ok.mp hr
    exact write_keeps h hsized hkeeps hwrite
  | delete_ name => exact absurd rfl (hcall name)

theorem keeps_of_perform {call : Call} (htables : Tables s) (h : OffsetsInside s) (hsized : Sized s)
    (hall : ∀ r t, (perform past call s).result = .ok (r,t) → OffsetsBounded t) : KeepsOffsets s call := by
  cases call with
  | open_ name =>
    apply keeps_of_open htables
    intro st t hopen
    exact hall _ t (map_ok.mpr ⟨st,hopen,rfl⟩)
  | read name size =>
    apply keeps_of_read h
    intro r t hread
    exact hall _ t (map_ok.mpr ⟨r,hread,rfl⟩)
  | write name buffer size =>
    apply keeps_of_write h hsized
    intro st t hwrite
    exact hall _ t (map_ok.mpr ⟨st,hwrite,rfl⟩)
  | create name size => trivial
  | close name => trivial
  | delete_ name => trivial

/-- In every run without deletions, the offsets of the entries in use stay inside their
files exactly if every call meets this condition. -/
theorem offsets_inside_iff (past : Option FileDescriptor) (flag : Bool) {calls : List Call}
    (hcalls : ∀ call ∈ calls, ∀ name, call ≠ .delete_ name) :
    (∀ done, done <+: calls → ∀ t, run (step past) (emptyFileSystem flag) done = some t → OffsetsBounded t) ↔
      Meets (step past) KeepsOffsets (emptyFileSystem flag) calls := by
  have hempty : OffsetsInside (emptyFileSystem flag) := fun _ => Or.inl rfl
  have hkeeps : ∀ s call, Tables s ∧ Sized s ∧ OffsetsInside s →
      (∀ t, step past s call = some t → OffsetsBounded t) → KeepsOffsets s call := by
    rintro s call ⟨htables,hsized,h⟩ hall
    apply keeps_of_perform htables h hsized
    intro r t hr
    exact hall t (step_iff.mpr ⟨r,hr⟩)
  rw [← meets_reached_iff hempty.bounded]
  apply meets_congr_of_mem (P := fun s => Tables s ∧ Sized s ∧ OffsetsInside s) _ _ hcalls
    ⟨tables_empty flag,sized_empty flag,hempty⟩
  · rintro s call t hs hcall hall hstep
    obtain ⟨r,hr⟩ := step_ok hstep
    exact ⟨hs.1.step hstep,hs.2.1.perform hs.2.2 hcall hr,perform_keeps hs.2.2 hs.2.1 hcall (hkeeps s call hs hall) hr⟩
  · intro s call hs hcall
    constructor
    · exact hkeeps s call hs
    · intro hcond t hstep
      obtain ⟨r,hr⟩ := step_ok hstep
      exact (perform_keeps hs.2.2 hs.2.1 hcall hcond hr).bounded

/-- A negative size that takes the offset back to the start of the file. -/
theorem read_back_inside : ∃ s, run (step none) (emptyFileSystem false) [.create ['a'] 40,.open_ ['a'],
    .read ['a'] 40,.write ['a'] (fun _ => 7) 30,.read ['a'] (-70)] = some s ∧ OffsetsBounded s := by
  have hruns : (run (step none) (emptyFileSystem false) [.create ['a'] 40,.open_ ['a'],.read ['a'] 40,
      .write ['a'] (fun _ => 7) 30,.read ['a'] (-70)]).isSome = true := by decide +kernel
  obtain ⟨s,hrun⟩ := Option.isSome_iff_exists.mp hruns
  exact ⟨s,hrun,(offsets_inside_iff none false (by simp)).mpr (by decide +kernel) _ List.prefix_rfl s hrun⟩

/-- The size that a write sets when it has run out of blocks is less than the offset;
and a negative size takes the offset back to before the start. -/
theorem offset_outside :
    (∃ s, run (step none) (emptyFileSystem false) [.create ['a'] 64,.open_ ['a'],.read ['a'] 64,.create ['b'] 1984,
      .write ['a'] (fun _ => 7) 10] = some s ∧ ¬ OffsetsBounded s) ∧
    ∃ s, run (step none) (emptyFileSystem false) [.create ['a'] 10,.open_ ['a'],.read ['a'] (-1)] = some s ∧
      ¬ OffsetsBounded s := by
  have hbehind : ((run (step none) (emptyFileSystem false) [.create ['a'] 64,.open_ ['a'],.read ['a'] 64,
      .create ['b'] 1984,.write ['a'] (fun _ => 7) 10]).any fun s => (s.open_file_fd_table 0).idx.toInt = 0 &&
        (s.open_file_fd_table 0).offset = 64 && (s.fd_table 0).size = 32) = true := by decide +kernel
  have hbefore : ((run (step none) (emptyFileSystem false) [.create ['a'] 10,.open_ ['a'],.read ['a'] (-1)]).any
      fun s => (s.open_file_fd_table 0).idx.toInt = 0 && (s.open_file_fd_table 0).offset = -1) = true := by
    decide +kernel
  constructor
  · obtain ⟨s,hrun,hs⟩ := (Option.any_eq_true _ _).mp hbehind
    simp only [Bool.and_eq_true, decide_eq_true_eq] at hs
    obtain ⟨⟨hidx,hoffset⟩,hsize⟩ := hs
    refine ⟨s,hrun,not_bounded_of_idx (i := 0) hidx ?_⟩
    rw [hoffset, hsize]
    decide
  · obtain ⟨s,hrun,hs⟩ := (Option.any_eq_true _ _).mp hbefore
    simp only [Bool.and_eq_true, decide_eq_true_eq] at hs
    refine ⟨s,hrun,not_bounded_of_idx (i := 0) hs.1 ?_⟩
    rw [hs.2]
    exact fun hin => absurd hin.1 (by decide)

end SOI.FileSystem
