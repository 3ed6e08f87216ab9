import SOI.FileSystem.Addressing
import SOI.FileSystem.NoSpace

/-! # Writing as an update of the contents

For a file that is open in the entry with its own number, `write` extends the chain,
seeks and copies as one update of the bytes of the file.
-/
namespace SOI.FileSystem
open Linked Runs Splice Texts
variable {s s' t : State} {chain : Fin NUM_FILES → List Block} {i : Fin NUM_FILES} {k : Fin NUM_OPENED_FILES} {name : Text}
  {buffer : ℕ → Int8} {size : Int16}

def blocksToAdd (s : State) (i : Fin NUM_FILES) (new_size : ℤ) : ℤ :=
  blocksFor (max (s.fd_table i).size.toInt new_size) - blocksFor (s.fd_table i).size.toInt

theorem blocksToAdd_of_le {new_size : ℤ} (hle : new_size ≤ (s.fd_table i).size.toInt) : blocksToAdd s i new_size = 0 := by
  rw [blocksToAdd, max_eq_left hle, sub_self]

theorem blocksToAdd_of_lt {new_size : ℤ} (hnonneg : 0 ≤ (s.fd_table i).size.toInt)
    (hlt : (s.fd_table i).size.toInt < new_size) : blocksToAdd s i new_size = additionalBlocks s i new_size := by
  rw [blocksToAdd, additionalBlocks, max_eq_right hlt.le, blocksFor_eq hnonneg, blocksFor_eq (by omega)]
  omega

/-- The bytes of the file have been replaced from the offset on; its chain has these
blocks more. -/
structure Updated (s s' : State) (i : Fin NUM_FILES) (k : Fin NUM_OPENED_FILES) (chain : Fin NUM_FILES → List Block)
    (buffer : ℕ → Int8) (size : Int16) (ys : List Block) : Prop where
  written : HasWritten s s' i k buffer size
  others : LeavesOthers s s' i k
  free : ∀ b ∈ ys, s.fat b = FREE_BLOCK
  chains : WellChained s' (Function.update chain i (chain i ++ ys))

theorem LongEnough.updated (h : WellChained s chain) (hi : Live s i)
    (hshort : (s.fd_table i).size.toInt ≤ BLOCK_SIZE * (chain i).length) (ho : Opened s k i) (hpos : 0 < size.toInt)
    {ys : List Block} (g : LongEnough s t i chain ys ((s.open_file_fd_table k).offset.toInt + size.toInt))
    (hfree : ∀ b ∈ ys, s.fat b = FREE_BLOCK) :
    ∃ s', (writeAt k (s.fd_table i).starting_block buffer size t).result = .ok (.FILE_WRITE_SUCCESS,s') ∧
      Updated s s' i k chain buffer size ys := by
  have hin : (s.open_file_fd_table k).offset.toInt < BLOCK_SIZE * (chain i ++ ys).length := by
    have hsize := g.size
    have hroom := g.room
    omega
  obtain ⟨memory,s',rfl,hwrite,hwritten,hothers⟩ := @LongEnough.write s t chain ys i k buffer size h hi hshort ho hpos.le g hin
  exact ⟨_,hwrite,hwritten,hothers,hfree,g.chains.seg,g.chains.nonempty,g.chains.apart⟩

/-- Where the chain is long enough for the file, its entry has its number, and the flag
for a crash does not matter, `write` runs out of space exactly if there are fewer free
blocks than it needs, and otherwise updates the bytes from the offset on. -/
theorem write_updates (h : WellChained s chain) (m : Matched s name i k)
    (hroom : blocksFor (s.fd_table i).size.toInt ≤ (chain i).length)
    (hoffset : 0 ≤ (s.open_file_fd_table k).offset.toInt ∧
      (s.open_file_fd_table k).offset.toInt ≤ (s.fd_table i).size.toInt) (hpos : 0 < size.toInt)
    (hmal : ¬ Malfunctions s i ((s.open_file_fd_table k).offset.toInt + size.toInt)) :
    ((∃ s', (write name buffer size s).result = .ok (.FILE_WRITE_NO_SPACE,s')) ↔
      countFreeBlocks s.fat < blocksToAdd s i ((s.open_file_fd_table k).offset.toInt + size.toInt)) ∧
    (blocksToAdd s i ((s.open_file_fd_table k).offset.toInt + size.toInt) ≤ countFreeBlocks s.fat →
      ∃ s' ys, (write name buffer size s).result = .ok (.FILE_WRITE_SUCCESS,s') ∧
        (ys.length : ℤ) = blocksToAdd s i ((s.open_file_fd_table k).offset.toInt + size.toInt) ∧
        Updated s s' i k chain buffer size ys) := by
  have hi : Live s i := (find_live m.found).1
  have ho : Opened s k i := ⟨m.holds,hoffset.1,hoffset.2⟩
  have hnonneg : 0 ≤ (s.fd_table i).size.toInt := hoffset.1.trans hoffset.2
  have hshort := (blocksFor_le_iff hnonneg).mp hroom
  have hsucceeds : ∀ {t}, (write name buffer size s).result = .ok (.FILE_WRITE_SUCCESS,t) →
      ¬ ∃ u, (write name buffer size s).result = .ok (.FILE_WRITE_NO_SPACE,u) := by
    rintro t ht ⟨u,hu⟩
    rw [ht] at hu
    cases hu
  by_cases hgrows : (s.fd_table i).size.toInt < (s.open_file_fd_table k).offset.toInt + size.toInt
  · have hblocks := blocksToAdd_of_lt hnonneg hgrows
    obtain ⟨enough,t,hgrow⟩ := @grow_returns_unless s i i _ _ (h.seg i hi) (h.nonempty i hi) hmal
    have hwrite : write name buffer size s = (grow i i ((s.open_file_fd_table k).offset.toInt + size.toInt) s).andThen
        fun enough t => if enough then writeAt k (s.fd_table i).starting_block buffer size t
          else done .FILE_WRITE_NO_SPACE t := by
      rw [m.writing.write_eq]
      exact if_pos hgrows
    cases enough with
    | false =>
      have hless := (grow_fails (h.seg i hi) (h.nonempty i hi) hgrow).1
      have hno : (write name buffer size s).result = .ok (.FILE_WRITE_NO_SPACE,t) := by
        rw [hwrite]
        exact andThen_ok.mpr ⟨false,t,hgrow,rfl⟩
      exact ⟨iff_of_true ⟨t,hno⟩ (by omega),fun hle => absurd hless (by omega)⟩
    | true =>
      have henough := grow_room (h.seg i hi) (h.nonempty i hi) hgrow
      obtain ⟨ys,hlen,hfree,hchains,-⟩ := h.grow hi hgrow
      have g := longEnough_of_grow h hi hnonneg hshort hgrows hgrow hlen hchains
      obtain ⟨s',hcopied,hupdated⟩ := @LongEnough.updated s t chain i k buffer size h hi hshort ho hpos ys g hfree
      have hsuccess : (write name buffer size s).result = .ok (.FILE_WRITE_SUCCESS,s') := by
        rw [hwrite]
        exact andThen_ok.mpr ⟨true,t,hgrow,hcopied⟩
      exact ⟨iff_of_false (hsucceeds hsuccess) (by omega),fun _ => ⟨s',ys,hsuccess,by omega,hupdated⟩⟩
  · have hblocks := blocksToAdd_of_le (not_lt.mp hgrows)
    have g := longEnough_of_le h hshort (not_lt.mp hgrows)
    obtain ⟨s',hcopied,hupdated⟩ := @LongEnough.updated s s chain i k buffer size h hi hshort ho hpos [] g (by simp)
    have hsuccess : (write name buffer size s).result = .ok (.FILE_WRITE_SUCCESS,s') := by
      rw [m.writing.write_eq]
      exact (congrArg Outcome.result (if_neg hgrows)).trans hcopied
    exact ⟨iff_of_false (hsucceeds hsuccess) (by omega),fun _ => ⟨s',[],hsuccess,by simp [hblocks],hupdated⟩⟩

theorem second_block_updated : ∃ s s' chain ys, run (step none) (emptyFileSystem false)
    [.create ['a'] 40,.create ['b'] 0,.open_ ['a'],.read ['a'] 32] = some s ∧
      (write ['a'] (fun _ => 7) 40 s).result = .ok (.FILE_WRITE_SUCCESS,s') ∧ ys.length = 1 ∧
      Updated s s' 0 0 chain (fun _ => 7) 40 ys := by
  have hruns : ((run (step none) (emptyFileSystem false)
      [.create ['a'] 40,.create ['b'] 0,.open_ ['a'],.read ['a'] 32]).any fun s =>
        findFileIndexByName s ['a'] = some 0 && s.open_file_fd_table 0 = ⟨0,32⟩ && (s.fd_table 0).size = 40 &&
          !s.malfunction_flag && 0 < countFreeBlocks s.fat) = true := by decide +kernel
  obtain ⟨s,hrun,hs⟩ := (Option.any_eq_true _ _).mp hruns
  simp only [Bool.and_eq_true, decide_eq_true_eq, Bool.not_eq_true'] at hs
  obtain ⟨⟨⟨⟨hfound,hopened⟩,hsize⟩,hflag⟩,hfree⟩ := hs
  obtain ⟨chain,h⟩ := consistent_run (by decide +kernel) hrun
  have hidx : (s.open_file_fd_table 0).idx.toInt = 0 := by rw [hopened]; rfl
  have hoffset : (s.open_file_fd_table 0).offset.toInt = 32 := by rw [hopened]; rfl
  have hforty : (s.fd_table 0).size.toInt = 40 := by rw [hsize]; rfl
  have hnew : (s.open_file_fd_table 0).offset.toInt + (40 : Int16).toInt = 72 := by rw [hoffset]; rfl
  have m : Matched s ['a'] 0 0 := ⟨hfound,rfl,hidx⟩
  have hblocks : blocksToAdd s 0 72 = 1 := by
    rw [blocksToAdd, hforty]
    decide
  have hlive : Live s 0 := (find_live hfound).1
  have hroom := (blocksFor_le_iff (h.size_nonneg 0 hlive)).mpr (h.room 0 hlive)
  have hmal : ¬ Malfunctions s 0 ((s.open_file_fd_table 0).offset.toInt + (40 : Int16).toInt) := by
    rintro ⟨hset,-⟩
    rw [hflag] at hset
    cases hset
  have hupdates := (@write_updates s chain 0 0 ['a'] (fun _ => 7) 40 h.chained.wellChained m hroom
    ⟨by omega,by omega⟩ (by decide) hmal).2
  rw [hnew, hblocks] at hupdates
  obtain ⟨s',ys,hwrite,hlen,hupdated⟩ := hupdates (by omega)
  exact ⟨s,s',chain,ys,hrun,hwrite,by omega,hupdated⟩

theorem Writing.terminates (w : Writing name s) (h : WellChained s chain) (hlive : Live s w.fd_index)
    (hgrows : w.file.size.toInt < w.new_size size) (hmal : Malfunctions s w.fd_index (w.new_size size)) :
    (write name buffer size s).result = .error .terminated := by
  have hgrow := @grow_terminates s w.file_idx w.fd_index _ _ (h.seg _ hlive) (h.nonempty _ hlive) hmal
  rw [w.write_eq, if_pos hgrows, Outcome.andThen, hgrow]

/-- With the flag for a crash set, a write that needs one of many free blocks does not
return. -/
theorem malfunction_not_updated : ∃ s chain, WellChained s chain ∧ Matched s ['a'] 0 0 ∧
    blocksFor (s.fd_table 0).size.toInt ≤ (chain 0).length ∧ (s.open_file_fd_table 0).offset.toInt = 0 ∧
    (s.fd_table 0).size.toInt = 0 ∧ blocksToAdd s 0 40 ≤ countFreeBlocks s.fat ∧
    ∀ r, (write ['a'] (fun _ => 7) 40 s).result ≠ .ok r := by
  have hruns : ((run (step none) (emptyFileSystem false) [.create ['a'] 0,.open_ ['a']]).any fun s =>
      findFileIndexByName s ['a'] = some 0 && s.open_file_fd_table 0 = ⟨0,0⟩ && (s.fd_table 0).size = 0 &&
        Live s 0 && 2 ≤ countFreeBlocks s.fat) = true := by decide +kernel
  obtain ⟨s,hrun,hs⟩ := (Option.any_eq_true _ _).mp hruns
  simp only [Bool.and_eq_true, decide_eq_true_eq] at hs
  obtain ⟨⟨⟨⟨hfound,hopened⟩,hsize⟩,hlive⟩,hfree⟩ := hs
  obtain ⟨chain,h⟩ := chained_run (by decide +kernel) hrun
  let t : State := { s with malfunction_flag := true }
  have hchains : WellChained t chain := ⟨h.seg,h.nonempty,h.apart⟩
  have hidx : (t.open_file_fd_table 0).idx.toInt = 0 := congrArg (fun file => file.idx.toInt) hopened
  have hoffset : (t.open_file_fd_table 0).offset.toInt = 0 := congrArg (fun file => file.offset.toInt) hopened
  have hzero : (t.fd_table 0).size.toInt = 0 := congrArg Int16.toInt hsize
  have m : Matched t ['a'] 0 0 := ⟨hfound,rfl,hidx⟩
  have hblocks : blocksFor 40 - blocksFor 0 = 2 := by decide
  have hnew : m.writing.new_size 40 = 40 := by
    show (t.open_file_fd_table 0).offset.toInt + (40 : Int16).toInt = 40
    rw [hoffset]
    rfl
  have hmal : Malfunctions t m.writing.fd_index (m.writing.new_size 40) := by
    refine ⟨rfl,?_,?_⟩
    · show 0 < (blocksFor (m.writing.new_size 40) - blocksFor (t.fd_table 0).size.toInt).toNat
      rw [hnew, hzero, hblocks]
      decide
    · show 0 < countFreeBlocks s.fat
      omega
  have hgrows : m.writing.file.size.toInt < m.writing.new_size 40 := by
    rw [hnew]
    show (t.fd_table 0).size.toInt < 40
    omega
  refine ⟨t,chain,hchains,m,?_,hoffset,hzero,?_,fun r hr => ?_⟩
  · rw [hzero]
    exact Int.natCast_nonneg _
  · rw [blocksToAdd, hzero, show max (0 : ℤ) 40 = 40 from rfl, hblocks]
    show (2 : ℤ) ≤ countFreeBlocks s.fat
    omega
  · rw [m.writing.terminates hchains hlive hgrows hmal] at hr
    cases hr

end SOI.FileSystem
