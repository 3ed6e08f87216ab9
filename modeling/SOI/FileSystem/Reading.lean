import SOI.FileSystem.Addressing

/-! # Reading returns the bytes of the file

The copying loop of `read` may leave at the end of the chain and still report a
success. Where the chain has as many blocks as the size asks for, it never does.
-/
namespace SOI.FileSystem
open Runs Texts
variable {s : State} {xs : List Block} {i : Fin NUM_FILES} {k : Fin NUM_OPENED_FILES} {name : Text} {size p : Int16}
  {file : FileDescriptor} {o : ℤ} {n fuel : ℕ} {bytes : List Int8}

/-- The copying loop of `read` leaves by the test for the end of the chain. -/
def leavesAtEnd (s : State) : ℕ → Int16 → ℤ → ℕ → Bool
  | _, _, _, 0 => false
  | 0, _, _, _ + 1 => false
  | fuel + 1, block_idx, block_offset, bytes_to_read =>
    let left := bytes_to_read - bytesInBlock block_offset bytes_to_read
    left ≠ 0 && (index NUM_BLOCKS block_idx.toInt).toOption.any fun b =>
      s.fat b = END_OF_CHAIN || leavesAtEnd s fuel (s.fat b) 0 left

def breaksAt (k : Fin NUM_OPENED_FILES) (file : FileDescriptor) (size : Int16) (s : State) : Bool :=
  let offset := (s.open_file_fd_table k).offset.toInt
  offset ≤ file.size.toInt &&
    let size := if file.size.toInt < offset + size.toInt then Int16.ofInt (file.size.toInt - offset) else size
    (seek s.fat (blocksBefore offset) file.starting_block).toOption.any fun block_idx =>
      leavesAtEnd s size.toInt.toNat block_idx (offsetInBlock offset) size.toInt.toNat

theorem leavesAtEnd_succ (s : State) (fuel : ℕ) (p : Int16) (o : ℤ) (n : ℕ) : leavesAtEnd s (fuel + 1) p o (n + 1) =
    (n + 1 - bytesInBlock o (n + 1) ≠ 0 && (index NUM_BLOCKS p.toInt).toOption.any fun b =>
      s.fat b = END_OF_CHAIN || leavesAtEnd s fuel (s.fat b) 0 (n + 1 - bytesInBlock o (n + 1))) := rfl

theorem length_copyOut {memory : Fin MEMORY_SIZE → Int8} (h : copyOut memory o n = .ok bytes) : bytes.length = n := by
  unfold copyOut at h
  split_ifs at h
  cases h
  exact List.length_ofFn

theorem bytesInBlock_le : bytesInBlock o n ≤ n := Nat.min_le_right _ _

/-- Leaving there is the only way to read less than asked for. -/
theorem leavesAtEnd_iff (h : readLoop s fuel p o n = .ok bytes) : leavesAtEnd s fuel p o n = true ↔ bytes.length < n := by
  induction fuel generalizing p o n bytes with
  | zero =>
    cases n with
    | zero => simp [leavesAtEnd]
    | succ n => cases h
  | succ fuel ih =>
    cases n with
    | zero => simp [leavesAtEnd]
    | succ n =>
      have hle : bytesInBlock o (n + 1) ≤ n + 1 := bytesInBlock_le
      rw [readLoop_succ] at h
      obtain ⟨copied,hcopied,h⟩ := bind_ok.mp h
      have hlength := length_copyOut hcopied
      rw [leavesAtEnd_succ]
      split_ifs at h with hleft
      · cases h
        simp only [hleft, ne_eq, not_true_eq_false, decide_false, Bool.false_and, Bool.false_eq_true, false_iff]
        omega
      · obtain ⟨b,hb,h⟩ := bind_ok.mp h
        simp only [ne_eq, hleft, not_false_eq_true, decide_true, Bool.true_and, hb, Except.toOption, Option.any_some]
        split_ifs at h with hend
        · cases h
          simp only [hend, decide_true, Bool.true_or, true_iff]
          omega
        · obtain ⟨rest,hrest,rfl⟩ := map_eq_ok.mp h
          simp only [hend, decide_false, Bool.false_or, ih hrest, List.length_append]
          omega

theorem not_breaksAt {n : Int16} {t : State} (hread : readAt k file size s = done (.FILE_READ_SUCCESS,bytes) t)
    (hn : (if file.size.toInt < (s.open_file_fd_table k).offset.toInt + size.toInt
      then Int16.ofInt (file.size.toInt - (s.open_file_fd_table k).offset.toInt) else size) = n)
    (hlength : n.toInt.toNat ≤ bytes.length) : breaksAt k file size s = false := by
  have hresult : (readAt k file size s).result = .ok ((.FILE_READ_SUCCESS,bytes),t) := congrArg Outcome.result hread
  rw [Bool.eq_false_iff]
  intro hbreaks
  unfold breaksAt at hbreaks
  unfold readAt at hresult
  dsimp only at hbreaks hresult
  rw [hn] at hbreaks hresult
  rw [Bool.and_eq_true, decide_eq_true_eq] at hbreaks
  obtain ⟨hle,hleaves⟩ := hbreaks
  rw [if_neg (not_lt.mpr hle)] at hresult
  obtain ⟨block_idx,hseek,hresult⟩ := proceed_ok.mp hresult
  obtain ⟨read,hloop,hresult⟩ := proceed_ok.mp hresult
  cases hresult
  rw [hseek] at hleaves
  have hshort := (leavesAtEnd_iff hloop).mp hleaves
  omega

/-- With enough blocks in the chain, an offset inside the file, and the entry with the
number of the descriptor, `read` returns the bytes from the offset on, as many as it
was asked for or as there are, and moves the offset by as many. -/
theorem read_returns_contents (h : Chain s.fat (s.fd_table i).starting_block xs)
    (hroom : blocksFor (s.fd_table i).size.toInt ≤ xs.length) (m : Matched s name i k)
    (hoffset : 0 ≤ (s.open_file_fd_table k).offset.toInt ∧
      (s.open_file_fd_table k).offset.toInt ≤ (s.fd_table i).size.toInt) (hsize : 0 ≤ size.toInt) :
    ∃ (n : Int16) (bytes : List Int8), read name size s = done (.FILE_READ_SUCCESS,bytes) (s.advance k n) ∧
      n.toInt = min size.toInt ((s.fd_table i).size.toInt - (s.open_file_fd_table k).offset.toInt) ∧
      (bytes.length : ℤ) = n.toInt ∧
      bytes = ((contents s i).drop (s.open_file_fd_table k).offset.toInt.toNat).take n.toInt.toNat ∧
      ((s.advance k n).open_file_fd_table k).offset.toInt = (s.open_file_fd_table k).offset.toInt + n.toInt ∧
      breaksAt k (s.fd_table i) size s = false := by
  obtain ⟨hnonneg,hle⟩ := hoffset
  have hmax := (s.fd_table i).size.toInt_lt
  have hlong := (blocksFor_le_iff (hnonneg.trans hle)).mp hroom
  have hbytes : (bytesOf s.memory xs).length = 32 * xs.length := length_bytesOf
  have hlong' : (s.fd_table i).size.toInt ≤ 32 * xs.length := hlong
  obtain ⟨n,hn,hread⟩ := @readAt_chain s xs k (s.fd_table i) size (s.open_file_fd_table k).offset.toInt.toNat h
    (by omega) (by omega) hlong
  obtain ⟨n',hn',hadjusted⟩ := @readSize_eq (s.fd_table i) size _ hnonneg hle
  obtain rfl : n' = n := by
    rw [← Int16.toInt_inj]
    omega
  have hlength : (((bytesOf s.memory xs).drop (s.open_file_fd_table k).offset.toInt.toNat).take
      n'.toInt.toNat).length = n'.toInt.toNat := by
    rw [List.length_take, List.length_drop, hbytes]
    omega
  refine ⟨n',_,m.read_eq.trans hread,hn',?_,?_,?_,?_⟩
  · rw [hlength]
    omega
  · rw [contents_eq h, List.drop_take, List.take_take]
    congr 1
    omega
  · exact (movedOn_advance (by omega) (by omega)).offset
  · exact not_breaksAt hread hadjusted hlength.ge

theorem whole_blocks_read : ∃ s, run (step none) (emptyFileSystem false)
    [.create ['a'] 64,.open_ ['a'],.write ['a'] (fun _ => 7) 32] = some s ∧
      ∃ n bytes, read ['a'] 40 s = done (.FILE_READ_SUCCESS,bytes) (s.advance 0 n) ∧ (bytes.length : ℤ) = 32 ∧
        breaksAt 0 (s.fd_table 0) 40 s = false := by
  have hruns : ((run (step none) (emptyFileSystem false)
      [.create ['a'] 64,.open_ ['a'],.write ['a'] (fun _ => 7) 32]).any fun s =>
        findFileIndexByName s ['a'] = some 0 && s.open_file_fd_table 0 = ⟨0,32⟩ &&
          (s.fd_table 0).size = 64) = true := by decide +kernel
  obtain ⟨s,hrun,hs⟩ := (Option.any_eq_true _ _).mp hruns
  simp only [Bool.and_eq_true, decide_eq_true_eq] at hs
  obtain ⟨⟨hfound,hopened⟩,hsize⟩ := hs
  obtain ⟨chain,h⟩ := consistent_run (by decide +kernel) hrun
  have hidx : (s.open_file_fd_table 0).idx.toInt = 0 := by rw [hopened]; rfl
  have hoffset : (s.open_file_fd_table 0).offset.toInt = 32 := by rw [hopened]; rfl
  have hsixtyfour : (s.fd_table 0).size.toInt = 64 := by rw [hsize]; rfl
  have hlive : Live s 0 := (find_live hfound).1
  have m : Matched s ['a'] 0 0 := ⟨hfound,rfl,hidx⟩
  have hroom := (blocksFor_le_iff (h.size_nonneg 0 hlive)).mpr (h.room 0 hlive)
  obtain ⟨n,bytes,hread,hn,hlength,-,-,hbreaks⟩ := @read_returns_contents s (chain 0) 0 0 ['a'] 40
    (h.chained.seg 0 hlive) hroom m ⟨by omega,by omega⟩ (by decide)
  have hforty : (40 : Int16).toInt = 40 := rfl
  exact ⟨s,hrun,n,bytes,hread,by omega,hbreaks⟩

end SOI.FileSystem
