import SOI.FileSystem.OpenFiles

/-! # Accesses to the two tables

The entries of `open_file_fd_table` and `fd_table` that a call looks at or writes,
in order, up to the first access that the language leaves undefined. The loops use
the bound of one table for the other.
-/
namespace SOI.FileSystem
open Linked Runs Texts

inductive Access
  | open_file_fd_table (i : ℤ)
  | fd_table (i : ℤ)
  deriving DecidableEq, Repr

def Access.InBounds : Access → Prop
  | .open_file_fd_table i => 0 ≤ i ∧ i < NUM_OPENED_FILES
  | .fd_table i => 0 ≤ i ∧ i < NUM_FILES

instance : DecidablePred Access.InBounds
  | .open_file_fd_table _ => inferInstanceAs (Decidable (_ ∧ _))
  | .fd_table _ => inferInstanceAs (Decidable (_ ∧ _))

/-- A loop over an array of `n` entries with a bound of its own, here the first
argument plus the second. It ends at a hit, and the trace ends past the array. -/
def scan {n : ℕ} (past : ℕ → Access) (visit : Fin n → List Access) (hit : Fin n → Bool) : ℕ → ℕ → List Access
  | 0, _ => []
  | m + 1, i =>
    if h : i < n then visit ⟨i,h⟩ ++ if hit ⟨i,h⟩ then [] else scan past visit hit m (i + 1) else [past i]

def duplicateNameAccesses (s : State) (name : Text) : List Access :=
  scan (fun i => .fd_table i) (fun i : Fin NUM_FILES => [.fd_table i]) (fun i => (s.fd_table i).name = name) NUM_FILES 0

def findFileIndexByNameAccesses (s : State) (name : Text) : List Access :=
  scan (fun i => .fd_table i) (fun i : Fin NUM_FILES => [.fd_table i]) (fun i => (s.fd_table i).name = name)
    s.file_count.toInt.toNat 0

def openEntryAccesses (s : State) (k : Fin NUM_OPENED_FILES) : List Access :=
  let file := s.open_file_fd_table k
  .open_file_fd_table k ::
    if file.idx ≠ NO_OPENED_FILE ∧ 0 ≤ file.idx.toInt ∧ file.idx.toInt < s.file_count.toInt then
      [.open_file_fd_table k,.fd_table file.idx.toInt] else []

def findOpenFileIndexByNameAccesses (s : State) (name : Text) : List Access :=
  scan (fun i => .open_file_fd_table i) (openEntryAccesses s) (fun k => isOpenFor s name (s.open_file_fd_table k))
    NUM_FILES 0

def findOpenFileFreeSlotAccesses (s : State) : List Access :=
  scan (fun i => .open_file_fd_table i) (fun k : Fin NUM_OPENED_FILES => [.open_file_fd_table k])
    (fun k => (s.open_file_fd_table k).idx = NO_OPENED_FILE) NUM_FILES 0

def saveAccesses : List Access := (List.finRange NUM_FILES).map fun i : Fin NUM_FILES => .fd_table i

def createAccesses (name : Text) (size : Int16) (s : State) : List Access :=
  if NUM_FILES ≤ s.file_count.toInt then []
  else if MAX_NAME_SIZE < name.length ∨ name.length < MIN_NAME_SIZE then []
  else duplicateNameAccesses s name ++
    if duplicateName s name ∨ countFreeBlocks s.fat < blocksFor size.toInt then []
    else match firstFreeBlock s.fat with
      | none => []
      | some starting_block =>
        match markNewFile s.fat starting_block size (blocksFor size.toInt).toNat with
        | .error _ => []
        | .ok _ => .fd_table s.file_count.toInt :: saveAccesses

def openAccesses (name : Text) (s : State) : List Access :=
  if NUM_FILES ≤ s.opened_file_count.toInt then []
  else findFileIndexByNameAccesses s name ++
    match findFileIndexByName s name with
    | none => []
    | some _ => findOpenFileFreeSlotAccesses s ++
      match findOpenFileFreeSlot s with
      | .error _ => []
      | .ok free_slot => [.open_file_fd_table free_slot]

def closeAccesses (name : Text) (s : State) : List Access :=
  findOpenFileIndexByNameAccesses s name ++
    match findOpenFileIndexByName s name with
    | .error _ => []
    | .ok file_index => [.open_file_fd_table file_index,.open_file_fd_table file_index]

def entryAccesses (name : Text) (s : State) (rest : Fin NUM_FILES → Fin NUM_OPENED_FILES → List Access) : List Access :=
  findFileIndexByNameAccesses s name ++
    match findFileIndexByName s name with
    | none => []
    | some file_idx => .open_file_fd_table file_idx ::
      match index NUM_OPENED_FILES file_idx with
      | .error _ => []
      | .ok k =>
        if (s.open_file_fd_table k).idx = NO_OPENED_FILE then []
        else .open_file_fd_table file_idx :: .fd_table (s.open_file_fd_table k).idx.toInt ::
          .open_file_fd_table file_idx :: rest file_idx k

def readAccesses (name : Text) (size : Int16) (s : State) : List Access :=
  entryAccesses name s fun file_idx _ =>
    match (read name size s).result with
    | .ok ((.FILE_READ_SUCCESS,_),_) => [.open_file_fd_table file_idx]
    | _ => []

/-- The descriptor at each extension, and the one whose size a rollback sets. -/
def extendAccesses (fd_index : Fin NUM_FILES) : ℕ → State → List Access
  | 0, _ => []
  | n + 1, s =>
    match firstFreeBlock s.fat with
    | none =>
      if s.transaction_log.file_idx ≠ -1 ∧ s.transaction_log.last_valid_block ≠ -1 then
        [.fd_table s.transaction_log.file_idx.toInt] else []
    | some _ => .fd_table fd_index ::
      match (extend fd_index s).result with
      | .error _ => []
      | .ok (_,s) => extendAccesses fd_index n s

def growAccesses (file_idx fd_index : Fin NUM_FILES) (new_size : ℤ) (s : State) : List Access :=
  let file := s.fd_table fd_index
  extendAccesses fd_index (blocksFor new_size - blocksFor file.size.toInt).toNat
    { s with transaction_log := growLog s file_idx file new_size }

def writeAccesses (name : Text) (buffer : ℕ → Int8) (size : Int16) (s : State) : List Access :=
  entryAccesses name s fun file_idx k =>
    match index NUM_FILES (s.open_file_fd_table k).idx.toInt with
    | .error _ => []
    | .ok fd_index =>
      let new_size := (s.open_file_fd_table k).offset.toInt + size.toInt
      (if (s.fd_table fd_index).size.toInt < new_size then growAccesses file_idx fd_index new_size s else []) ++
        match (write name buffer size s).result with
        | .ok (.FILE_WRITE_SUCCESS,_) => .open_file_fd_table file_idx :: saveAccesses
        | _ => []

/-- Each descriptor is overwritten with the one behind it. -/
def shiftAccesses (s : State) : List Access :=
  (List.range s.file_count.toInt.toNat).flatMap fun i : ℕ => [.fd_table (i + 1),.fd_table i]

def closeOpenedAccesses (file_idx : Fin NUM_FILES) : ℕ → ℕ → OpenTable × Int16 → List Access
  | 0, _, _ => []
  | fuel + 1, i, (table,count) =>
    if (i : ℤ) < count.toInt then
      .open_file_fd_table i ::
        match index NUM_OPENED_FILES i with
        | .error _ => []
        | .ok k =>
          if (table k).idx.toInt = file_idx then
            .open_file_fd_table i ::
              closeOpenedAccesses file_idx fuel (i + 1) (Function.update table k ⟨NO_OPENED_FILE,0⟩,count - 1)
          else closeOpenedAccesses file_idx fuel (i + 1) (table,count)
    else []

def deleteAccesses (name : Text) (s : State) : List Access :=
  findFileIndexByNameAccesses s name ++
    match findFileIndexByName s name with
    | none => []
    | some file_idx => .fd_table file_idx ::
      match clearChain (fun b => b = END_OF_CHAIN) (NUM_BLOCKS + 2) s.fat (s.fd_table file_idx).starting_block with
      | .error _ => []
      | .ok _ => shiftAccesses s ++ .fd_table (s.file_count.toInt - 1) ::
        closeOpenedAccesses file_idx (NUM_OPENED_FILES + 1) 0 (s.open_file_fd_table,s.opened_file_count) ++ saveAccesses

def accesses (s : State) : Call → List Access
  | .create name size => createAccesses name size s
  | .open_ name => openAccesses name s
  | .close name => closeAccesses name s
  | .read name size => readAccesses name size s
  | .write name buffer size => writeAccesses name buffer size s
  | .delete_ name => deleteAccesses name s

/-- Every access of the call is inside its table. -/
def IndexSafe (s : State) (call : Call) : Prop := ∀ a ∈ accesses s call, a.InBounds

instance (s : State) (call : Call) : Decidable (IndexSafe s call) := inferInstanceAs (Decidable (∀ a ∈ _, _))

variable {past : Option FileDescriptor} {s s' : State} {table : OpenTable} {count : Int16} {name : Text} {size : Int16}
  {file_idx fd_index : Fin NUM_FILES}

/-- A search stays in its array when its bound does, or when it hits something. -/
theorem scan_inBounds {n : ℕ} {beyond : ℕ → Access} {visit : Fin n → List Access} {hit : Fin n → Bool}
    (hvisit : ∀ k, ∀ a ∈ visit k, a.InBounds) (hbeyond : ¬ (beyond n).InBounds) {m i : ℕ} (hi : i ≤ n) :
    (∀ a ∈ scan beyond visit hit m i, a.InBounds) ↔ m + i ≤ n ∨ ∃ k : Fin n, i ≤ k ∧ hit k = true := by
  induction m generalizing i with
  | zero => simp [scan, hi]
  | succ m ih =>
    unfold scan
    split_ifs with hlt hhit
    · rw [List.append_nil]
      exact ⟨fun _ => Or.inr ⟨⟨i,hlt⟩,le_rfl,hhit⟩,fun _ => hvisit _⟩
    · rw [List.forall_mem_append, and_iff_right (hvisit _), ih hlt, Nat.add_right_comm m 1 i, Nat.add_assoc m i 1]
      apply or_congr_right
      constructor
      · rintro ⟨k,hk,hkhit⟩
        exact ⟨k,by omega,hkhit⟩
      · rintro ⟨k,hk,hkhit⟩
        have hne : i ≠ k := by
          rintro rfl
          exact hhit hkhit
        exact ⟨k,by omega,hkhit⟩
    · obtain rfl : i = n := by omega
      rw [List.forall_mem_singleton, iff_false_left hbeyond]
      rintro (hle | ⟨k,hk,-⟩)
      · omega
      · exact absurd k.isLt (not_lt.mpr hk)

theorem fd_table_inBounds (i : Fin NUM_FILES) : (Access.fd_table i).InBounds := by
  have hlt := i.isLt
  constructor <;> omega

theorem open_file_inBounds (k : Fin NUM_OPENED_FILES) : (Access.open_file_fd_table k).InBounds := by
  have hlt := k.isLt
  constructor <;> omega

theorem beyond_opened : ¬ (Access.open_file_fd_table NUM_OPENED_FILES).InBounds := fun h => absurd h.2 (lt_irrefl _)

theorem beyond_files : ¬ (Access.fd_table NUM_FILES).InBounds := fun h => absurd h.2 (lt_irrefl _)

theorem duplicateName_inBounds : ∀ a ∈ duplicateNameAccesses s name, a.InBounds := by
  have hvisit : ∀ k : Fin NUM_FILES, ∀ a ∈ [Access.fd_table k], a.InBounds := by simpa using fd_table_inBounds
  exact (scan_inBounds hvisit beyond_files (Nat.zero_le _)).mpr (Or.inl le_rfl)

theorem findFile_inBounds (h : Tables s) : ∀ a ∈ findFileIndexByNameAccesses s name, a.InBounds := by
  have hvisit : ∀ k : Fin NUM_FILES, ∀ a ∈ [Access.fd_table k], a.InBounds := by simpa using fd_table_inBounds
  have hle := h.count_le
  exact (scan_inBounds hvisit beyond_files (Nat.zero_le _)).mpr (Or.inl (by omega))

theorem openEntry_inBounds (h : Tables s) (k : Fin NUM_OPENED_FILES) : ∀ a ∈ openEntryAccesses s k, a.InBounds := by
  have hle := h.count_le
  unfold openEntryAccesses
  dsimp only
  split_ifs with hlive
  · have hidx : (Access.fd_table (s.open_file_fd_table k).idx.toInt).InBounds := ⟨hlive.2.1,by omega⟩
    simpa [hidx] using open_file_inBounds k
  · simpa using open_file_inBounds k

theorem findOpen_inBounds (h : Tables s) : (∀ a ∈ findOpenFileIndexByNameAccesses s name, a.InBounds) ↔
    ∃ k, isOpenFor s name (s.open_file_fd_table k) = true := by
  have hbound : ¬ NUM_FILES + 0 ≤ NUM_OPENED_FILES := by decide
  rw [findOpenFileIndexByNameAccesses, scan_inBounds (openEntry_inBounds h) beyond_opened (Nat.zero_le _),
    or_iff_right hbound]
  simp only [Nat.zero_le, true_and]

theorem freeSlot_inBounds : (∀ a ∈ findOpenFileFreeSlotAccesses s, a.InBounds) ↔
    ∃ k, (s.open_file_fd_table k).idx = NO_OPENED_FILE := by
  have hbound : ¬ NUM_FILES + 0 ≤ NUM_OPENED_FILES := by decide
  have hvisit : ∀ k : Fin NUM_OPENED_FILES, ∀ a ∈ [Access.open_file_fd_table k], a.InBounds := by
    simpa using open_file_inBounds
  rw [findOpenFileFreeSlotAccesses, scan_inBounds hvisit beyond_opened (Nat.zero_le _), or_iff_right hbound]
  simp only [Nat.zero_le, true_and, decide_eq_true_eq]

theorem save_inBounds : ∀ a ∈ saveAccesses, a.InBounds := by
  intro a ha
  obtain ⟨i,-,rfl⟩ := List.mem_map.mp ha
  exact fd_table_inBounds i

theorem create_inBounds (h : Tables s) : ∀ a ∈ createAccesses name size s, a.InBounds := by
  have hnonneg := h.count_nonneg
  unfold createAccesses
  split_ifs with hfull hname hspace
  · exact List.forall_mem_nil _
  · exact List.forall_mem_nil _
  · rw [List.append_nil]
    exact duplicateName_inBounds
  · refine List.forall_mem_append.mpr ⟨duplicateName_inBounds,?_⟩
    cases firstFreeBlock s.fat with
    | none => exact List.forall_mem_nil _
    | some starting_block =>
      dsimp only
      cases markNewFile s.fat starting_block size (blocksFor size.toInt).toNat with
      | error e => exact List.forall_mem_nil _
      | ok r => exact List.forall_mem_cons.mpr ⟨⟨hnonneg,not_le.mp hfull⟩,save_inBounds⟩

theorem entry_inBounds (h : Tables s) {rest : Fin NUM_FILES → Fin NUM_OPENED_FILES → List Access}
    (hrest : ∀ (i : Fin NUM_FILES) (k : Fin NUM_OPENED_FILES), (i : ℤ) = k → ∀ a ∈ rest i k, a.InBounds) :
    (∀ a ∈ entryAccesses name s rest, a.InBounds) ↔
      ∀ i ∈ findFileIndexByName s name, (i : ℕ) < NUM_OPENED_FILES := by
  rw [entryAccesses, List.forall_mem_append, and_iff_right (findFile_inBounds h)]
  cases findFileIndexByName s name with
  | none => simp
  | some i =>
    simp only [List.forall_mem_cons, Option.mem_def, Option.some.injEq, forall_eq']
    constructor
    · rintro ⟨hi,-⟩
      exact Int.ofNat_lt.mp hi.2
    · intro hi
      have hin : (Access.open_file_fd_table i).InBounds := ⟨Int.natCast_nonneg _,Int.ofNat_lt.mpr hi⟩
      refine ⟨hin,?_⟩
      cases hk : index NUM_OPENED_FILES i with
      | error e => exact List.forall_mem_nil _
      | ok k =>
        dsimp only
        split_ifs with hclosed
        · exact List.forall_mem_nil _
        · simp only [List.forall_mem_cons]
          exact ⟨hin,h.opened.refers k hclosed,hin,hrest i k (index_eq_ok hk)⟩

theorem extend_inBounds {n : ℕ} (hlog : s.transaction_log.file_idx = Int16.ofInt file_idx) :
    ∀ a ∈ extendAccesses fd_index n s, a.InBounds := by
  induction n generalizing s with
  | zero => exact List.forall_mem_nil _
  | succ n ih =>
    unfold extendAccesses
    cases hfirst : firstFreeBlock s.fat with
    | none =>
      dsimp only
      split_ifs
      · rw [List.forall_mem_singleton, hlog, toInt_fileIndex]
        exact fd_table_inBounds file_idx
      · exact List.forall_mem_nil _
    | some b =>
      refine List.forall_mem_cons.mpr ⟨fd_table_inBounds fd_index,?_⟩
      cases hextend : (extend fd_index s).result with
      | error e => exact List.forall_mem_nil _
      | ok r =>
        rcases extend_cases hextend with ⟨-,⟨e⟩⟩ | ⟨-,hnone,-⟩
        · apply ih
          rw [e.result]
          dsimp only [notedLog]
          split_ifs <;> exact hlog
        · rw [hfirst] at hnone
          cases hnone

theorem shift_inBounds (h : Tables s) :
    (∀ a ∈ shiftAccesses s, a.InBounds) ↔ s.file_count.toInt < NUM_FILES := by
  have hle := h.count_le
  have hnonneg := h.count_nonneg
  simp only [shiftAccesses, List.forall_mem_flatMap, List.mem_range, List.forall_mem_cons, List.not_mem_nil,
    false_implies, implies_true, and_true]
  constructor
  · intro hall
    by_contra hlt
    have hfull : (16 : ℤ) ≤ s.file_count.toInt := not_lt.mp hlt
    have hlast := (hall 15 (by omega)).1
    exact absurd hlast.2 (by decide)
  · intro hlt i hi
    have hin : (i : ℤ) + 1 < NUM_FILES := by omega
    exact ⟨⟨by omega,hin⟩,⟨by omega,by omega⟩⟩

theorem closeOpened_inBounds {fuel i : ℕ} (hcount : count.toInt ≤ NUM_OPENED_FILES) :
    ∀ a ∈ closeOpenedAccesses file_idx fuel i (table,count), a.InBounds := by
  induction fuel generalizing i table count with
  | zero => exact List.forall_mem_nil _
  | succ fuel ih =>
    unfold closeOpenedAccesses
    split_ifs with hlt
    · have hin : (Access.open_file_fd_table i).InBounds := ⟨Int.natCast_nonneg _,by omega⟩
      refine List.forall_mem_cons.mpr ⟨hin,?_⟩
      cases index NUM_OPENED_FILES i with
      | error e => exact List.forall_mem_nil _
      | ok k =>
        dsimp only
        split_ifs
        · have hless : (count - 1).toInt ≤ NUM_OPENED_FILES := by
            rw [toInt_sub_one (by omega)]
            omega
          exact List.forall_mem_cons.mpr ⟨hin,ih hless⟩
        · exact ih hcount
    · exact List.forall_mem_nil _

theorem delete_inBounds (h : Tables s) : (∀ a ∈ deleteAccesses name s, a.InBounds) ↔
    ∀ i ∈ findFileIndexByName s name, (∃ xs, Chain s.fat (s.fd_table i).starting_block xs) →
      s.file_count.toInt < NUM_FILES := by
  have hle := h.count_le
  rw [deleteAccesses, List.forall_mem_append, and_iff_right (findFile_inBounds h)]
  cases hfind : findFileIndexByName s name with
  | none => simp
  | some i =>
    have hlive : (i : ℤ) < s.file_count.toInt := (find_live hfind).1
    simp only [List.forall_mem_cons, Option.mem_def, Option.some.injEq, forall_eq', and_iff_right (fd_table_inBounds i)]
    cases hclear : clearChain (fun b => b = END_OF_CHAIN) (NUM_BLOCKS + 2) s.fat (s.fd_table i).starting_block with
    | error e =>
      refine iff_of_true (List.forall_mem_nil _) ?_
      rintro ⟨xs,hxs⟩
      rw [clearChain_complete hxs] at hclear
      cases hclear
    | ok fat =>
      have hlast : (Access.fd_table (s.file_count.toInt - 1)).InBounds := ⟨by omega,by omega⟩
      simp only [List.forall_mem_append, List.forall_mem_cons, shift_inBounds h]
      constructor
      · rintro ⟨⟨hlt,-⟩,-⟩ -
        exact hlt
      · intro hlt
        exact ⟨⟨hlt (clearChain_chain hclear),hlast,closeOpened_inBounds h.opened_le⟩,save_inBounds⟩

/-- `open` has a free entry for a file that exists, `close` is given the name of an open
file, `read` and `write` that of one of the first eight, and `delete_` does not have a
full table of files when it gets to moving them down. -/
def Tame (s : State) : Call → Prop
  | .create _ _ => True
  | .open_ name => findFileIndexByName s name = none ∨ ∃ k, (s.open_file_fd_table k).idx = NO_OPENED_FILE
  | .close name => ∃ k, isOpenFor s name (s.open_file_fd_table k) = true
  | .read name _ => ∀ i ∈ findFileIndexByName s name, (i : ℕ) < NUM_OPENED_FILES
  | .write name _ _ => ∀ i ∈ findFileIndexByName s name, (i : ℕ) < NUM_OPENED_FILES
  | .delete_ name => ∀ i ∈ findFileIndexByName s name,
      (∃ xs, Chain s.fat (s.fd_table i).starting_block xs) → s.file_count.toInt < NUM_FILES

theorem open_inBounds (h : Tables s) :
    (∀ a ∈ openAccesses name s, a.InBounds) ↔
      findFileIndexByName s name = none ∨ ∃ k, (s.open_file_fd_table k).idx = NO_OPENED_FILE := by
  rw [openAccesses, if_neg h.not_too_many, List.forall_mem_append, and_iff_right (findFile_inBounds h)]
  cases findFileIndexByName s name with
  | none => simp
  | some i =>
    dsimp only
    rw [List.forall_mem_append, freeSlot_inBounds, or_iff_right (Option.some_ne_none i), and_iff_left]
    cases findOpenFileFreeSlot s with
    | error e => exact List.forall_mem_nil _
    | ok k => simpa using open_file_inBounds k

theorem close_inBounds (h : Tables s) :
    (∀ a ∈ closeAccesses name s, a.InBounds) ↔ ∃ k, isOpenFor s name (s.open_file_fd_table k) = true := by
  rw [closeAccesses, List.forall_mem_append, findOpen_inBounds h, and_iff_left]
  cases findOpenFileIndexByName s name with
  | error e => exact List.forall_mem_nil _
  | ok k => simpa using open_file_inBounds k

theorem read_inBounds (h : Tables s) : (∀ a ∈ readAccesses name size s, a.InBounds) ↔
    ∀ i ∈ findFileIndexByName s name, (i : ℕ) < NUM_OPENED_FILES := by
  apply entry_inBounds h
  intro i k hik
  split
  · simpa [hik] using open_file_inBounds k
  · exact List.forall_mem_nil _

theorem write_inBounds {buffer : ℕ → Int8} (h : Tables s) : (∀ a ∈ writeAccesses name buffer size s, a.InBounds) ↔
    ∀ i ∈ findFileIndexByName s name, (i : ℕ) < NUM_OPENED_FILES := by
  apply entry_inBounds h
  intro i k hik
  cases index NUM_FILES (s.open_file_fd_table k).idx.toInt with
  | error e => exact List.forall_mem_nil _
  | ok fd_index =>
    dsimp only
    rw [List.forall_mem_append]
    constructor
    · split_ifs
      · exact extend_inBounds rfl
      · exact List.forall_mem_nil _
    · split
      · rw [hik]
        exact List.forall_mem_cons.mpr ⟨open_file_inBounds k,save_inBounds⟩
      · exact List.forall_mem_nil _

theorem indexSafe_iff {call : Call} (h : Tables s) : IndexSafe s call ↔ Tame s call := by
  cases call with
  | create name size => exact iff_of_true (create_inBounds h) trivial
  | open_ name => exact open_inBounds h
  | close name => exact close_inBounds h
  | read name size => exact read_inBounds h
  | write name buffer size => exact write_inBounds h
  | delete_ name => exact delete_inBounds h

theorem index_opened {k : Fin NUM_OPENED_FILES} (h : index NUM_OPENED_FILES file_idx = .ok k) :
    (file_idx : ℕ) < NUM_OPENED_FILES := by
  have hk := index_eq_ok h
  have hlt := k.isLt
  omega

theorem shiftDown_fits {fd_table : Fin NUM_FILES → FileDescriptor} (h : shiftDown s none = .ok fd_table) :
    s.file_count.toInt < NUM_FILES := by
  unfold shiftDown at h
  dsimp only at h
  split_ifs at h with hlt
  exact hlt

/-- A call that returns, where nothing can be read behind the descriptors, has kept to
its tables: the model stops at the accesses that the traces find. -/
theorem indexSafe_of_step {call : Call} (h : Tables s) (hstep : step none s call = some s') : IndexSafe s call := by
  rw [indexSafe_iff h]
  obtain ⟨r,hr⟩ := step_ok hstep
  cases call with
  | create name size => trivial
  | open_ name =>
    obtain ⟨st,hopen,-⟩ := map_ok.mp hr
    rw [open_, if_neg h.not_too_many] at hopen
    cases hfind : findFileIndexByName s name with
    | none => exact Or.inl hfind
    | some i =>
      rw [hfind] at hopen
      obtain ⟨k,hk,-⟩ := proceed_ok.mp hopen
      exact Or.inr ⟨k,freeSlot_free hk⟩
  | close name =>
    obtain ⟨st,hclose,-⟩ := map_ok.mp hr
    obtain ⟨k,hk,-⟩ := proceed_ok.mp hclose
    exact ⟨k,openIndex_isOpenFor hk⟩
  | read name size =>
    intro i hi
    obtain ⟨st,hread,-⟩ := map_ok.mp hr
    rw [read, Option.mem_def.mp hi] at hread
    obtain ⟨k,hk,-⟩ := proceed_ok.mp hread
    exact index_opened hk
  | write name buffer size =>
    intro i hi
    obtain ⟨st,hwrite,-⟩ := map_ok.mp hr
    rw [write, Option.mem_def.mp hi] at hwrite
    obtain ⟨k,hk,-⟩ := proceed_ok.mp hwrite
    exact index_opened hk
  | delete_ name =>
    intro i hi _
    obtain ⟨st,hdelete,-⟩ := map_ok.mp hr
    rw [delete_, Option.mem_def.mp hi] at hdelete
    obtain ⟨fat,-,hrest⟩ := proceed_ok.mp hdelete
    obtain ⟨fd_table,hshift,-⟩ := proceed_ok.mp hrest
    exact shiftDown_fits hshift

/-- Every access of every call of a run is inside its table exactly if every call meets
this condition. -/
theorem index_safe_iff (past : Option FileDescriptor) (flag : Bool) (calls : List Call) :
    Meets (step past) IndexSafe (emptyFileSystem flag) calls ↔ Meets (step past) Tame (emptyFileSystem flag) calls :=
  meets_congr (P := Tables) (fun _ _ _ h _ hstep => Tables.step h hstep) (fun _ _ h => indexSafe_iff h)
    (tables_empty flag)

/-- Closing a file that is not open looks at the ninth of eight entries. -/
theorem close_leaves_table : ¬ Meets (step none) IndexSafe (emptyFileSystem false) [.close ['a']] := by decide

end SOI.FileSystem
