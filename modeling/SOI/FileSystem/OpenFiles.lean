import SOI.FileSystem.FatInvariant
import SOI.Library.Tally

/-! # The table of open files

What a call can do to the table of open files, and what holds of both tables in
every run: the file count is in range, occupied entries refer to descriptors in
the table, and the number of opened files is the number of occupied entries.
-/
namespace SOI.FileSystem
open Runs Tally Texts

abbrev OpenTable := Fin NUM_OPENED_FILES → OpenedFile

def isOccupied (file : OpenedFile) : Bool := file.idx ≠ NO_OPENED_FILE

def occupied (table : OpenTable) : ℕ := tally (fun _ file => isOccupied file) table

variable {past : Option FileDescriptor} {s s' : State} {table : OpenTable} {count : Int16} {k : Fin NUM_OPENED_FILES}
  {name : Text}

theorem isOccupied_iff {file : OpenedFile} : isOccupied file = true ↔ file.idx ≠ NO_OPENED_FILE := by
  simp [isOccupied]

theorem not_isOccupied_iff {file : OpenedFile} : isOccupied file = false ↔ file.idx = NO_OPENED_FILE := by
  simp [isOccupied]

theorem occupied_le (table : OpenTable) : occupied table ≤ NUM_OPENED_FILES := by
  have hle := Finset.card_filter_le (Finset.univ : Finset (Fin NUM_OPENED_FILES)) fun k => isOccupied (table k) = true
  rwa [Finset.card_univ, Fintype.card_fin] at hle

theorem occupied_lt (hk : (table k).idx = NO_OPENED_FILE) : occupied table < NUM_OPENED_FILES := by
  have hlt := Finset.card_lt_card (Finset.filter_ssubset.mpr ⟨k,Finset.mem_univ k,by simpa [isOccupied] using hk⟩ :
    (Finset.univ.filter fun k => isOccupied (table k) = true) ⊂ Finset.univ)
  rwa [Finset.card_univ, Fintype.card_fin] at hlt

theorem occupied_pos (hk : (table k).idx ≠ NO_OPENED_FILE) : 0 < occupied table :=
  tally_pos.mpr ⟨k,isOccupied_iff.mpr hk⟩

theorem occupied_open (hk : (table k).idx = NO_OPENED_FILE) {file : OpenedFile} (hfile : file.idx ≠ NO_OPENED_FILE) :
    occupied (Function.update table k file) = occupied table + 1 := by
  have hmove := tally_update (fun _ file => isOccupied file) table k file
  rw [not_isOccupied_iff.mpr hk, isOccupied_iff.mpr hfile] at hmove
  exact hmove

theorem occupied_close (hk : (table k).idx ≠ NO_OPENED_FILE) {file : OpenedFile} (hfile : file.idx = NO_OPENED_FILE) :
    occupied (Function.update table k file) + 1 = occupied table := by
  have hmove := tally_update (fun _ file => isOccupied file) table k file
  rw [isOccupied_iff.mpr hk, not_isOccupied_iff.mpr hfile] at hmove
  exact hmove

theorem occupied_same {file : OpenedFile} (hfile : file.idx = (table k).idx) :
    occupied (Function.update table k file) = occupied table := by
  have hmove := tally_update (fun _ file => isOccupied file) table k file
  have hsame : isOccupied file = isOccupied (table k) := by rw [isOccupied, isOccupied, hfile]
  rw [hsame] at hmove
  exact Nat.add_right_cancel hmove

inductive Moves (s : State) : OpenTable → Int16 → Prop
  | same : Moves s s.open_file_fd_table s.opened_file_count
  | opens (i : Fin NUM_FILES) (k : Fin NUM_OPENED_FILES) (live : Live s i)
      (free : (s.open_file_fd_table k).idx = NO_OPENED_FILE) :
      Moves s (Function.update s.open_file_fd_table k ⟨Int16.ofInt i,0⟩) (s.opened_file_count + 1)
  | closes (k : Fin NUM_OPENED_FILES) (used : (s.open_file_fd_table k).idx ≠ NO_OPENED_FILE) :
      Moves s (Function.update s.open_file_fd_table k ⟨NO_OPENED_FILE,0⟩) (s.opened_file_count - 1)
  | advances (k : Fin NUM_OPENED_FILES) (n : Int16) :
      Moves s (s.advance k n).open_file_fd_table s.opened_file_count
  | deletes (i : Fin NUM_FILES) (opened : OpenTable × Int16)
      (closed : closeOpened i (NUM_OPENED_FILES + 1) 0 (s.open_file_fd_table,s.opened_file_count) = .ok opened) :
      Moves s opened.1 opened.2

theorem freeSlot_free (h : findOpenFileFreeSlot s = .ok k) : (s.open_file_fd_table k).idx = NO_OPENED_FILE := by
  unfold findOpenFileFreeSlot at h
  split at h
  · next j hfind =>
    cases h
    simpa using List.find?_some hfind
  · cases h

theorem freeSlot_exists (h : (s.open_file_fd_table k).idx = NO_OPENED_FILE) : ∃ l, findOpenFileFreeSlot s = .ok l := by
  unfold findOpenFileFreeSlot
  split
  · next l _ => exact ⟨l,rfl⟩
  · next hnone => exact absurd h (by simpa using List.find?_eq_none.mp hnone k (List.mem_finRange k))

theorem openIndex_isOpenFor (h : findOpenFileIndexByName s name = .ok k) :
    isOpenFor s name (s.open_file_fd_table k) = true := by
  unfold findOpenFileIndexByName at h
  split at h
  · next j hfind =>
    cases h
    have hj := List.find?_some hfind
    exact hj
  · cases h

theorem isOpenFor_used {file : OpenedFile} (h : isOpenFor s name file = true) : file.idx ≠ NO_OPENED_FILE := by
  simp only [isOpenFor, Bool.and_eq_true, decide_eq_true_eq] at h
  exact h.1

theorem perform_moves {call : Call} {r : Reply} (h : (perform past call s).result = .ok (r,s')) :
    Moves s s'.open_file_fd_table s'.opened_file_count := by
  cases call with
  | create name size =>
    obtain ⟨st,hcreate,rfl⟩ := map_ok.mp h
    rcases create_cases hcreate with ⟨-,rfl⟩ | ⟨-,⟨c⟩⟩
    · exact Moves.same
    · rw [c.result]
      exact Moves.same
  | open_ name =>
    obtain ⟨st,hopen,rfl⟩ := map_ok.mp h
    rcases open_cases hopen with ⟨-,rfl⟩ | ⟨-,i,k,hfind,hslot,rfl⟩
    · exact Moves.same
    · exact Moves.opens i k (find_live hfind).1 (freeSlot_free hslot)
  | close name =>
    obtain ⟨st,hclose,rfl⟩ := map_ok.mp h
    rcases close_cases hclose with rfl | ⟨k,hslot,-,rfl⟩
    · exact Moves.same
    · exact Moves.closes k (isOpenFor_used (openIndex_isOpenFor hslot))
  | read name size =>
    obtain ⟨st,hread,rfl⟩ := map_ok.mp h
    rcases read_cases hread with rfl | ⟨k,n,rfl⟩
    · exact Moves.same
    · exact Moves.advances k n
  | write name buffer size =>
    obtain ⟨st,hwrite,rfl⟩ := map_ok.mp h
    rcases write_cases hwrite with ⟨-,rfl⟩ | ⟨w,t,⟨ht,hat⟩ | ⟨-,-,hgrow⟩⟩
    · exact Moves.same
    · have hsame : t.open_file_fd_table = s.open_file_fd_table ∧ t.opened_file_count = s.opened_file_count := by
        rcases ht with ⟨-,rfl⟩ | ⟨-,hgrow⟩
        · exact ⟨rfl,rfl⟩
        · exact ⟨(sameEntries_grow hgrow).open_file_fd_table,(sameEntries_grow hgrow).opened_file_count⟩
      rcases writeAt_cases hat with ⟨-,rfl⟩ | ⟨-,-,memory,rfl⟩
      · rw [hsame.1, hsame.2]
        exact Moves.same
      · have hmove := Moves.advances (s := s) w.k size
        simp only [State.advance, State.setOpened, hsame.1, hsame.2] at hmove ⊢
        exact hmove
    · rw [(sameEntries_grow hgrow).open_file_fd_table, (sameEntries_grow hgrow).opened_file_count]
      exact Moves.same
  | delete_ name =>
    obtain ⟨st,hdelete,rfl⟩ := map_ok.mp h
    rcases delete_cases hdelete with ⟨-,rfl⟩ | ⟨-,⟨d⟩⟩
    · exact Moves.same
    · rw [d.result]
      exact Moves.deletes d.file_idx d.opened d.closed

theorem used_of_idx {file : OpenedFile} {i : Fin NUM_FILES} (h : file.idx.toInt = i) : file.idx ≠ NO_OPENED_FILE := by
  intro hnone
  rw [hnone, show (NO_OPENED_FILE : Int16).toInt = -1 from rfl] at h
  omega

/-- What closing one entry of the file keeps, the closing loop keeps. -/
theorem closeOpened_induction {file_idx : Fin NUM_FILES} {P : OpenTable → Int16 → Prop}
    (hstep : ∀ table count (k : Fin NUM_OPENED_FILES), P table count → (k : ℤ) < count.toInt →
      (table k).idx.toInt = file_idx → P (Function.update table k ⟨NO_OPENED_FILE,0⟩) (count - 1))
    {fuel i : ℕ} {opened : OpenTable × Int16} (hP : P table count)
    (h : closeOpened file_idx fuel i (table,count) = .ok opened) : P opened.1 opened.2 := by
  induction fuel generalizing i table count with
  | zero => cases h
  | succ fuel ih =>
    unfold closeOpened at h
    split_ifs at h with hlt
    · obtain ⟨k,hk,h⟩ := bind_ok.mp h
      split_ifs at h with hidx
      · have hki := index_eq_ok hk
        exact ih (hstep table count k hP (hki ▸ hlt) hidx) h
      · exact ih hP h
    · cases h
      exact hP

structure WellOpened (table : OpenTable) (count : Int16) : Prop where
  refers : ∀ k, (table k).idx ≠ NO_OPENED_FILE → 0 ≤ (table k).idx.toInt ∧ (table k).idx.toInt < NUM_FILES
  counted : count.toInt = occupied table

structure Tables (s : State) : Prop where
  count_nonneg : 0 ≤ s.file_count.toInt
  count_le : s.file_count.toInt ≤ NUM_FILES
  opened : WellOpened s.open_file_fd_table s.opened_file_count

theorem WellOpened.update (h : WellOpened table count) {file : OpenedFile} {n : Int16}
    (hfile : file.idx ≠ NO_OPENED_FILE → 0 ≤ file.idx.toInt ∧ file.idx.toInt < NUM_FILES)
    (hcount : n.toInt = occupied (Function.update table k file)) : WellOpened (Function.update table k file) n := by
  refine ⟨fun j hj => ?_,hcount⟩
  by_cases hjk : j = k
  · subst hjk
    rw [Function.update_self] at hj ⊢
    exact hfile hj
  · rw [Function.update_of_ne hjk] at hj ⊢
    exact h.refers j hj

theorem counted_close (hcounted : count.toInt = occupied table) (hk : (table k).idx ≠ NO_OPENED_FILE) :
    (count - 1).toInt = occupied (Function.update table k ⟨NO_OPENED_FILE,0⟩) := by
  have hpos := occupied_pos hk
  have hclose : occupied (Function.update table k ⟨NO_OPENED_FILE,0⟩) + 1 = occupied table := occupied_close hk rfl
  rw [toInt_sub_one (by omega)]
  omega

theorem WellOpened.close (h : WellOpened table count) (hk : (table k).idx ≠ NO_OPENED_FILE) :
    WellOpened (Function.update table k ⟨NO_OPENED_FILE,0⟩) (count - 1) :=
  h.update (fun hne => absurd rfl hne) (counted_close h.counted hk)

theorem WellOpened.moves (h : WellOpened s.open_file_fd_table s.opened_file_count) (hmove : Moves s table count) :
    WellOpened table count := by
  cases hmove with
  | same => exact h
  | opens i k _ hfree =>
    have hcounted := h.counted
    have hlt : occupied s.open_file_fd_table < 8 := occupied_lt hfree
    have hsmall : s.opened_file_count.toInt < NUM_FILES := by
      push_cast
      omega
    apply h.update
    · intro _
      have hi : (i : ℕ) < NUM_FILES := i.isLt
      dsimp only
      rw [toInt_fileIndex]
      omega
    · rw [occupied_open hfree (fileIndex_ne i), toInt_add_one (by omega) hsmall]
      push_cast
      omega
  | closes k hused => exact h.close hused
  | advances k n =>
    have hfile : ∀ file : OpenedFile, file.idx = (s.open_file_fd_table k).idx →
        WellOpened (Function.update s.open_file_fd_table k file) s.opened_file_count := by
      intro file hidx
      apply h.update
      · rw [hidx]
        exact h.refers k
      · rw [occupied_same hidx]
        exact h.counted
    exact hfile _ rfl
  | deletes i opened hclosed =>
    exact closeOpened_induction (fun table count k ht _ hidx => ht.close (used_of_idx hidx)) h hclosed

theorem Tables.perform (h : Tables s) {call : Call} {r : Reply} (hr : (perform past call s).result = .ok (r,s')) :
    Tables s' := by
  have hopened := h.opened.moves (perform_moves hr)
  have hnonneg := h.count_nonneg
  have hle := h.count_le
  rcases perform_entries hr with ⟨name,size,-,⟨c⟩⟩ | ⟨name,-,⟨d⟩⟩ | ⟨hcount,-⟩
  · have hfull := c.not_full
    have hcount := c.count_eq
    exact ⟨by omega,by omega,hopened⟩
  · have hpos := d.count_pos
    have hcount := d.count_eq
    exact ⟨by omega,by omega,hopened⟩
  · exact ⟨by rwa [hcount],by rwa [hcount],hopened⟩

theorem Tables.step (h : Tables s) {call : Call} (hstep : step past s call = some s') : Tables s' := by
  obtain ⟨r,hr⟩ := step_ok hstep
  exact h.perform hr

theorem Tables.opened_le (h : Tables s) : s.opened_file_count.toInt ≤ NUM_OPENED_FILES := by
  have hle := occupied_le s.open_file_fd_table
  have hcounted := h.opened.counted
  omega

theorem Tables.not_too_many (h : Tables s) : ¬ NUM_FILES ≤ s.opened_file_count.toInt := by
  have hle : s.opened_file_count.toInt ≤ 8 := h.opened_le
  push_cast
  omega

theorem tables_empty (flag : Bool) : Tables (emptyFileSystem flag) := by
  have hcount : (0 : Int16).toInt ≤ NUM_FILES := by decide
  have hnone : occupied (emptyFileSystem flag).open_file_fd_table = 0 := tally_eq_zero.mpr fun _ => rfl
  exact ⟨le_rfl,hcount,⟨fun k hk => absurd rfl hk,by rw [hnone]; rfl⟩⟩

/-- Whatever the calls, both tables stay well formed. -/
theorem tables_run {flag : Bool} {calls : List Call} (hrun : run (step past) (emptyFileSystem flag) calls = some s) :
    Tables s :=
  run_invariant (fun _ _ _ ht hstep => ht.step hstep) (tables_empty flag) hrun

end SOI.FileSystem
