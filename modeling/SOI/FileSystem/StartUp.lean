import SOI.FileSystem.NewlineNames
import SOI.FileSystem.Recovery
import SOI.FileSystem.Creation
import SOI.Library.Folds

/-! # Starting from any files

What the constructor does with files of any contents. A line that cannot be read ends
the restoration, and then everything is set to its default. A number in a line that can
be read is used as an index, without a test.
-/
namespace SOI.FileSystem
open Linked Folds Texts
variable {s t : State} {d : Disk} {line : Text} {ls : List Text} {n : ℕ} {β : Type}

/-- The index and the value in a line of the memory file, if there is a colon in it. -/
def memoryEntry (line : Text) : Except Exception (Option (ℤ × ℤ)) :=
  match find ":".toList line with
  | none => .ok none
  | some pos => do
    let idx ← (substrLen line 7 ((pos : ℤ) - 7)).bind stoi
    let value ← (substr line (pos + 2)).bind stoi
    .ok (some (idx,value))

def fatEntry (line : Text) : Except Exception (Option (ℤ × ℤ)) :=
  match find "[".toList line, find "]".toList line, find ":".toList line with
  | some start_bracket, some end_bracket, some colon_pos => do
    let index_str ← substrLen line (start_bracket + 1) ((end_bracket : ℤ) - start_bracket - 1)
    let value_str ← substr line (colon_pos + 2)
    match stoi index_str, stoi value_str with
    | .ok idx, .ok value => .ok (some (idx,value))
    | _, _ => .ok none
  | _, _, _ => .ok none

def InArray (n : ℕ) (entry : Except Exception (Option (ℤ × ℤ))) : Prop :=
  ∀ idx value, entry = .ok (some (idx,value)) → 0 ≤ idx ∧ idx < n

def entryStop (n : ℕ) : Except Exception (Option (ℤ × ℤ)) → Option Stop
  | .error e => some (.thrown e)
  | .ok none => none
  | .ok (some (idx,_)) => if 0 ≤ idx ∧ idx < n then none else some .outOfRange

def entryValue (conv : ℤ → β) (i : Fin n) : Except Exception (Option (ℤ × ℤ)) → Option β
  | .ok (some (idx,value)) => if idx = i then some (conv value) else none
  | _ => none

def storeEntry (conv : ℤ → β) (table : Fin n → β) : Except Exception (Option (ℤ × ℤ)) → Except Stop (Fin n → β)
  | .error e => .error (.thrown e)
  | .ok none => .ok table
  | .ok (some (idx,value)) => (index n idx).map fun i => Function.update table i (conv value)

theorem restoreMemoryLine_eq (memory : Fin MEMORY_SIZE → Int8) (line : Text) :
    restoreMemoryLine memory line = storeEntry Int8.ofInt memory (memoryEntry line) := by
  unfold restoreMemoryLine memoryEntry
  cases find ":".toList line with
  | none => rfl
  | some pos =>
    dsimp only
    cases substrLen line 7 ((pos : ℤ) - 7) with
    | error e => rfl
    | ok index_str =>
      cases hidx : stoi index_str with
      | error e => simp [thrown, Except.bind, hidx, storeEntry, Bind.bind, Except.mapError]
      | ok idx =>
        cases substr line (pos + 2) with
        | error e => simp [thrown, Except.bind, hidx, storeEntry, Bind.bind, Except.mapError]
        | ok value_str =>
          cases hvalue : stoi value_str with
          | error e => simp [thrown, Except.bind, hidx, hvalue, storeEntry, Bind.bind, Except.mapError]
          | ok value =>
            simp only [thrown, Except.bind, hidx, hvalue, storeEntry, Bind.bind, Except.mapError]
            cases index MEMORY_SIZE idx <;> rfl

theorem restoreFATLine_eq (fat : Block → Int16) (line : Text) :
    restoreFATLine fat line = storeEntry Int16.ofInt fat (fatEntry line) := by
  unfold restoreFATLine fatEntry
  cases find "[".toList line with
  | none => rfl
  | some start_bracket =>
    cases find "]".toList line with
    | none => rfl
    | some end_bracket =>
      cases find ":".toList line with
      | none => rfl
      | some colon_pos =>
        dsimp only
        cases substrLen line (start_bracket + 1) ((end_bracket : ℤ) - start_bracket - 1) with
        | error e => rfl
        | ok index_str =>
          cases substr line (colon_pos + 2) with
          | error e => rfl
          | ok value_str =>
            show storeFAT fat (stoi index_str) (stoi value_str) = storeEntry Int16.ofInt fat
              (match stoi index_str, stoi value_str with
                | .ok idx, .ok value => .ok (some (idx,value))
                | _, _ => .ok none)
            unfold storeFAT
            cases stoi index_str <;> cases stoi value_str <;> rfl

theorem index_error {i : ℤ} (h : ¬ (0 ≤ i ∧ i < n)) : index n i = .error .outOfRange := dif_neg h

theorem index_eq_error {i : ℤ} {e : Stop} (h : index n i = .error e) : e = .outOfRange := by
  unfold index at h
  split_ifs at h
  cases h
  rfl

theorem storeEntry_stopsBy (conv : ℤ → β) (entry : Text → Except Exception (Option (ℤ × ℤ))) :
    StopsBy (fun (table : Fin n → β) l => storeEntry conv table (entry l)) fun l => entryStop n (entry l) := by
  constructor
  · intro table l hstop
    cases hentry : entry l with
    | error e =>
      rw [hentry] at hstop
      cases hstop
    | ok r =>
      cases r with
      | none => exact ⟨table,rfl⟩
      | some r =>
        rw [hentry, entryStop] at hstop
        split_ifs at hstop with hin
        refine ⟨Function.update table ⟨r.1.toNat,by omega⟩ (conv r.2),?_⟩
        rw [storeEntry, index, dif_pos hin]
        rfl
  · intro table l e hstop
    cases hentry : entry l with
    | error e' =>
      rw [hentry] at hstop
      cases hstop
      rfl
    | ok r =>
      cases r with
      | none =>
        rw [hentry] at hstop
        cases hstop
      | some r =>
        rw [hentry, entryStop] at hstop
        split_ifs at hstop with hin
        cases hstop
        rw [storeEntry, index_error hin]
        rfl

theorem storeEntry_value {conv : ℤ → β} {table table' : Fin n → β} {entry : Except Exception (Option (ℤ × ℤ))}
    (h : storeEntry conv table entry = .ok table') (i : Fin n) :
    table' i = (entryValue conv i entry).getD (table i) := by
  cases entry with
  | error e => cases h
  | ok r =>
    cases r with
    | none =>
      cases h
      rfl
    | some r =>
      obtain ⟨k,hk,rfl⟩ := map_eq_ok.mp h
      have hidx := index_eq_ok hk
      rw [entryValue]
      by_cases hik : i = k
      · subst hik
        rw [Function.update_self, if_pos hidx]
        rfl
      · have hne : r.1 ≠ i := fun heq => hik (Fin.ext (by omega))
        rw [Function.update_of_ne hik, if_neg hne]
        rfl

inductive LogLabel
  | in_progress
  | file_idx
  | new_size
  | last_valid_block
  | first_new_block
  deriving DecidableEq

/-- The first of the labels, in the order of the tests, that is in the line. -/
def logLabel (line : Text) : Option LogLabel :=
  if (find "In Progress:".toList line).isSome then some .in_progress
  else if (find "File Index:".toList line).isSome then some .file_idx
  else if (find "New Size:".toList line).isSome then some .new_size
  else if (find "Last Valid Block:".toList line).isSome then some .last_valid_block
  else if (find "First New Block:".toList line).isSome then some .first_new_block
  else none

/-- Where the value is expected. -/
def LogLabel.pos : LogLabel → ℕ
  | .in_progress => 13
  | .file_idx => 12
  | .new_size => 9
  | .last_valid_block => 17
  | .first_new_block => 17

def errorOf {α : Type} : Except Stop α → Option Stop
  | .error e => some e
  | .ok _ => none

def logStop (line : Text) : Option Stop :=
  match logLabel line with
  | none => none
  | some .in_progress => errorOf (thrown (substr line 13))
  | some label => errorOf (field line label.pos)

def loggedFlag (line : Text) : Option Bool :=
  if logLabel line = some .in_progress then some (line.drop 13 = "true".toList) else none

def loggedNumber (label : LogLabel) (line : Text) : Option Int16 :=
  if logLabel line = some label then (field line label.pos).toOption else none

def countStop (line : Text) : Option Stop :=
  if (find "File Count:".toList line).isSome then errorOf (field line 12) else none

def countedNumber (line : Text) : Option Int16 :=
  if (find "File Count:".toList line).isSome then (field line 12).toOption else none

def descriptorStop (line : Text) : Option Stop :=
  errorOf (restoreDescriptorLine { fd_table := fun _ => emptyFileDescriptor } line)

section
variable {α γ : Type} {r : Except Stop α} {e : Stop}

theorem map_goes_on (h : errorOf r = none) (g : α → γ) : ∃ c, r.map g = .ok c := by
  cases r with
  | error e => cases h
  | ok a => exact ⟨g a,rfl⟩

theorem map_stops (h : errorOf r = some e) (g : α → γ) : r.map g = .error e := by
  cases r with
  | error e' =>
    cases h
    rfl
  | ok a => cases h

theorem errorOf_field {pos : ℕ} (h : errorOf (field line pos) = some e) : ∃ x, e = .thrown x := by
  unfold field at h
  cases hread : (substr line pos).bind stoi with
  | error x =>
    rw [hread] at h
    cases h
    exact ⟨x,rfl⟩
  | ok n =>
    rw [hread] at h
    cases h

end

theorem restoreLogLine_stopsBy : StopsBy restoreLogLine logStop := by
  constructor
  · intro log l hstop
    unfold logStop logLabel at hstop
    unfold restoreLogLine
    split_ifs at hstop ⊢
    all_goals first | exact map_goes_on hstop _ | exact ⟨log,rfl⟩
  · intro log l e hstop
    unfold logStop logLabel at hstop
    unfold restoreLogLine
    split_ifs at hstop ⊢
    all_goals exact map_stops hstop _

theorem restoreCountLine_stopsBy : StopsBy restoreCountLine countStop := by
  constructor
  · intro n l hstop
    unfold countStop at hstop
    unfold restoreCountLine
    split_ifs at hstop ⊢
    · cases hfield : field l 12 with
      | error e =>
        rw [hfield] at hstop
        cases hstop
      | ok m => exact ⟨m,rfl⟩
    · exact ⟨n,rfl⟩
  · intro n l e hstop
    unfold countStop at hstop
    unfold restoreCountLine
    split_ifs at hstop ⊢
    cases hfield : field l 12 with
    | error e' =>
      rw [hfield] at hstop
      cases hstop
      rfl
    | ok m =>
      rw [hfield] at hstop
      cases hstop

theorem restoreDescriptorLine_stopsBy : StopsBy restoreDescriptorLine descriptorStop := by
  constructor
  · intro r l hstop
    apply line_readable
    intro hline
    obtain ⟨e,he⟩ := line_unreadable hline
    rw [descriptorStop, he] at hstop
    cases hstop
  · intro r l e hstop
    rcases restoreDescriptorLine_throws l with ⟨x,hthrows⟩ | hreads
    · rw [descriptorStop, hthrows] at hstop
      rw [hthrows]
      exact congrArg Except.error (Option.some.inj hstop)
    · obtain ⟨r',hr⟩ := hreads { fd_table := fun _ => emptyFileDescriptor }
      rw [descriptorStop, hr] at hstop
      cases hstop

theorem restoreLogLine_values {log log' : TransactionLog} (h : restoreLogLine log line = .ok log') :
    log'.in_progress = (loggedFlag line).getD log.in_progress ∧
      log'.file_idx = (loggedNumber .file_idx line).getD log.file_idx ∧
      log'.last_valid_block = (loggedNumber .last_valid_block line).getD log.last_valid_block ∧
      log'.first_new_block = (loggedNumber .first_new_block line).getD log.first_new_block := by
  unfold restoreLogLine at h
  unfold loggedFlag loggedNumber
  split_ifs at h with hflag hidx hsize hlast hfirst
  · have hlabel : logLabel line = some .in_progress := if_pos hflag
    obtain ⟨flag,hread,rfl⟩ := map_eq_ok.mp h
    have hdrop : flag = line.drop 13 := by
      unfold substr at hread
      split_ifs at hread
      · cases hread
      · cases hread
        rfl
    rw [hlabel, hdrop]
    exact ⟨rfl,rfl,rfl,rfl⟩
  · have hlabel : logLabel line = some .file_idx := by rw [logLabel, if_neg hflag, if_pos hidx]
    obtain ⟨m,hread,rfl⟩ := map_eq_ok.mp h
    have hnumber : field line LogLabel.file_idx.pos = .ok m := hread
    rw [hlabel, hnumber]
    exact ⟨rfl,rfl,rfl,rfl⟩
  · have hlabel : logLabel line = some .new_size := by rw [logLabel, if_neg hflag, if_neg hidx, if_pos hsize]
    obtain ⟨m,-,rfl⟩ := map_eq_ok.mp h
    rw [hlabel]
    exact ⟨rfl,rfl,rfl,rfl⟩
  · have hlabel : logLabel line = some .last_valid_block := by
      rw [logLabel, if_neg hflag, if_neg hidx, if_neg hsize, if_pos hlast]
    obtain ⟨m,hread,rfl⟩ := map_eq_ok.mp h
    have hnumber : field line LogLabel.last_valid_block.pos = .ok m := hread
    rw [hlabel, hnumber]
    exact ⟨rfl,rfl,rfl,rfl⟩
  · have hlabel : logLabel line = some .first_new_block := by
      rw [logLabel, if_neg hflag, if_neg hidx, if_neg hsize, if_neg hlast, if_pos hfirst]
    obtain ⟨m,hread,rfl⟩ := map_eq_ok.mp h
    have hnumber : field line LogLabel.first_new_block.pos = .ok m := hread
    rw [hlabel, hnumber]
    exact ⟨rfl,rfl,rfl,rfl⟩
  · have hlabel : logLabel line = none := by
      rw [logLabel, if_neg hflag, if_neg hidx, if_neg hsize, if_neg hlast, if_neg hfirst]
    cases h
    rw [hlabel]
    exact ⟨rfl,rfl,rfl,rfl⟩

theorem restoreCountLine_value {m m' : Int16} (h : restoreCountLine m line = .ok m') :
    m' = (countedNumber line).getD m := by
  unfold restoreCountLine at h
  unfold countedNumber
  split_ifs at h ⊢
  · rw [h]
    rfl
  · cases h
    rfl

def restoreFile {σ : Type} (f : σ → Text → Except Stop σ) (a : σ) (file : Option Text) : Except Stop σ :=
  opened file >>= fun ls => ls.foldlM f a

/-- How restoring from a file stops, if it does. -/
def fileStop (stop : Text → Option Stop) : Option Text → Option Stop
  | none => some .notFound
  | some text => (lines text).findSome? stop

/-- How restoring stops, if it does. -/
def restoreStop (d : Disk) : Option Stop :=
  (fileStop (fun l => entryStop MEMORY_SIZE (memoryEntry l)) d.memory).or <|
    (fileStop (fun l => entryStop NUM_BLOCKS (fatEntry l)) d.fat).or <|
      (fileStop descriptorStop d.file_descriptors).or <|
        (fileStop logStop d.transaction_log).or (fileStop countStop d.file_count)

def linesOf (file : Option Text) : List Text := file.elim [] lines

section
variable {σ : Type} {f : σ → Text → Except Stop σ} {stop : Text → Option Stop} {a : σ} {file : Option Text} {e : Stop}

theorem restoreFile_goes_on (h : StopsBy f stop) (hfile : fileStop stop file = none) (a : σ) :
    ∃ a', restoreFile f a file = .ok a' ∧ (linesOf file).foldlM f a = .ok a' := by
  cases file with
  | none => cases hfile
  | some text =>
    obtain ⟨a',ha⟩ := h.foldlM_goes_on hfile a
    exact ⟨a',ha,ha⟩

theorem restoreFile_stops (h : StopsBy f stop) (hfile : fileStop stop file = some e) (a : σ) :
    restoreFile f a file = .error e := by
  cases file with
  | none =>
    cases hfile
    rfl
  | some text => exact h.foldlM_stops hfile a

end

theorem restoreFromDisk_eq (s : State) (d : Disk) : restoreFromDisk s d =
    restoreFile restoreMemoryLine s.memory d.memory >>= fun memory =>
      restoreFile restoreFATLine s.fat d.fat >>= fun fat =>
        restoreFile restoreDescriptorLine { fd_table := s.fd_table } d.file_descriptors >>= fun r =>
          restoreFile restoreLogLine s.transaction_log d.transaction_log >>= fun log =>
            restoreFile restoreCountLine s.file_count d.file_count >>= fun file_count =>
              .ok (s.restored memory fat r.fd_table log file_count) := by
  have hmap : ∀ {α β γ : Type} (x : Except Stop α) (g : α → β) (k : β → Except Stop γ),
      x.map g >>= k = x >>= fun a => k (g a) := by
    intro α β γ x g k
    cases x <;> rfl
  unfold restoreFromDisk restoreFile restoreDescriptors
  simp only [bind_assoc, hmap]
  rfl

/-- An exception, which the constructor catches. -/
def Caught (e : Stop) : Prop := e = .notFound ∨ ∃ x, e = .thrown x

theorem not_caught_outOfRange : ¬ Caught .outOfRange := by
  rintro (hfound | ⟨x,hx⟩)
  · cases hfound
  · cases hx

theorem construct_caught {e : Stop} (hrestore : restoreFromDisk s d = .error e) (he : Caught e) :
    construct s d = saved () s.reset.closed := by
  unfold construct
  rw [hrestore]
  rcases he with rfl | ⟨x,rfl⟩ <;> rfl

theorem construct_stops {e : Stop} (h : (restoreFromDisk s d >>= repair) = .error e) (he : ¬ Caught e) :
    (construct s d).result = .error e := by
  unfold construct
  rw [h]
  cases e with
  | notFound => exact absurd (Or.inl rfl) he
  | thrown x => exact absurd (Or.inr ⟨x,rfl⟩) he
  | outOfRange => rfl
  | diverges => rfl
  | terminated => rfl

theorem restoreMemoryLine_stopsBy : StopsBy restoreMemoryLine fun l => entryStop MEMORY_SIZE (memoryEntry l) := by
  have h := storeEntry_stopsBy (n := MEMORY_SIZE) Int8.ofInt memoryEntry
  simpa only [← restoreMemoryLine_eq] using h

theorem restoreFATLine_stopsBy : StopsBy restoreFATLine fun l => entryStop NUM_BLOCKS (fatEntry l) := by
  have h := storeEntry_stopsBy (n := NUM_BLOCKS) Int16.ofInt fatEntry
  simpa only [← restoreFATLine_eq] using h

theorem restore_stops {e : Stop} (h : restoreStop d = some e) (s : State) : restoreFromDisk s d = .error e := by
  rw [restoreFromDisk_eq]
  rcases Option.or_eq_some_iff.mp h with h | ⟨hnone,h⟩
  · rw [restoreFile_stops restoreMemoryLine_stopsBy h]
    rfl
  obtain ⟨memory,hmemory,-⟩ := restoreFile_goes_on restoreMemoryLine_stopsBy hnone s.memory
  rw [hmemory, ok_bind]
  rcases Option.or_eq_some_iff.mp h with h | ⟨hnone,h⟩
  · rw [restoreFile_stops restoreFATLine_stopsBy h]
    rfl
  obtain ⟨fat,hfat,-⟩ := restoreFile_goes_on restoreFATLine_stopsBy hnone s.fat
  rw [hfat, ok_bind]
  rcases Option.or_eq_some_iff.mp h with h | ⟨hnone,h⟩
  · rw [restoreFile_stops restoreDescriptorLine_stopsBy h]
    rfl
  obtain ⟨r,hr,-⟩ := restoreFile_goes_on restoreDescriptorLine_stopsBy hnone { fd_table := s.fd_table }
  rw [hr, ok_bind]
  rcases Option.or_eq_some_iff.mp h with h | ⟨hnone,h⟩
  · rw [restoreFile_stops restoreLogLine_stopsBy h]
    rfl
  obtain ⟨log,hlog,-⟩ := restoreFile_goes_on restoreLogLine_stopsBy hnone s.transaction_log
  rw [hlog, ok_bind, restoreFile_stops restoreCountLine_stopsBy h]
  rfl

def readNumber (label : LogLabel) (raw : Int16) (d : Disk) : Int16 :=
  lastValue (loggedNumber label) raw (linesOf d.transaction_log)

def readFlag (raw : Bool) (d : Disk) : Bool := lastValue loggedFlag raw (linesOf d.transaction_log)

def readCount (raw : Int16) (d : Disk) : Int16 := lastValue countedNumber raw (linesOf d.file_count)

def readFAT (raw : Block → Int16) (d : Disk) (b : Block) : Int16 :=
  lastValue (fun l => entryValue Int16.ofInt b (fatEntry l)) (raw b) (linesOf d.fat)

/-- What counts for the repair is what the last lines say, or what has been in memory. -/
structure ReadFrom (s : State) (d : Disk) (t : State) : Prop where
  fat : t.fat = readFAT s.fat d
  in_progress : t.transaction_log.in_progress = readFlag s.transaction_log.in_progress d
  file_idx : t.transaction_log.file_idx = readNumber .file_idx s.transaction_log.file_idx d
  last_valid_block : t.transaction_log.last_valid_block = readNumber .last_valid_block s.transaction_log.last_valid_block d
  first_new_block : t.transaction_log.first_new_block = readNumber .first_new_block s.transaction_log.first_new_block d
  file_count : t.file_count = readCount s.file_count d

theorem restore_goes_on (h : restoreStop d = none) (s : State) : ∃ t, restoreFromDisk s d = .ok t ∧ ReadFrom s d t := by
  rw [restoreFromDisk_eq]
  simp only [restoreStop, Option.or_eq_none_iff] at h
  obtain ⟨hmemory,hfat,hdescriptors,hlog,hcount⟩ := h
  obtain ⟨memory,hm,-⟩ := restoreFile_goes_on restoreMemoryLine_stopsBy hmemory s.memory
  obtain ⟨fat,hf,hfats⟩ := restoreFile_goes_on restoreFATLine_stopsBy hfat s.fat
  obtain ⟨r,hr,-⟩ := restoreFile_goes_on restoreDescriptorLine_stopsBy hdescriptors { fd_table := s.fd_table }
  obtain ⟨log,hl,hlogs⟩ := restoreFile_goes_on restoreLogLine_stopsBy hlog s.transaction_log
  obtain ⟨count,hc,hcounts⟩ := restoreFile_goes_on restoreCountLine_stopsBy hcount s.file_count
  refine ⟨s.restored memory fat r.fd_table log count,?_,?_,?_,?_,?_,?_,?_⟩
  · rw [hm, ok_bind, hf, ok_bind, hr, ok_bind, hl, ok_bind, hc, ok_bind]
  · funext b
    refine foldlM_lastValue (π := fun table : Block → Int16 => table b) (fun table l table' hstore => ?_) hfats
    rw [restoreFATLine_eq] at hstore
    exact storeEntry_value hstore b
  · exact foldlM_lastValue (π := TransactionLog.in_progress) (fun _ _ _ hline => (restoreLogLine_values hline).1) hlogs
  · exact foldlM_lastValue (π := TransactionLog.file_idx) (fun _ _ _ hline => (restoreLogLine_values hline).2.1) hlogs
  · exact foldlM_lastValue (π := TransactionLog.last_valid_block)
      (fun _ _ _ hline => (restoreLogLine_values hline).2.2.1) hlogs
  · exact foldlM_lastValue (π := TransactionLog.first_new_block)
      (fun _ _ _ hline => (restoreLogLine_values hline).2.2.2) hlogs
  · exact foldlM_lastValue (π := id) (fun _ _ _ hline => restoreCountLine_value hline) hcounts

/-- The links from `p` on lead to an end, or back to a block that they have led to before,
without leaving the FAT. -/
def ClearsInside (fat : Block → Int16) (p : Int16) : Prop :=
  ∃ xs q, Seg blockPtr fat p xs q ∧ xs.Nodup ∧ (q = -1 ∨ q = END_OF_CHAIN ∨ ∃ b ∈ xs, q = blockPtr b)

abbrev clearEnds (p : Int16) : Bool := p = -1 || p = END_OF_CHAIN

section
variable {fat fat' : Block → Int16} {p q : Int16} {xs : List Block} {b : Block} {fuel : ℕ}

theorem clearEnds_ptr (b : Block) : ¬ clearEnds (blockPtr b) = true := by
  simp [clearEnds, blockPtr_ne_free b, (blockPtr_ne_end b).symm]

/-- Blocks met a second time are free, and so end the loop. -/
theorem clearChain_seg (h : Seg blockPtr fat p xs q) (hnodup : xs.Nodup)
    (hq : q = -1 ∨ q = END_OF_CHAIN ∨ ∃ b, q = blockPtr b ∧ (b ∈ xs ∨ fat b = FREE_BLOCK)) (hfuel : xs.length + 2 ≤ fuel) :
    ∃ fat', clearChain clearEnds fuel fat p = .ok fat' := by
  induction xs generalizing fat p fuel with
  | nil =>
    obtain ⟨fuel,rfl⟩ : ∃ m, fuel = m + 2 := ⟨fuel - 2,by rw [List.length_nil] at hfuel; omega⟩
    obtain rfl : p = q := h
    rcases hq with rfl | rfl | ⟨b,rfl,hin | hfree⟩
    · exact ⟨fat,rfl⟩
    · exact ⟨fat,rfl⟩
    · cases hin
    · refine ⟨Function.update fat b FREE_BLOCK,?_⟩
      rw [clearChain, if_neg (clearEnds_ptr b), index_blockPtr]
      show clearChain clearEnds (fuel + 1) (Function.update fat b FREE_BLOCK) (fat b) = _
      rw [hfree]
      rfl
  | cons x xs ih =>
    obtain ⟨fuel,rfl⟩ : ∃ m, fuel = m + 1 := ⟨fuel - 1,by omega⟩
    obtain ⟨hx,hnodup'⟩ := List.nodup_cons.mp hnodup
    rw [List.length_cons] at hfuel
    have hrest : Seg blockPtr (Function.update fat x FREE_BLOCK) (fat x) xs q := h.2.update hx _
    have hq' : q = -1 ∨ q = END_OF_CHAIN ∨
        ∃ b, q = blockPtr b ∧ (b ∈ xs ∨ Function.update fat x FREE_BLOCK b = FREE_BLOCK) := by
      refine hq.imp_right (Or.imp_right ?_)
      rintro ⟨b,hqb,hb⟩
      refine ⟨b,hqb,?_⟩
      by_cases hbx : b = x
      · subst hbx
        exact Or.inr (Function.update_self ..)
      · rw [Function.update_of_ne hbx]
        exact hb.imp_left fun hin => (List.mem_cons.mp hin).resolve_left hbx
    obtain ⟨fat',hclear⟩ := @ih _ _ fuel hrest hnodup' hq' (by omega)
    refine ⟨fat',?_⟩
    rw [h.1, clearChain, if_neg (clearEnds_ptr x), index_blockPtr]
    exact hclear

theorem clearsInside_of_clearChain (h : clearChain clearEnds fuel fat p = .ok fat') : ClearsInside fat p := by
  induction fuel generalizing fat p with
  | zero => cases h
  | succ fuel ih =>
    unfold clearChain at h
    split_ifs at h with hend
    · have hp : p = -1 ∨ p = END_OF_CHAIN := by simpa [clearEnds] using hend
      exact ⟨[],p,rfl,List.nodup_nil,hp.imp_right Or.inl⟩
    · obtain ⟨b,hb,h⟩ := bind_ok.mp h
      obtain ⟨xs,q,hseg,hnodup,hq⟩ := ih h
      by_cases hin : b ∈ xs
      · obtain ⟨front,rest,rfl⟩ := List.append_of_mem hin
        obtain ⟨m,hfront,hm,-⟩ := seg_append.mp hseg
        have hout : b ∉ front := by
          intro hbf
          rw [List.nodup_append] at hnodup
          exact hnodup.2.2 b hbf b (by simp) rfl
        rw [hm] at hfront
        have hfront' : Seg blockPtr fat (fat b) front (blockPtr b) :=
          hfront.congr fun c hc => (Function.update_of_ne (ne_of_mem_of_not_mem hc hout) _ _).symm
        have hnodup' : (b :: front).Nodup := List.nodup_cons.mpr ⟨hout,(List.nodup_append.mp hnodup).1⟩
        exact ⟨b :: front,blockPtr b,⟨index_eq_ptr hb,hfront'⟩,hnodup',Or.inr (Or.inr ⟨b,by simp,rfl⟩)⟩
      · have hseg' : Seg blockPtr fat (fat b) xs q :=
          hseg.congr fun c hc => (Function.update_of_ne (ne_of_mem_of_not_mem hc hin) _ _).symm
        refine ⟨b :: xs,q,⟨index_eq_ptr hb,hseg'⟩,List.nodup_cons.mpr ⟨hin,hnodup⟩,hq.imp_right (Or.imp_right ?_)⟩
        rintro ⟨c,hc,hqc⟩
        exact ⟨c,List.mem_cons_of_mem _ hc,hqc⟩

theorem countFree_free (hb : fat b ≠ FREE_BLOCK) :
    countFreeBlocks fat + 1 ≤ countFreeBlocks (Function.update fat b FREE_BLOCK) := by
  have hnodup : (b :: freeBlocks fat).Nodup :=
    List.nodup_cons.mpr ⟨fun hin => hb (mem_freeBlocks.mp hin),freeBlocks_nodup fat⟩
  have hsub : b :: freeBlocks fat ⊆ freeBlocks (Function.update fat b FREE_BLOCK) := by
    intro c hc
    rw [mem_freeBlocks]
    by_cases hcb : c = b
    · rw [hcb, Function.update_self]
    · rw [Function.update_of_ne hcb]
      exact mem_freeBlocks.mp ((List.mem_cons.mp hc).resolve_left hcb)
  have hlength := (hnodup.subperm hsub).length_le
  rwa [List.length_cons, length_freeBlocks, length_freeBlocks] at hlength

/-- The loop ends: each step that goes on frees a block, or has come to one that is free. -/
theorem clearChain_error (hfuel : NUM_BLOCKS - countFreeBlocks fat + 2 ≤ fuel) {e : Stop}
    (h : clearChain clearEnds fuel fat p = .error e) : e = .outOfRange := by
  induction fuel generalizing fat p with
  | zero => omega
  | succ fuel ih =>
    unfold clearChain at h
    split_ifs at h with hend
    cases hindex : index NUM_BLOCKS p.toInt with
    | error e' =>
      rw [hindex] at h
      cases h
      exact index_eq_error hindex
    | ok b =>
      rw [hindex] at h
      have hrest : clearChain clearEnds fuel (Function.update fat b FREE_BLOCK) (fat b) = .error e := h
      by_cases hb : fat b = FREE_BLOCK
      · obtain ⟨fuel,rfl⟩ : ∃ m, fuel = m + 1 := ⟨fuel - 1,by omega⟩
        rw [hb] at hrest
        cases hrest
      · have hmore := countFree_free hb
        have hall := countFree_le (Function.update fat b FREE_BLOCK)
        have hnum : NUM_BLOCKS = 64 := rfl
        exact ih (by omega) hrest

theorem clearChain_ok_iff : (∃ fat', clearChain clearEnds (NUM_BLOCKS + 2) fat p = .ok fat') ↔ ClearsInside fat p := by
  constructor
  · rintro ⟨fat',h⟩
    exact clearsInside_of_clearChain h
  · rintro ⟨xs,q,hseg,hnodup,hq⟩
    have hlength := hnodup.length_le_card
    rw [Fintype.card_fin] at hlength
    refine clearChain_seg hseg hnodup (hq.imp_right (Or.imp_right ?_)) (by omega)
    rintro ⟨b,hb,hqb⟩
    exact ⟨b,hqb,Or.inl hb⟩

end

/-- The numbers in the log lead to nothing outside the arrays. -/
structure LogInside (log : TransactionLog) (fat : Block → Int16) : Prop where
  file_idx : log.file_idx ≠ -1 → log.last_valid_block ≠ -1 → 0 ≤ log.file_idx.toInt ∧ log.file_idx.toInt < NUM_FILES
  last_valid_block : log.last_valid_block ≠ -1 →
    0 ≤ log.last_valid_block.toInt ∧ log.last_valid_block.toInt < NUM_BLOCKS
  first_new_block : log.first_new_block ≠ -1 → ClearsInside fat log.first_new_block

theorem index_exists {i : ℤ} : (∃ k, index n i = .ok k) ↔ 0 ≤ i ∧ i < n := by
  constructor
  · rintro ⟨k,hk⟩
    have hi := index_eq_ok hk
    have hlt := k.isLt
    omega
  · intro hi
    exact ⟨_,dif_pos hi⟩

/-- An index that is checked: the rest goes on with it, or the program stops. -/
theorem index_map_cases {γ : Type} {i : ℤ} (g : Fin n → γ) :
    ((0 ≤ i ∧ i < n) ∧ ∃ k, (index n i).map g = .ok (g k)) ∨ (¬ (0 ≤ i ∧ i < n) ∧ (index n i).map g = .error .outOfRange) := by
  by_cases hi : 0 ≤ i ∧ i < n
  · obtain ⟨k,hk⟩ := index_exists.mpr hi
    exact Or.inl ⟨hi,k,by rw [hk]; rfl⟩
  · exact Or.inr ⟨hi,by rw [index_error hi]; rfl⟩

theorem restoreSize_cases (s : State) :
    ((s.transaction_log.file_idx ≠ -1 → s.transaction_log.last_valid_block ≠ -1 →
        0 ≤ s.transaction_log.file_idx.toInt ∧ s.transaction_log.file_idx.toInt < NUM_FILES) ∧
      ∃ t, restoreOriginalFileSize s = .ok t ∧ t.fat = s.fat ∧ t.transaction_log = s.transaction_log) ∨
    (s.transaction_log.file_idx ≠ -1 ∧ s.transaction_log.last_valid_block ≠ -1 ∧
      ¬ (0 ≤ s.transaction_log.file_idx.toInt ∧ s.transaction_log.file_idx.toInt < NUM_FILES) ∧
      restoreOriginalFileSize s = .error .outOfRange) := by
  unfold restoreOriginalFileSize
  dsimp only
  split_ifs with hset
  · rcases index_map_cases (fun i => setFileSize s i ((s.transaction_log.last_valid_block.toInt + 1) * BLOCK_SIZE))
      with ⟨hin,i,hi⟩ | ⟨hout,herror⟩
    · exact Or.inl ⟨fun _ _ => hin,_,hi,rfl,rfl⟩
    · exact Or.inr ⟨hset.1,hset.2,hout,herror⟩
  · exact Or.inl ⟨fun hidx hlast => absurd ⟨hidx,hlast⟩ hset,s,rfl,rfl,rfl⟩

theorem clearNew_cases (s : State) :
    ((s.transaction_log.first_new_block ≠ -1 → ClearsInside s.fat s.transaction_log.first_new_block) ∧
      ∃ t, clearNewAllocatedBlocks s = .ok t ∧ t.transaction_log = s.transaction_log) ∨
    (s.transaction_log.first_new_block ≠ -1 ∧ ¬ ClearsInside s.fat s.transaction_log.first_new_block ∧
      clearNewAllocatedBlocks s = .error .outOfRange) := by
  unfold clearNewAllocatedBlocks
  dsimp only
  split_ifs with hfirst
  · rw [← clearChain_ok_iff]
    cases hclear : clearChain clearEnds (NUM_BLOCKS + 2) s.fat s.transaction_log.first_new_block with
    | ok fat => exact Or.inl ⟨fun _ => ⟨fat,rfl⟩,_,rfl,rfl⟩
    | error e =>
      obtain rfl : e = .outOfRange := clearChain_error (by omega) hclear
      refine Or.inr ⟨hfirst,?_,rfl⟩
      rintro ⟨fat,hfat⟩
      cases hfat
  · exact Or.inl ⟨fun hset => absurd hset hfirst,s,rfl,rfl⟩

theorem restoreEnd_cases (s : State) :
    ((s.transaction_log.last_valid_block ≠ -1 →
        0 ≤ s.transaction_log.last_valid_block.toInt ∧ s.transaction_log.last_valid_block.toInt < NUM_BLOCKS) ∧
      ∃ t, restoreEndOfChain s = .ok t) ∨
    (s.transaction_log.last_valid_block ≠ -1 ∧
      ¬ (0 ≤ s.transaction_log.last_valid_block.toInt ∧ s.transaction_log.last_valid_block.toInt < NUM_BLOCKS) ∧
      restoreEndOfChain s = .error .outOfRange) := by
  unfold restoreEndOfChain
  dsimp only
  split_ifs with hset
  · rcases index_map_cases (fun b : Block => { s with fat := Function.update s.fat b END_OF_CHAIN })
      with ⟨hin,b,hb⟩ | ⟨hout,herror⟩
    · exact Or.inl ⟨fun _ => hin,_,hb⟩
    · exact Or.inr ⟨hset,hout,herror⟩
  · exact Or.inl ⟨fun h => absurd h hset,s,rfl⟩

/-- The repair succeeds with such numbers, and otherwise it leaves an array. -/
theorem repair_cases (hp : s.transaction_log.in_progress = true) :
    (LogInside s.transaction_log s.fat ∧ ∃ t, repair s = .ok t) ∨
      (¬ LogInside s.transaction_log s.fat ∧ repair s = .error .outOfRange) := by
  have hrepair : repair s = restoreOriginalFileSize s >>= fun t => clearNewAllocatedBlocks t >>= fun u =>
      restoreEndOfChain u >>= fun v => .ok (clearTransactionLog v) := by
    rw [repair, if_pos hp, transactionRollback, if_neg (by simp [hp])]
  rw [hrepair]
  rcases restoreSize_cases s with ⟨hsize,t,ht,hfat,hlog⟩ | ⟨hidx,hlast,hout,herror⟩
  · rw [ht, ok_bind]
    rcases clearNew_cases t with ⟨hclear,u,hu,hlog'⟩ | ⟨hfirst,hout,herror⟩
    · rw [hu, ok_bind]
      rw [hfat, hlog] at hclear
      rw [hlog] at hlog'
      rcases restoreEnd_cases u with ⟨hend,v,hv⟩ | ⟨hlast,hout,herror⟩
      · rw [hlog'] at hend
        exact Or.inl ⟨⟨hsize,hend,hclear⟩,_,by rw [hv, ok_bind]⟩
      · rw [hlog'] at hlast hout
        exact Or.inr ⟨fun h => hout (h.last_valid_block hlast),by rw [herror]; rfl⟩
    · rw [hfat, hlog] at hout
      rw [hlog] at hfirst
      exact Or.inr ⟨fun h => hout (h.first_new_block hfirst),by rw [herror]; rfl⟩
  · exact Or.inr ⟨fun h => hout (h.file_idx hidx hlast),by rw [herror]; rfl⟩

def Readable (file : Option Text) (readable : Text → Prop) : Prop := ∃ text, file = some text ∧ ∀ l ∈ lines text, readable l

/-- All files are there, and no line of them throws. -/
structure Restorable (d : Disk) : Prop where
  memory : Readable d.memory fun l => (memoryEntry l).isOk = true
  fat : Readable d.fat fun l => (fatEntry l).isOk = true
  file_descriptors : Readable d.file_descriptors fun l => ¬ UnreadableLine l
  transaction_log : Readable d.transaction_log fun l => logStop l = none
  file_count : Readable d.file_count fun l => countStop l = none

def readLog (raw : TransactionLog) (d : Disk) : TransactionLog where
  in_progress := readFlag raw.in_progress d
  file_idx := readNumber .file_idx raw.file_idx d
  new_size := readNumber .new_size raw.new_size d
  last_valid_block := readNumber .last_valid_block raw.last_valid_block d
  first_new_block := readNumber .first_new_block raw.first_new_block d

/-- As far as the files are read, they lead to nothing outside the arrays. -/
structure StartsInside (s : State) (d : Disk) : Prop where
  memory : ∀ l ∈ (linesOf d.memory).takeWhile (fun l => (memoryEntry l).isOk), InArray MEMORY_SIZE (memoryEntry l)
  fat : Readable d.memory (fun l => (memoryEntry l).isOk = true) →
    ∀ l ∈ (linesOf d.fat).takeWhile (fun l => (fatEntry l).isOk), InArray NUM_BLOCKS (fatEntry l)
  log : Restorable d → readFlag s.transaction_log.in_progress d = true →
    LogInside (readLog s.transaction_log d) (readFAT s.fat d)
  file_count : Restorable d → 0 ≤ (readCount s.file_count d).toInt ∧ (readCount s.file_count d).toInt ≤ NUM_FILES

section
variable {entry : Text → Except Exception (Option (ℤ × ℤ))} {file : Option Text} {stop : Text → Option Stop} {e : Stop}

theorem entryStop_eq_outOfRange {r : Except Exception (Option (ℤ × ℤ))} :
    entryStop n r ≠ some .outOfRange ↔ InArray n r := by
  unfold InArray
  cases r with
  | error x => simp [entryStop]
  | ok r =>
    cases r with
    | none => simp [entryStop]
    | some r =>
      obtain ⟨idx,value⟩ := r
      simp only [entryStop, Except.ok.injEq, Option.some.injEq, Prod.mk.injEq]
      constructor
      · rintro h i v ⟨rfl,rfl⟩
        by_contra hout
        exact h (if_neg hout)
      · intro h
        rw [if_pos (h idx value ⟨rfl,rfl⟩)]
        exact (Option.some_ne_none _).symm

theorem isOk_iff_entryStop {r : Except Exception (Option (ℤ × ℤ))} :
    r.isOk = false ↔ ∃ e, e ≠ Stop.outOfRange ∧ entryStop n r = some e := by
  cases r with
  | error x => simp [Except.isOk, Except.toBool, entryStop]
  | ok r =>
    refine iff_of_false (by simp [Except.isOk, Except.toBool]) ?_
    rintro ⟨e,hne,he⟩
    cases r with
    | none => cases he
    | some r =>
      rw [entryStop] at he
      split_ifs at he
      exact hne (Option.some.inj he).symm

theorem fileStop_inside : fileStop (fun l => entryStop n (entry l)) file ≠ some .outOfRange ↔
    ∀ l ∈ (linesOf file).takeWhile (fun l => (entry l).isOk), InArray n (entry l) := by
  cases file with
  | none => simp [fileStop, linesOf]
  | some text =>
    refine (findSome?_ne_iff (p := fun l => (entry l).isOk) fun l => isOk_iff_entryStop).trans ?_
    simp only [entryStop_eq_outOfRange]
    rfl

theorem fileStop_none_iff : fileStop stop file = none ↔ Readable file fun l => stop l = none := by
  cases file with
  | none => simp [fileStop, Readable]
  | some text => simp [fileStop, Readable]

theorem readable_of_stop (h : fileStop (fun l => entryStop n (entry l)) file = none) :
    Readable file fun l => (entry l).isOk = true := by
  obtain ⟨text,hfile,hlines⟩ := fileStop_none_iff.mp h
  refine ⟨text,hfile,fun l hl => ?_⟩
  by_contra hbad
  obtain ⟨e,-,he⟩ := (isOk_iff_entryStop (n := n)).mp (Bool.eq_false_of_not_eq_true hbad)
  have hnone : entryStop n (entry l) = none := hlines l hl
  rw [hnone] at he
  cases he

/-- A file that can be read stops the restoration by an index only. -/
theorem stop_of_readable (h : Readable file fun l => (entry l).isOk = true)
    (hstop : fileStop (fun l => entryStop n (entry l)) file = some e) : e = .outOfRange := by
  obtain ⟨text,rfl,hlines⟩ := h
  obtain ⟨l,hl,he⟩ := List.exists_of_findSome?_eq_some hstop
  by_contra hne
  have hbad := (isOk_iff_entryStop (n := n)).mpr ⟨e,hne,he⟩
  rw [hlines l hl] at hbad
  cases hbad

theorem entry_caught (hstop : fileStop (fun l => entryStop n (entry l)) file = some e) (hne : e ≠ .outOfRange) : Caught e := by
  cases file with
  | none =>
    cases hstop
    exact Or.inl rfl
  | some text =>
    obtain ⟨l,hl,he⟩ := List.exists_of_findSome?_eq_some hstop
    cases hentry : entry l with
    | error x =>
      rw [hentry] at he
      exact Or.inr ⟨x,(Option.some.inj he).symm⟩
    | ok r =>
      have hbad := (isOk_iff_entryStop (n := n)).mpr ⟨e,hne,he⟩
      rw [hentry] at hbad
      cases hbad

theorem file_caught (hthrown : ∀ l e, stop l = some e → ∃ x, e = .thrown x) (hstop : fileStop stop file = some e) :
    Caught e := by
  cases file with
  | none =>
    cases hstop
    exact Or.inl rfl
  | some text =>
    obtain ⟨l,-,he⟩ := List.exists_of_findSome?_eq_some hstop
    exact Or.inr (hthrown l e he)

end

theorem descriptorStop_thrown {l : Text} {e : Stop} (h : descriptorStop l = some e) : ∃ x, e = .thrown x := by
  rcases restoreDescriptorLine_throws l with ⟨x,hthrows⟩ | hreads
  · rw [descriptorStop, hthrows] at h
    exact ⟨x,(Option.some.inj h).symm⟩
  · obtain ⟨r',hr⟩ := hreads { fd_table := fun _ => emptyFileDescriptor }
    rw [descriptorStop, hr] at h
    cases h

theorem descriptorStop_none_iff {l : Text} : descriptorStop l = none ↔ ¬ UnreadableLine l := by
  unfold descriptorStop UnreadableLine
  cases restoreDescriptorLine { fd_table := fun _ => emptyFileDescriptor } l with
  | error e => simp [errorOf, Except.isOk, Except.toBool]
  | ok r => simp [errorOf, Except.isOk, Except.toBool]

theorem logStop_thrown {l : Text} {e : Stop} (h : logStop l = some e) : ∃ x, e = .thrown x := by
  unfold logStop at h
  split at h
  · cases h
  · unfold thrown at h
    cases hread : substr l 13 with
    | error x =>
      rw [hread] at h
      exact ⟨x,(Option.some.inj h).symm⟩
    | ok flag =>
      rw [hread] at h
      cases h
  · exact errorOf_field h

theorem countStop_thrown {l : Text} {e : Stop} (h : countStop l = some e) : ∃ x, e = .thrown x := by
  unfold countStop at h
  split_ifs at h
  exact errorOf_field h

/-- The constructor comes to its end with a file count that fits. -/
def StartsUp (s : State) (d : Disk) : Prop :=
  ∃ t, (construct s d).result = .ok ((),t) ∧ 0 ≤ t.file_count.toInt ∧ t.file_count.toInt ≤ NUM_FILES

theorem StartsUp.of_caught {e : Stop} (h : restoreStop d = some e) (he : Caught e) : StartsUp s d := by
  refine ⟨s.reset.closed,?_,?_,?_⟩
  · rw [construct_caught (restore_stops h s) he]
    rfl
  · exact le_rfl
  · exact (by decide : (0 : Int16).toInt ≤ NUM_FILES)

theorem not_startsUp (h : (restoreFromDisk s d >>= repair) = .error .outOfRange) : ¬ StartsUp s d := by
  rintro ⟨t,ht,-⟩
  rw [construct_stops h not_caught_outOfRange] at ht
  cases ht

theorem not_startsUp_of_stop (h : restoreStop d = some .outOfRange) : ¬ StartsUp s d := by
  apply not_startsUp
  rw [restore_stops h s]
  rfl

def restStop (d : Disk) : Option Stop :=
  (fileStop descriptorStop d.file_descriptors).or
    ((fileStop logStop d.transaction_log).or (fileStop countStop d.file_count))

theorem rest_caught {e : Stop} (h : restStop d = some e) : Caught e := by
  rcases Option.or_eq_some_iff.mp h with h | ⟨-,h⟩
  · exact file_caught (fun _ _ => descriptorStop_thrown) h
  rcases Option.or_eq_some_iff.mp h with h | ⟨-,h⟩
  · exact file_caught (fun _ _ => logStop_thrown) h
  · exact file_caught (fun _ _ => countStop_thrown) h

theorem Restorable.rest (h : Restorable d) : restStop d = none := by
  rw [restStop, Option.or_eq_none_iff, Option.or_eq_none_iff, fileStop_none_iff, fileStop_none_iff, fileStop_none_iff]
  simp only [descriptorStop_none_iff]
  exact ⟨h.file_descriptors,h.transaction_log,h.file_count⟩

theorem startsUp_of_restored (h : restoreStop d = none) : StartsUp s d ↔
    (readFlag s.transaction_log.in_progress d = true → LogInside (readLog s.transaction_log d) (readFAT s.fat d)) ∧
      0 ≤ (readCount s.file_count d).toInt ∧ (readCount s.file_count d).toInt ≤ NUM_FILES := by
  obtain ⟨t,hrestore,hread⟩ := restore_goes_on h s
  have hinside : LogInside t.transaction_log t.fat ↔ LogInside (readLog s.transaction_log d) (readFAT s.fat d) := by
    have hfat := hread.fat
    have hidx := hread.file_idx
    have hlast := hread.last_valid_block
    have hfirst := hread.first_new_block
    constructor
    · intro hlog
      have h₁ := hlog.file_idx
      have h₂ := hlog.last_valid_block
      have h₃ := hlog.first_new_block
      rw [hidx, hlast] at h₁
      rw [hlast] at h₂
      rw [hfirst, hfat] at h₃
      exact ⟨h₁,h₂,h₃⟩
    · intro hlog
      refine ⟨?_,?_,?_⟩
      · rw [hidx, hlast]
        exact hlog.file_idx
      · rw [hlast]
        exact hlog.last_valid_block
      · rw [hfirst, hfat]
        exact hlog.first_new_block
  have hcounts : ∀ u, repair t = .ok u → (StartsUp s d ↔
      0 ≤ (readCount s.file_count d).toInt ∧ (readCount s.file_count d).toInt ≤ NUM_FILES) := by
    intro u hu
    have hcount : u.file_count = readCount s.file_count d := by
      rw [← hread.file_count]
      unfold repair at hu
      split_ifs at hu
      · exact (sameEntries_rollback hu).file_count
      · cases hu
        rfl
    have hresult : (construct s d).result = .ok ((),u.closed) := congrArg Outcome.result (construct_ok hrestore hu)
    unfold StartsUp
    rw [hresult, ← hcount]
    constructor
    · rintro ⟨v,hv,hfits⟩
      cases hv
      exact hfits
    · intro hfits
      exact ⟨u.closed,rfl,hfits⟩
  rw [← hread.in_progress, ← hinside]
  by_cases hp : t.transaction_log.in_progress = true
  · rcases repair_cases hp with ⟨hlog,u,hu⟩ | ⟨hout,herror⟩
    · rw [hcounts u hu]
      exact (and_iff_right fun _ => hlog).symm
    · refine iff_of_false ?_ fun hall => hout (hall.1 hp)
      apply not_startsUp
      rw [hrestore, ok_bind, herror]
  · have hu : repair t = .ok t := if_neg hp
    rw [hcounts t hu]
    exact (and_iff_right fun h => absurd h hp).symm

/-- Starting works if and only if the files, as far as they are read, hold no index outside
an array and no file count that does not fit. -/
theorem starts_up_iff (s : State) (d : Disk) : StartsUp s d ↔ StartsInside s d := by
  cases hm : fileStop (fun l => entryStop MEMORY_SIZE (memoryEntry l)) d.memory with
  | some e =>
    have hstop : restoreStop d = some e := by rw [restoreStop, hm, Option.some_or]
    by_cases he : e = .outOfRange
    · subst he
      exact iff_of_false (not_startsUp_of_stop hstop) fun h => fileStop_inside.mpr h.memory hm
    · refine iff_of_true (StartsUp.of_caught hstop (entry_caught hm he)) ⟨?_,fun h => ?_,fun h => ?_,fun h => ?_⟩
      · apply fileStop_inside.mp
        rw [hm]
        simpa using he
      · exact absurd (stop_of_readable h hm) he
      · exact absurd (stop_of_readable h.memory hm) he
      · exact absurd (stop_of_readable h.memory hm) he
  | none =>
    have hmemory := fileStop_inside.mp (by rw [hm]; simp : fileStop (fun l => entryStop MEMORY_SIZE (memoryEntry l)) d.memory ≠
      some .outOfRange)
    cases hf : fileStop (fun l => entryStop NUM_BLOCKS (fatEntry l)) d.fat with
    | some e =>
      have hstop : restoreStop d = some e := by rw [restoreStop, hm, hf, Option.none_or, Option.some_or]
      by_cases he : e = .outOfRange
      · subst he
        exact iff_of_false (not_startsUp_of_stop hstop) fun h => fileStop_inside.mpr (h.fat (readable_of_stop hm)) hf
      · refine iff_of_true (StartsUp.of_caught hstop (entry_caught hf he)) ⟨hmemory,fun _ => ?_,fun h => ?_,fun h => ?_⟩
        · apply fileStop_inside.mp
          rw [hf]
          simpa using he
        · exact absurd (stop_of_readable h.fat hf) he
        · exact absurd (stop_of_readable h.fat hf) he
    | none =>
      have hfat := fileStop_inside.mp (by rw [hf]; simp : fileStop (fun l => entryStop NUM_BLOCKS (fatEntry l)) d.fat ≠
        some .outOfRange)
      have hrest : restoreStop d = restStop d := by
        rw [restoreStop, hm, hf, Option.none_or, Option.none_or]
        rfl
      cases hr : restStop d with
      | some e =>
        refine iff_of_true (StartsUp.of_caught (hrest.trans hr) (rest_caught hr)) ⟨hmemory,fun _ => hfat,fun h => ?_,fun h => ?_⟩
        all_goals
          rw [h.rest] at hr
          cases hr
      | none =>
        have hrestorable : Restorable d := by
          have hnone := hr
          rw [restStop, Option.or_eq_none_iff, Option.or_eq_none_iff, fileStop_none_iff, fileStop_none_iff,
            fileStop_none_iff] at hnone
          simp only [descriptorStop_none_iff] at hnone
          exact ⟨readable_of_stop hm,readable_of_stop hf,hnone.1,hnone.2.1,hnone.2.2⟩
        rw [startsUp_of_restored (hrest.trans hr)]
        constructor
        · rintro ⟨hlog,hcount⟩
          exact ⟨hmemory,fun _ => hfat,fun _ => hlog,fun _ => hcount⟩
        · intro h
          exact ⟨h.log hrestorable,h.file_count hrestorable⟩

/-- An index in a line of the memory file, and a file count, that are taken as they are. -/
theorem unchecked_numbers_not_started :
    ¬ StartsUp (emptyFileSystem false) { memory := some "Memory[5000]: 1\n".toList } ∧
      ¬ StartsUp (emptyFileSystem false) ⟨some [],some [],some [],some [],some "File Count: 99\n".toList⟩ := by
  constructor
  · exact not_startsUp_of_stop (by decide +kernel)
  · rw [startsUp_of_restored (by decide +kernel)]
    rintro ⟨-,-,hcount⟩
    have hread : readCount (emptyFileSystem false).file_count
        ⟨some [],some [],some [],some [],some "File Count: 99\n".toList⟩ = 99 := by decide +kernel
    rw [hread] at hcount
    exact absurd hcount (by decide)

/-- Whatever the files hold, the constructor does not loop for ever. -/
theorem construct_error {e : Stop} (h : (construct s d).result = .error e) : e = .outOfRange := by
  have hcases : ∀ x, restoreStop d = some x → Caught x ∨ x = .outOfRange := by
    intro x hx
    rcases Option.or_eq_some_iff.mp hx with hx | ⟨-,hx⟩
    · exact or_iff_not_imp_right.mpr (entry_caught hx)
    rcases Option.or_eq_some_iff.mp hx with hx | ⟨-,hx⟩
    · exact or_iff_not_imp_right.mpr (entry_caught hx)
    · exact Or.inl (rest_caught hx)
  cases hstop : restoreStop d with
  | some x =>
    by_cases hx : Caught x
    · rw [construct_caught (restore_stops hstop s) hx] at h
      cases h
    · have hrange : x = .outOfRange := (hcases x hstop).resolve_left hx
      rw [construct_stops (by rw [restore_stops hstop s]; rfl) hx] at h
      cases h
      exact hrange
  | none =>
    obtain ⟨t,hrestore,-⟩ := restore_goes_on hstop s
    by_cases hp : t.transaction_log.in_progress = true
    · rcases repair_cases hp with ⟨-,u,hu⟩ | ⟨-,herror⟩
      · rw [construct_ok hrestore hu] at h
        cases h
      · rw [construct_stops (by rw [hrestore, ok_bind, herror]) not_caught_outOfRange] at h
        cases h
        rfl
    · rw [construct_ok hrestore (if_neg hp)] at h
      cases h

end SOI.FileSystem
