import SOI.FileSystem.Operations

/-! # Saving and restoring

Every parser gives back what its printer wrote, with one exception: a name with a
newline in it is broken off there.
-/
namespace SOI.FileSystem
open Texts

@[simp] theorem thrown_ok {α : Type} (a : α) : thrown (.ok a) = .ok a := rfl

section Entries
variable {label : Text} {i v : ℤ}

theorem find_colon (h : ':' ∉ label) :
    find ":".toList (entryLine label i v) = some (label.length + (decimal i).length + 1) := by
  have hmiss : ':' ∉ label ++ (decimal i ++ [']']) := by
    simp [h, notMem_decimal (show ':' ≠ '-' by decide) (show ':'.isDigit = false by rfl)]
  have hline : entryLine label i v = (label ++ (decimal i ++ [']'])) ++ ':' :: ' ' :: decimal v := by
    simp [entryLine]
  rw [hline, show ":".toList = [':'] from rfl, find_char hmiss]
  simp [Nat.add_assoc]

theorem substr_value : substr (entryLine label i v) (label.length + (decimal i).length + 1 + 2) = .ok (decimal v) := by
  have hline : entryLine label i v = (label ++ (decimal i ++ "]: ".toList)) ++ decimal v := by simp [entryLine]
  have hlen : label.length + (decimal i).length + 1 + 2 = (label ++ (decimal i ++ "]: ".toList)).length := by
    simp
    omega
  rw [hline, hlen, substr_append]

theorem stoi_int {n : ℤ} (hn : -2 ^ 31 ≤ n ∧ n < 2 ^ 31) : stoi (decimal n) = .ok n := by
  have h := @stoi_decimal [] n hn (by simp)
  rwa [List.append_nil] at h

theorem int8_range (x : Int8) : -2 ^ 31 ≤ x.toInt ∧ x.toInt < 2 ^ 31 := by
  have h₁ := x.le_toInt
  have h₂ := x.toInt_lt
  omega

theorem int16_range (x : Int16) : -2 ^ 31 ≤ x.toInt ∧ x.toInt < 2 ^ 31 := by
  have h₁ := x.le_toInt
  have h₂ := x.toInt_lt
  omega

theorem notMem_entryLine (h : '\n' ∉ label) : '\n' ∉ entryLine label i v := by
  have hdec : ∀ n : ℤ, '\n' ∉ decimal n := fun n => notMem_decimal (by decide) (by rfl)
  simp [entryLine, h, hdec]

theorem restoreMemoryLine_line (memory : Fin MEMORY_SIZE → Int8) (i : Fin MEMORY_SIZE) (x : Int8) :
    restoreMemoryLine memory (memoryLine i x.toInt) = .ok (Function.update memory i x) := by
  have hi : (i : ℕ) < 2048 := i.isLt
  have hline : memoryLine i x.toInt = "Memory[".toList ++ ((decimal i ++ [']']) ++ (": ".toList ++ decimal x.toInt)) := by
    simp [memoryLine, entryLine]
  have hindex : substrLen (memoryLine i x.toInt) 7 (((7 + (decimal i).length + 1 : ℕ) : ℤ) - 7) =
      .ok (decimal i ++ [']']) := by
    have hlen : (((7 + (decimal i).length + 1 : ℕ) : ℤ) - 7) = ((decimal i ++ [']']).length : ℤ) := by
      simp
      omega
    rw [hline, hlen]
    exact substrLen_append _ _ _
  have hstoi : stoi (decimal i ++ [']']) = .ok (i : ℤ) := stoi_decimal (by omega) (by simp)
  have hfind : find ":".toList (memoryLine i x.toInt) = some (7 + (decimal i).length + 1) := find_colon (by simp)
  have hvalue : substr (memoryLine i x.toInt) (7 + (decimal i).length + 1 + 2) = .ok (decimal x.toInt) := substr_value
  have hindexed : index MEMORY_SIZE (i : ℤ) = .ok i := index_ok i
  simp only [restoreMemoryLine, hfind, hindex, hvalue, thrown_ok, ok_bind, hstoi, stoi_int (int8_range x), hindexed,
    Int8.ofInt_toInt]

theorem restoreFATLine_line (fat : Block → Int16) (b : Block) (x : Int16) :
    restoreFATLine fat (fatLine b x.toInt) = .ok (Function.update fat b x) := by
  have hb : (b : ℕ) < 64 := b.isLt
  have hdec : ∀ c : Char, c ≠ '-' → c.isDigit = false → c ∉ decimal b := fun c => notMem_decimal
  have hstart : find "[".toList (fatLine b x.toInt) = some 3 :=
    find_char (show '[' ∉ "FAT".toList by simp) _
  have hend : find "]".toList (fatLine b x.toInt) = some (4 + (decimal b).length) := by
    have hline : fatLine b x.toInt = ("FAT[".toList ++ decimal b) ++ ']' :: (": ".toList ++ decimal x.toInt) := by
      simp [fatLine, entryLine]
    rw [hline, show "]".toList = [']'] from rfl, find_char]
    · simp
      omega
    · simp [hdec ']' (by decide) (by rfl)]
  have hcolon : find ":".toList (fatLine b x.toInt) = some (4 + (decimal b).length + 1) := find_colon (by simp)
  have hindex : substrLen (fatLine b x.toInt) (3 + 1) (((4 + (decimal b).length : ℕ) : ℤ) - 3 - 1) =
      .ok (decimal b) := by
    have hlen : (((4 + (decimal b).length : ℕ) : ℤ) - 3 - 1) = ((decimal b).length : ℤ) := by omega
    rw [hlen]
    exact substrLen_append "FAT[".toList _ _
  have hvalue : substr (fatLine b x.toInt) (4 + (decimal b).length + 1 + 2) = .ok (decimal x.toInt) := substr_value
  have hindexed : index NUM_BLOCKS (b : ℤ) = .ok b := index_ok b
  simp only [restoreFATLine, hstart, hend, hcolon]
  rw [show ((3 : ℕ) : ℤ) = 3 from rfl, hindex, hvalue]
  simp [storeFAT, stoi_int (show -2 ^ 31 ≤ ((b : ℕ) : ℤ) ∧ ((b : ℕ) : ℤ) < 2 ^ 31 by omega), stoi_int (int16_range x),
    hindexed, Except.map]

theorem foldlM_update {ι α : Type} [DecidableEq ι] {store : (ι → α) → Text → Except Stop (ι → α)} {line : ι → Text}
    {v : ι → α} (hstore : ∀ a i, store a (line i) = .ok (Function.update a i (v i))) (is : List ι) (a : ι → α) :
    (is.map line).foldlM store a = .ok fun i => if i ∈ is then v i else a i := by
  induction is generalizing a with
  | nil => simp [pure, Except.pure]
  | cons i is ih =>
    rw [List.map_cons, List.foldlM_cons, hstore, ok_bind, ih]
    congr 1
    funext j
    by_cases hj : j ∈ is
    · simp [hj]
    · by_cases hji : j = i
      · subst hji
        simp [hj]
      · simp [hj, hji]

end Entries

theorem lines_memoryText (memory : Fin MEMORY_SIZE → Int8) :
    lines (memoryText memory) = (List.finRange MEMORY_SIZE).map fun i : Fin MEMORY_SIZE => memoryLine i (memory i).toInt := by
  refine lines_unlines fun l hl => ?_
  obtain ⟨i,-,rfl⟩ := List.mem_map.mp hl
  exact notMem_entryLine (by simp)

theorem restore_memory (memory memory' : Fin MEMORY_SIZE → Int8) :
    (lines (memoryText memory)).foldlM restoreMemoryLine memory' = .ok memory := by
  rw [lines_memoryText, foldlM_update fun a i => restoreMemoryLine_line a i (memory i)]
  simp

theorem restore_fat (fat fat' : Block → Int16) : (lines (fatText fat)).foldlM restoreFATLine fat' = .ok fat := by
  have hlines : lines (fatText fat) = (List.finRange NUM_BLOCKS).map fun b : Block => fatLine b (fat b).toInt := by
    refine lines_unlines fun l hl => ?_
    obtain ⟨b,-,rfl⟩ := List.mem_map.mp hl
    exact notMem_entryLine (by simp)
  rw [hlines, foldlM_update fun a b => restoreFATLine_line a b (fat b)]
  simp

/-- No name in the table has a newline. -/
def Plain (fd_table : Fin NUM_FILES → FileDescriptor) : Prop := ∀ i, '\n' ∉ (fd_table i).name

theorem field_line (label : Text) {pos : ℕ} (x : Int16) (hpos : label.length = pos) :
    field (label ++ decimal x.toInt) pos = .ok x := by
  subst hpos
  simp [field, substr_append, Except.bind, stoi_int (int16_range x), Except.map]

theorem field_space (p : Text) {label : Text} {pos : ℕ} (x : Int16) (h : label = p ++ [' ']) (hpos : p.length = pos) :
    field (label ++ decimal x.toInt) pos = .ok x := by
  subst hpos
  rw [h, List.append_assoc, List.singleton_append]
  simp [field, substr_append, Except.bind, stoi_space (int16_range x), Except.map]

theorem find_label {p label : Text} (h : label = p ++ [' ']) (s : Text) : (find p (label ++ s)).isSome = true := by
  rw [h, List.append_assoc, find_append]
  rfl

theorem no_label (p : Text) {line : Text} (c : Char) (hp : c ∈ p) (hline : c ∉ line) : ¬ (find p line).isSome = true := by
  rw [find_eq_none hp hline]
  exact Bool.false_ne_true

theorem notMem_label (label : Text) {c : Char} (n : ℤ) (hlabel : c ∉ label) (hc : c ≠ '-')
    (hd : c.isDigit = false) : c ∉ label ++ decimal n := by
  rw [List.mem_append, not_or]
  exact ⟨hlabel,notMem_decimal hc hd⟩

theorem read_name (r : DescriptorReader) (name : Text) :
    restoreDescriptorLine r ("Name: ".toList ++ name) = .ok { r with fd := { r.fd with name := name } } := by
  have hfind : (find "Name:".toList ("Name: ".toList ++ name)).isSome = true :=
    find_label (by simp) _
  have hsubstr : substr ("Name: ".toList ++ name) 6 = .ok name := substr_append "Name: ".toList name
  rw [restoreDescriptorLine, if_pos hfind, hsubstr]
  rfl

/-- A line of a label and a number. The number is read from behind the label or from behind the
blank after it, and a label with another letter is not found. -/
structure LabelLine (p line : Text) (x : Int16) : Prop where
  found : (find p line).isSome = true
  field : ∀ {pos : ℕ}, pos = p.length ∨ pos = p.length + 1 → field line pos = .ok x
  other : ∀ q : Text, (∃ c ∈ q, c ∉ p ++ [' '] ∧ c ≠ '-' ∧ c.isDigit = false) → ¬ (find q line).isSome = true

theorem labelLine {label : Text} (p : Text) (x : Int16) (h : label = p ++ [' ']) :
    LabelLine p (label ++ decimal x.toInt) x where
  found := find_label h _
  field := by
    rintro pos (rfl | rfl)
    · exact field_space p x h rfl
    · exact field_line label x (by rw [h, List.length_append, List.length_singleton])
  other := by
    rintro q ⟨c,hq,hp,hminus,hdigit⟩
    exact no_label q c hq (notMem_label label _ (h ▸ hp) hminus hdigit)

theorem read_numbers (r : DescriptorReader) (starting_block size : Int16) :
    ["Starting Block: ".toList ++ decimal starting_block.toInt,"Size: ".toList ++ decimal size.toInt].foldlM
        restoreDescriptorLine r =
      .ok { r with fd := { r.fd with starting_block := starting_block, size := size } } := by
  have hblock := @labelLine "Starting Block: ".toList "Starting Block:".toList starting_block (by simp)
  have hsize := @labelLine "Size: ".toList "Size:".toList size (by simp)
  rw [List.foldlM_cons, restoreDescriptorLine, if_neg (hblock.other _ (by simp)), if_pos hblock.found,
    hblock.field (by simp)]
  rw [Except.map, ok_bind, List.foldlM_cons, restoreDescriptorLine, if_neg (hsize.other _ (by simp)),
    if_neg (hsize.other _ (by simp)), if_pos hsize.found, hsize.field (by simp)]
  rfl

theorem read_dashes (r : DescriptorReader) : restoreDescriptorLine r "----".toList = .ok r.finish := by
  have hname := no_label "Name:".toList 'N' (by simp) (show 'N' ∉ "----".toList by simp)
  have hblock := no_label "Starting Block:".toList 'B' (by simp) (show 'B' ∉ "----".toList by simp)
  have hsize := no_label "Size:".toList 'S' (by simp) (show 'S' ∉ "----".toList by simp)
  rw [restoreDescriptorLine, if_neg hname, if_neg hblock, if_neg hsize, if_pos rfl]

theorem read_descriptor (r : DescriptorReader) (fd : FileDescriptor) :
    (descriptorLines fd).foldlM restoreDescriptorLine r = .ok ({ r with fd := fd } : DescriptorReader).finish := by
  have hlines : descriptorLines fd = ("Name: ".toList ++ fd.name) :: (["Starting Block: ".toList ++
      decimal fd.starting_block.toInt,"Size: ".toList ++ decimal fd.size.toInt] ++ ["----".toList]) := rfl
  rw [hlines, List.foldlM_cons, read_name, ok_bind, List.foldlM_append, read_numbers, ok_bind, List.foldlM_cons,
    read_dashes]
  rfl

/-- Reading descriptors fills the table from the present place on. -/
theorem read_descriptors (ds : List FileDescriptor) (r : DescriptorReader) (h : r.i + ds.length ≤ NUM_FILES) :
    ∃ r', (ds.flatMap descriptorLines).foldlM restoreDescriptorLine r = .ok r' ∧ r'.i = r.i + ds.length ∧
      r'.fd = ds.getLast?.getD r.fd ∧ (∀ j : Fin NUM_FILES, j < r.i → r'.fd_table j = r.fd_table j) ∧
      ∀ (j : Fin NUM_FILES) (n : ℕ) (hn : n < ds.length), (j : ℕ) = r.i + n → r'.fd_table j = ds[n] := by
  induction ds generalizing r with
  | nil => exact ⟨r,rfl,rfl,rfl,fun j _ => rfl,fun j n hn => absurd hn (Nat.not_lt_zero n)⟩
  | cons d ds ih =>
    rw [List.length_cons] at h
    have hlt : r.i < NUM_FILES := by omega
    have hfinish : ({ r with fd := d } : DescriptorReader).finish =
        { fd := d, i := r.i + 1, fd_table := Function.update r.fd_table ⟨r.i,hlt⟩ d } := dif_pos hlt
    obtain ⟨r',hread,hi,hfd,hbefore,hat⟩ := ih
      { fd := d, i := r.i + 1, fd_table := Function.update r.fd_table ⟨r.i,hlt⟩ d } (by simp only; omega)
    simp only at hi hfd hbefore hat
    have hother : ∀ j : Fin NUM_FILES, (j : ℕ) ≠ r.i → Function.update r.fd_table ⟨r.i,hlt⟩ d j = r.fd_table j :=
      fun j hj => Function.update_of_ne (fun heq => hj (congrArg Fin.val heq)) _ _
    refine ⟨r',?_,?_,?_,fun j hj => ?_,fun j n hn hj => ?_⟩
    · rw [List.flatMap_cons, List.foldlM_append, read_descriptor, ok_bind, hfinish, hread]
    · rw [hi, List.length_cons]
      omega
    · rw [hfd]
      cases ds with
      | nil => rfl
      | cons e es => simp [List.getLast?_cons]
    · rw [hbefore j (by omega), hother j (by omega)]
    · cases n with
      | zero =>
        rw [hbefore j (by omega)]
        obtain rfl : j = ⟨r.i,hlt⟩ := Fin.ext hj
        exact Function.update_self ..
      | succ n => exact hat j n (by simpa using hn) (by omega)

theorem lines_descriptors {ds : List FileDescriptor} (h : ∀ fd ∈ ds, '\n' ∉ fd.name) :
    lines (unlines (ds.flatMap descriptorLines)) = ds.flatMap descriptorLines := by
  refine lines_unlines fun l hl => ?_
  obtain ⟨fd,hfd,hl⟩ := List.mem_flatMap.mp hl
  simp only [descriptorLines, List.mem_cons, List.not_mem_nil, or_false] at hl
  rcases hl with rfl | rfl | rfl | rfl
  · simp [h fd hfd]
  · exact notMem_label _ _ (by simp) (by decide) (by rfl)
  · exact notMem_label _ _ (by simp) (by decide) (by rfl)
  · simp

theorem restore_descriptors {fd_table : Fin NUM_FILES → FileDescriptor} (h : Plain fd_table)
    (fd_table' : Fin NUM_FILES → FileDescriptor) :
    restoreDescriptors fd_table' (lines (descriptorsText fd_table)) = .ok fd_table := by
  obtain ⟨r',hread,-,-,-,hat⟩ := read_descriptors (List.ofFn fd_table) { fd_table := fd_table' } (by simp)
  have hall : r'.fd_table = fd_table := by
    funext j
    rw [hat j j (by simp) (by simp), List.getElem_ofFn]
  rw [restoreDescriptors, descriptorsText, lines_descriptors, hread, ← hall]
  · rfl
  · intro fd hfd
    obtain ⟨i,rfl⟩ := List.mem_ofFn.mp hfd
    exact h i

/-- What reading one line can do. -/
theorem restoreDescriptorLine_cases {r r' : DescriptorReader} {line : Text}
    (h : restoreDescriptorLine r line = .ok r') :
    r' = { r with fd := { r.fd with name := line.drop 6 } } ∨
    ((find "Starting Block:".toList line).isSome = true ∧ ∃ n, field line 15 = .ok n ∧
      r' = { r with fd := { r.fd with starting_block := n } }) ∨
    (∃ n, r' = { r with fd := { r.fd with size := n } }) ∨ (line = "----".toList ∧ r' = r.finish) ∨ r' = r := by
  unfold restoreDescriptorLine at h
  split_ifs at h with hname hblock hsize hdashes
  · left
    unfold substr at h
    split_ifs at h
    · cases h
    · cases h
      rfl
  · right
    left
    cases hfield : field line 15 with
    | error e =>
      rw [hfield] at h
      cases h
    | ok n =>
      rw [hfield] at h
      cases h
      exact ⟨hblock,n,rfl,rfl⟩
  · right
    right
    left
    cases hfield : field line 6 with
    | error e =>
      rw [hfield] at h
      cases h
    | ok n =>
      rw [hfield] at h
      cases h
      exact ⟨n,rfl⟩
  · cases h
    exact Or.inr (Or.inr (Or.inr (Or.inl ⟨hdashes,rfl⟩)))
  · cases h
    exact Or.inr (Or.inr (Or.inr (Or.inr rfl)))

theorem foldlM_preserves {σ α ε : Type} {f : σ → α → Except ε σ} {P : σ → Prop} {ls : List α} {r r' : σ}
    (hstep : ∀ l ∈ ls, ∀ r r', P r → f r l = .ok r' → P r') (hr : P r) (h : ls.foldlM f r = .ok r') : P r' := by
  induction ls generalizing r with
  | nil =>
    cases h
    exact hr
  | cons l ls ih =>
    rw [List.foldlM_cons] at h
    cases hl : f r l with
    | error e =>
      rw [hl] at h
      cases h
    | ok t =>
      rw [hl, ok_bind] at h
      exact ih (fun k hk => hstep k (by simp [hk])) (hstep l (by simp) r t hr hl) h

/-- The names read so far have no newline. -/
structure Clean (n : ℕ) (r : DescriptorReader) : Prop where
  fd : '\n' ∉ r.fd.name
  table : ∀ j : Fin NUM_FILES, j < r.i → '\n' ∉ (r.fd_table j).name
  progress : n ≤ r.i

theorem Clean.finish {n : ℕ} {r : DescriptorReader} (h : Clean n r) (hlt : r.i < NUM_FILES) :
    Clean (n + 1) r.finish := by
  have hfinish : r.finish = { r with i := r.i + 1, fd_table := Function.update r.fd_table ⟨r.i,hlt⟩ r.fd } := dif_pos hlt
  rw [hfinish]
  refine ⟨h.fd,fun j hj => ?_,Nat.succ_le_succ h.progress⟩
  simp only at hj ⊢
  by_cases heq : j = ⟨r.i,hlt⟩
  · rw [heq, Function.update_self]
    exact h.fd
  · rw [Function.update_of_ne heq]
    exact h.table j (Nat.lt_of_le_of_ne (Nat.le_of_lt_succ hj) fun hji => heq (Fin.ext hji))

theorem Clean.line {n : ℕ} {r r' : DescriptorReader} {line : Text} (h : Clean n r) (hline : '\n' ∉ line)
    (hr : restoreDescriptorLine r line = .ok r') : Clean n r' := by
  rcases restoreDescriptorLine_cases hr with rfl | ⟨-,m,-,rfl⟩ | ⟨m,rfl⟩ | ⟨-,rfl⟩ | rfl
  · exact ⟨fun hm => hline (List.mem_of_mem_drop hm),h.table,h.progress⟩
  · exact ⟨h.fd,h.table,h.progress⟩
  · exact ⟨h.fd,h.table,h.progress⟩
  · by_cases hlt : r.i < NUM_FILES
    · have hnext := h.finish hlt
      exact ⟨hnext.fd,hnext.table,Nat.le_of_succ_le hnext.progress⟩
    · rwa [DescriptorReader.finish, dif_neg hlt]
  · exact h

theorem foldlM_append_ok {σ α ε : Type} {f : σ → α → Except ε σ} {xs ys : List α} {r r' : σ} :
    (xs ++ ys).foldlM f r = .ok r' ↔ ∃ t, xs.foldlM f r = .ok t ∧ ys.foldlM f t = .ok r' := by
  rw [List.foldlM_append]
  cases xs.foldlM f r with
  | error e => simp [Bind.bind, Except.bind]
  | ok t => simp

/-- The lines of a descriptor as they are read; a newline in the name makes more of them. -/
def readLines (fd : FileDescriptor) : List Text :=
  lines ("Name: ".toList ++ fd.name ++ ['\n']) ++ ["Starting Block: ".toList ++ decimal fd.starting_block.toInt,
    "Size: ".toList ++ decimal fd.size.toInt] ++ ["----".toList]

theorem lines_readLines (ds : List FileDescriptor) :
    lines (unlines (ds.flatMap descriptorLines)) = ds.flatMap readLines := by
  induction ds with
  | nil => rfl
  | cons d ds ih =>
    have hsplit : unlines ((d :: ds).flatMap descriptorLines) =
        ("Name: ".toList ++ d.name) ++ '\n' :: (("Starting Block: ".toList ++ decimal d.starting_block.toInt) ++ '\n' ::
          (("Size: ".toList ++ decimal d.size.toInt) ++ '\n' :: ("----".toList ++ '\n' ::
            unlines (ds.flatMap descriptorLines)))) := by
      simp [unlines, descriptorLines]
    rw [hsplit, lines_append, lines_line (notMem_label _ _ (by simp) (by decide) (by rfl)),
      lines_line (notMem_label _ _ (by simp) (by decide) (by rfl)), lines_line (show '\n' ∉ "----".toList by simp), ih]
    simp [readLines]

theorem notMem_readLines {fd : FileDescriptor} {l : Text} (h : l ∈ readLines fd) : '\n' ∉ l := by
  simp only [readLines, List.mem_append, List.mem_cons, List.not_mem_nil, or_false] at h
  rcases h with (h | rfl | rfl) | rfl
  · exact notMem_of_mem_lines h
  · exact notMem_label _ _ (by simp) (by decide) (by rfl)
  · exact notMem_label _ _ (by simp) (by decide) (by rfl)
  · simp

theorem Clean.read {n : ℕ} {r r' : DescriptorReader} {ds : List FileDescriptor} (h : Clean n r)
    (hn : n + ds.length ≤ NUM_FILES) (hr : (ds.flatMap readLines).foldlM restoreDescriptorLine r = .ok r') :
    Clean (n + ds.length) r' := by
  induction ds generalizing n r with
  | nil =>
    cases hr
    exact h
  | cons d ds ih =>
    rw [List.length_cons] at hn
    rw [List.flatMap_cons, foldlM_append_ok] at hr
    obtain ⟨t,hd,hds⟩ := hr
    rw [readLines, foldlM_append_ok] at hd
    obtain ⟨u,hfront,hdashes⟩ := hd
    have hu : Clean n u := foldlM_preserves (fun l hl r r' hr => hr.line (@notMem_readLines d l (by
      rw [readLines]
      exact List.mem_append_left _ hl))) h hfront
    obtain rfl : u.finish = t := by
      rw [List.foldlM_cons, read_dashes, ok_bind] at hdashes
      exact Except.ok.inj hdashes
    have ht : Clean (n + 1) u.finish := by
      by_cases hlt : u.i < NUM_FILES
      · exact hu.finish hlt
      · rw [DescriptorReader.finish, dif_neg hlt]
        exact ⟨hu.fd,hu.table,by omega⟩
    have hrest := ih ht (by omega) hds
    rw [List.length_cons, Nat.add_comm ds.length, ← Nat.add_assoc]
    exact hrest

/-- Whatever has been saved, the names in a restored table have no newline. -/
theorem restored_plain {fd_table fd_table' t : Fin NUM_FILES → FileDescriptor}
    (h : restoreDescriptors fd_table' (lines (descriptorsText fd_table)) = .ok t) : Plain t := by
  rw [restoreDescriptors, descriptorsText, lines_readLines] at h
  cases hr : ((List.ofFn fd_table).flatMap readLines).foldlM restoreDescriptorLine { fd_table := fd_table' } with
  | error e =>
    rw [hr] at h
    cases h
  | ok r =>
    rw [hr] at h
    cases h
    have hclean := @Clean.read 0 _ _ _ ⟨by simp,fun j hj => absurd hj (Nat.not_lt_zero _),le_rfl⟩ (by simp) hr
    have hall := hclean.progress
    rw [List.length_ofFn] at hall
    exact fun j => hclean.table j (by have := j.isLt; omega)

theorem read_in_progress (log : TransactionLog) (flag : Bool) :
    restoreLogLine log ("In Progress: ".toList ++ (if flag then "true".toList else "false".toList)) =
      .ok { log with in_progress := flag } := by
  have hfind : ∀ t : Text, (find "In Progress:".toList ("In Progress: ".toList ++ t)).isSome = true :=
    fun t => find_label (by simp) _
  have hsubstr : ∀ t : Text, substr ("In Progress: ".toList ++ t) 13 = .ok t :=
    fun t => substr_append "In Progress: ".toList t
  rw [restoreLogLine, if_pos (hfind _), hsubstr]
  cases flag <;> rfl

theorem restore_log (log log' : TransactionLog) :
    (lines (logText log)).foldlM restoreLogLine log' = .ok log := by
  have hlines : lines (unlines (logLines log)) = logLines log := by
    refine lines_unlines fun l hl => ?_
    simp only [logLines, List.mem_cons, List.not_mem_nil, or_false] at hl
    rcases hl with rfl | rfl | rfl | rfl | rfl
    · cases log.in_progress <;> simp
    all_goals exact notMem_label _ _ (by simp) (by decide) (by rfl)
  rw [logText, hlines]
  have hidx := @labelLine "File Index: ".toList "File Index:".toList log.file_idx (by simp)
  have hsize := @labelLine "New Size: ".toList "New Size:".toList log.new_size (by simp)
  have hlast := @labelLine "Last Valid Block: ".toList "Last Valid Block:".toList log.last_valid_block (by simp)
  have hfirst := @labelLine "First New Block: ".toList "First New Block:".toList log.first_new_block (by simp)
  rw [logLines, List.foldlM_cons, read_in_progress, ok_bind]
  rw [List.foldlM_cons, restoreLogLine, if_neg (hidx.other _ (by simp)), if_pos hidx.found, hidx.field (by simp),
    Except.map, ok_bind]
  rw [List.foldlM_cons, restoreLogLine, if_neg (hsize.other _ (by simp)), if_neg (hsize.other _ (by simp)),
    if_pos hsize.found, hsize.field (by simp), Except.map, ok_bind]
  rw [List.foldlM_cons, restoreLogLine, if_neg (hlast.other _ (by simp)), if_neg (hlast.other _ (by simp)),
    if_neg (hlast.other _ (by simp)), if_pos hlast.found, hlast.field (by simp), Except.map, ok_bind]
  rw [List.foldlM_cons, restoreLogLine, if_neg (hfirst.other _ (by simp)), if_neg (hfirst.other _ (by simp)),
    if_neg (hfirst.other _ (by simp)), if_neg (hfirst.other _ (by simp)), if_pos hfirst.found, hfirst.field (by simp)]
  rfl

theorem restore_count (file_count file_count' : Int16) :
    (lines (countText file_count)).foldlM restoreCountLine file_count' = .ok file_count := by
  have hlines := @lines_unlines ["File Count: ".toList ++ decimal file_count.toInt] fun l hl => by
    obtain rfl := List.mem_singleton.mp hl
    exact notMem_label _ _ (by simp) (by decide) (by rfl)
  have hcount := @labelLine "File Count: ".toList "File Count:".toList file_count (by simp)
  rw [countText, hlines, List.foldlM_cons, restoreCountLine, if_pos hcount.found, hcount.field (by simp), ok_bind]
  rfl

def filesOf (memory : Fin MEMORY_SIZE → Int8) (fat : Block → Int16) (fd_table : Fin NUM_FILES → FileDescriptor)
    (log : TransactionLog) (file_count : Int16) : Disk where
  memory := some (memoryText memory)
  fat := some (fatText fat)
  file_descriptors := some (descriptorsText fd_table)
  transaction_log := some (logText log)
  file_count := some (countText file_count)

def diskOf (s : State) : Disk := filesOf s.memory s.fat s.fd_table s.transaction_log s.file_count

@[simp] theorem puts_saveToDisk (d : Disk) (s : State) : d.puts (saveToDisk s) = diskOf s := rfl

def State.restored (s : State) (memory : Fin MEMORY_SIZE → Int8) (fat : Block → Int16)
    (fd_table : Fin NUM_FILES → FileDescriptor) (log : TransactionLog) (file_count : Int16) : State :=
  { s with memory := memory, fat := fat, fd_table := fd_table, transaction_log := log, file_count := file_count }

/-- Only the table of descriptors can fail to be restored. -/
theorem restore_files (s : State) (memory : Fin MEMORY_SIZE → Int8) (fat : Block → Int16)
    (fd_table : Fin NUM_FILES → FileDescriptor) (log : TransactionLog) (file_count : Int16) :
    restoreFromDisk s (filesOf memory fat fd_table log file_count) =
      (restoreDescriptors s.fd_table (lines (descriptorsText fd_table))).map fun t =>
        s.restored memory fat t log file_count := by
  simp only [restoreFromDisk, filesOf, opened, ok_bind, restore_memory, restore_fat]
  cases restoreDescriptors s.fd_table (lines (descriptorsText fd_table)) with
  | error e => rfl
  | ok t =>
    simp only [ok_bind, restore_log, restore_count]
    rfl

structure SameFiles (s t : State) : Prop where
  memory : t.memory = s.memory
  fat : t.fat = s.fat
  fd_table : t.fd_table = s.fd_table
  file_count : t.file_count = s.file_count

end SOI.FileSystem
