import SOI.FileSystem.Calls

/-! # Chains of blocks in the FAT

What the loops that walk, build, lengthen and free a chain do to it.
-/
namespace SOI.FileSystem
open Linked

/-- From the stored number the links visit these blocks and end. -/
abbrev Chain (fat : Block → Int16) (p : Int16) (xs : List Block) : Prop := Seg blockPtr fat p xs END_OF_CHAIN

variable {fat fat' : Block → Int16} {p : Int16} {xs ys : List Block} {b c : Block} {s s' : State}

theorem Chain.nodup (h : Chain fat p xs) : xs.Nodup := Seg.nodup blockPtr_injective blockPtr_ne_end h

theorem Chain.length_le (h : Chain fat p xs) : xs.length ≤ NUM_BLOCKS := by
  have hlen := (Chain.nodup h).length_le_card
  rwa [Fintype.card_fin] at hlen

theorem Chain.used (h : Chain fat p xs) (hb : b ∈ xs) : fat b ≠ FREE_BLOCK := by
  obtain ⟨front,rest,rfl⟩ := List.append_of_mem hb
  obtain ⟨_,-,-,hrest⟩ := seg_append.mp h
  cases rest with
  | nil =>
    rw [seg_nil.mp hrest]
    decide
  | cons c rest =>
    rw [hrest.1]
    exact blockPtr_ne_free c

theorem Chain.cons_ptr (h : Chain fat p (b :: xs)) : p = blockPtr b := h.1

theorem Chain.index_ok (h : Chain fat p (b :: xs)) : index NUM_BLOCKS p.toInt = .ok b := by
  rw [h.1, index_blockPtr]

theorem Chain.link_ne_end (h : Chain fat p (b :: xs)) (hne : xs ≠ []) : fat b ≠ END_OF_CHAIN := by
  cases xs with
  | nil => exact absurd rfl hne
  | cons c xs =>
    rw [Chain.cons_ptr h.2]
    exact (blockPtr_ne_end c).symm

theorem index_eq_ptr (h : index NUM_BLOCKS p.toInt = .ok b) : p = blockPtr b := by
  have hp := index_eq_ok h
  rw [← Int16.toInt_inj, blockPtr_toInt, hp]

/-- The end of a chain is found. -/
theorem lastBlock_eq {fuel : ℕ} (h : Chain fat p (xs ++ [b])) (hfuel : xs.length < fuel) :
    lastBlock fat fuel p = .ok b := by
  induction xs generalizing p fuel with
  | nil =>
    obtain ⟨fuel,rfl⟩ : ∃ n, fuel = n + 1 := ⟨fuel - 1,by omega⟩
    rw [lastBlock, Chain.index_ok h]
    exact if_pos h.2
  | cons x xs ih =>
    obtain ⟨fuel,rfl⟩ : ∃ n, fuel = n + 1 := ⟨fuel - 1,by omega⟩
    have hlink : fat x ≠ END_OF_CHAIN := Chain.link_ne_end h (List.append_ne_nil_of_right_ne_nil xs (List.cons_ne_nil b []))
    rw [lastBlock, Chain.index_ok h]
    exact (if_neg hlink).trans (ih h.2 (by simpa using hfuel))

theorem lastBlock_chain {fuel : ℕ} (h : Chain fat p xs) (hlast : lastBlock fat fuel p = .ok b) (hne : xs ≠ []) :
    ∃ front, xs = front ++ [b] := by
  induction xs generalizing p fuel with
  | nil => exact absurd rfl hne
  | cons x xs ih =>
    cases fuel with
    | zero => cases hlast
    | succ fuel =>
      rw [lastBlock, Chain.index_ok h] at hlast
      by_cases hend : fat x = END_OF_CHAIN
      · obtain rfl : x = b := Except.ok.inj ((if_pos hend).symm.trans hlast)
        cases xs with
        | nil => exact ⟨[],rfl⟩
        | cons y xs => exact absurd (hend.symm.trans h.2.1) (blockPtr_ne_end y)
      · have hrest : lastBlock fat fuel (fat x) = .ok b := (if_neg hend).symm.trans hlast
        cases xs with
        | nil => exact absurd (seg_nil.mp h.2) hend
        | cons y xs =>
          obtain ⟨front,hfront⟩ := ih h.2 hrest (List.cons_ne_nil y xs)
          exact ⟨x :: front,by rw [hfront]; rfl⟩

theorem lastBlock_walked {fuel : ℕ} (h : lastBlock fat fuel p = .ok b) : ∃ front, Chain fat p (front ++ [b]) := by
  induction fuel generalizing p with
  | zero => cases h
  | succ fuel ih =>
    obtain ⟨c,hc,h⟩ := bind_ok.mp h
    split_ifs at h with hend
    · cases h
      exact ⟨[],index_eq_ptr hc,hend⟩
    · obtain ⟨front,hfront⟩ := ih h
      exact ⟨c :: front,index_eq_ptr hc,hfront⟩

theorem clearChain_eq {ends : Int16 → Bool} {fuel : ℕ} (h : Chain fat p xs) (hend : ends END_OF_CHAIN = true)
    (hptr : ∀ b, ends (blockPtr b) = false) (hfuel : xs.length < fuel) :
    clearChain ends fuel fat p = .ok fun b => if b ∈ xs then FREE_BLOCK else fat b := by
  induction xs generalizing p fuel fat with
  | nil =>
    obtain ⟨fuel,rfl⟩ : ∃ n, fuel = n + 1 := ⟨fuel - 1,by omega⟩
    rw [clearChain, seg_nil.mp h, if_pos hend]
    simp
  | cons x xs ih =>
    obtain ⟨fuel,rfl⟩ : ∃ n, fuel = n + 1 := ⟨fuel - 1,by omega⟩
    have hx : x ∉ xs := (List.nodup_cons.mp (Chain.nodup h)).1
    have hrest : Chain (Function.update fat x FREE_BLOCK) (fat x) xs := h.2.update hx _
    have hnot : ¬ ends p = true := by rw [h.1, hptr x]; exact Bool.false_ne_true
    rw [clearChain, if_neg hnot, Chain.index_ok h]
    refine (ih hrest (by simpa using hfuel)).trans ?_
    congr 1
    funext b
    by_cases hb : b = x
    · subst hb
      simp [hx]
    · simp [hb]

/-- Only a complete chain can be cleared: a block that comes a second time is free. -/
theorem clearChain_chain {fuel : ℕ} (h : clearChain (fun b => b = END_OF_CHAIN) fuel fat p = .ok fat') :
    ∃ xs, Chain fat p xs := by
  induction fuel generalizing fat p with
  | zero => cases h
  | succ fuel ih =>
    unfold clearChain at h
    split_ifs at h with hend
    · exact ⟨[],seg_nil.mpr (by simpa using hend)⟩
    · obtain ⟨b,hb,h⟩ := bind_ok.mp h
      obtain ⟨xs,hxs⟩ := ih h
      have hout : b ∉ xs := fun hin => Chain.used hxs hin (Function.update_self ..)
      refine ⟨b :: xs,index_eq_ptr hb,hxs.congr fun c hc => ?_⟩
      have hcb : c ≠ b := fun heq => hout (heq ▸ hc)
      rw [Function.update_of_ne hcb]

theorem clearChain_complete (h : Chain fat p xs) :
    clearChain (fun b => b = END_OF_CHAIN) (NUM_BLOCKS + 2) fat p = .ok fun b => if b ∈ xs then FREE_BLOCK else fat b := by
  have hends : ∀ b, decide (blockPtr b = END_OF_CHAIN) = false := fun b => decide_eq_false (blockPtr_ne_end b).symm
  have hlen := Chain.length_le h
  exact clearChain_eq h (by decide) hends (by omega)

theorem clearChain_isSome :
    (clearChain (fun b => b = END_OF_CHAIN) (NUM_BLOCKS + 2) fat p).toOption.isSome = true ↔ ∃ xs, Chain fat p xs := by
  constructor
  · intro h
    cases hclear : clearChain (fun b => b = END_OF_CHAIN) (NUM_BLOCKS + 2) fat p with
    | error e =>
      rw [hclear] at h
      cases h
    | ok fat' => exact clearChain_chain hclear
  · rintro ⟨xs,hxs⟩
    rw [clearChain_complete hxs]
    rfl

theorem allocate_chain {n : ℕ} {l l' : Int16} (hb : fat b = FREE_BLOCK)
    (h : allocate (n + 1) (some b) (fat,l) = .ok (fat',l')) :
    ∃ xs, xs.length = n ∧ Chain fat' (blockPtr b) (b :: xs) ∧ (∀ c ∈ b :: xs, fat c = FREE_BLOCK) ∧
      ∀ c ∉ b :: xs, fat' c = fat c := by
  induction n generalizing b fat l with
  | zero =>
    have hfat : Function.update (Function.update fat b END_OF_CHAIN) b END_OF_CHAIN = fat' :=
      congrArg Prod.fst (Except.ok.inj h)
    subst hfat
    refine ⟨[],rfl,⟨rfl,by simp⟩,by simpa using hb,fun c hc => ?_⟩
    have hcb : c ≠ b := by simpa using hc
    rw [Function.update_of_ne hcb, Function.update_of_ne hcb]
  | succ n ih =>
    rw [allocate] at h
    cases hnext : firstFreeBlock (Function.update fat b END_OF_CHAIN) with
    | none =>
      rw [hnext] at h
      cases h
    | some c =>
      rw [hnext] at h
      have hc := firstFree_free hnext
      have hcb : c ≠ b := by
        rintro rfl
        rw [Function.update_self] at hc
        exact absurd hc (by decide)
      rw [Function.update_of_ne hcb] at hc
      have hlink : (if n + 1 = 0 then END_OF_CHAIN else orNone (some c)) = blockPtr c := rfl
      rw [hlink, Function.update_idem] at h
      have hother : ∀ d, d ≠ b → Function.update fat b (blockPtr c) d = fat d := fun d hd =>
        Function.update_of_ne hd _ _
      obtain ⟨xs,hlen,hchain,hfree,hframe⟩ := ih ((hother c hcb).trans hc) h
      have hbout : b ∉ c :: xs := fun hin => by
        have hbfree := hfree b hin
        rw [Function.update_self] at hbfree
        exact blockPtr_ne_free c hbfree
      refine ⟨c :: xs,by rw [List.length_cons, hlen],⟨rfl,?_⟩,fun d hd => ?_,fun d hd => ?_⟩
      · rw [hframe b hbout, Function.update_self]
        exact hchain
      · rcases List.mem_cons.mp hd with rfl | hd
        · exact hb
        · rw [← hother d fun heq => hbout (heq ▸ hd)]
          exact hfree d hd
      · obtain ⟨hdb,hd⟩ := not_or.mp (mt List.mem_cons.mpr hd)
        rw [hframe d hd, hother d hdb]

theorem allocate_free {n : ℕ} {r r' : (Block → Int16) × Int16} {cur : Option Block} (h : allocate n cur r = .ok r')
    (hb : r'.1 b = FREE_BLOCK) : r.1 b = FREE_BLOCK := by
  induction n generalizing cur r with
  | zero =>
    cases h
    exact hb
  | succ n ih =>
    obtain ⟨fat,l⟩ := r
    cases cur with
    | none => cases h
    | some c =>
      rw [allocate] at h
      have hprev := ih h
      dsimp only at hprev ⊢
      by_cases hbc : b = c
      · subst hbc
        rw [Function.update_self] at hprev
        by_cases hn : n = 0
        · rw [if_pos hn] at hprev
          cases hprev
        · rw [if_neg hn] at hprev
          cases hnext : firstFreeBlock (Function.update fat b END_OF_CHAIN) with
          | none =>
            obtain ⟨m,rfl⟩ := Nat.exists_eq_succ_of_ne_zero hn
            rw [hnext] at h
            cases h
          | some d =>
            rw [hnext] at hprev
            exact absurd hprev (blockPtr_ne_free d)
      · rwa [Function.update_of_ne hbc, Function.update_of_ne hbc] at hprev

theorem markNewFile_free {size l : Int16} {n : ℕ} (h : markNewFile fat c size n = .ok (fat',l))
    (hb : fat' b = FREE_BLOCK) : fat b = FREE_BLOCK := by
  have hmarked := allocate_free h hb
  split_ifs at hmarked
  · dsimp only at hmarked
    by_cases hbc : b = c
    · subst hbc
      rw [Function.update_self] at hmarked
      cases hmarked
    · rwa [Function.update_of_ne hbc] at hmarked
  · exact hmarked

theorem countFree_le_of_free (h : ∀ b, fat' b = FREE_BLOCK → fat b = FREE_BLOCK) :
    countFreeBlocks fat' ≤ countFreeBlocks fat := by
  apply List.countP_mono_left
  intro b _ hb
  exact decide_eq_true (h b (of_decide_eq_true hb))

theorem countFree_le (fat : Block → Int16) : countFreeBlocks fat ≤ 64 := by
  have hle := List.countP_le_length (p := fun b => decide (fat b = FREE_BLOCK)) (l := List.finRange NUM_BLOCKS)
  rwa [List.length_finRange] at hle

theorem blocksFor_eq {n : ℤ} (h : 0 ≤ n) : blocksFor n = (n + 31) / 32 := by
  have hnum : n + ((BLOCK_SIZE : ℕ) : ℤ) - 1 = n + 31 := by
    push_cast
    omega
  rw [blocksFor, hnum, Int.tdiv_eq_ediv_of_nonneg (by omega)]
  rfl

theorem blocksFor_le_iff {n : ℤ} {m : ℕ} (h : 0 ≤ n) : blocksFor n ≤ m ↔ n ≤ BLOCK_SIZE * m := by
  rw [blocksFor_eq h]
  push_cast
  omega

/-- The chain of a new file: free blocks, and at least one. -/
theorem markNewFile_chain {size l : Int16} (hb : fat b = FREE_BLOCK) (hsize : 0 ≤ size.toInt)
    (h : markNewFile fat b size (blocksFor size.toInt).toNat = .ok (fat',l)) :
    ∃ xs, Chain fat' (blockPtr b) (b :: xs) ∧ blocksFor size.toInt ≤ (b :: xs).length ∧
      (∀ c ∈ b :: xs, fat c = FREE_BLOCK) ∧ ∀ c ∉ b :: xs, fat' c = fat c := by
  by_cases hzero : size = 0
  · subst hzero
    have hfat : Function.update fat b END_OF_CHAIN = fat' := congrArg Prod.fst (Except.ok.inj h)
    subst hfat
    refine ⟨[],⟨rfl,by simp⟩,?_,by simpa using hb,fun c hc => ?_⟩
    · rw [show (0 : Int16).toInt = 0 from rfl, blocksFor_eq le_rfl]
      simp
    exact Function.update_of_ne (by simpa using hc) _ _
  · have hpos : 0 < size.toInt := by
      refine lt_of_le_of_ne hsize fun heq => hzero ?_
      exact Int16.toInt_inj.mp heq.symm
    have hblocks : 0 < blocksFor size.toInt := by
      rw [blocksFor_eq hsize]
      omega
    obtain ⟨n,hn⟩ : ∃ n : ℕ, (blocksFor size.toInt).toNat = n + 1 := ⟨(blocksFor size.toInt).toNat - 1,by omega⟩
    rw [markNewFile, if_neg hzero, hn] at h
    obtain ⟨xs,hlen,hchain,hfree,hframe⟩ := allocate_chain hb h
    refine ⟨xs,hchain,?_,hfree,hframe⟩
    rw [List.length_cons, hlen]
    omega

end SOI.FileSystem
