import SOI.FileSystem.Creation

/-! # How many blocks a file holds

`create` gives a block to an empty file. `write` computes the blocks to be added from
the rounded sizes, in which an empty file has none, so the first write that makes such a
file longer gives it one block too many.
-/
namespace SOI.FileSystem
open Linked Runs Texts
variable {s s' t : State} {chain : Fin NUM_FILES → List Block} {name : Text} {size : Int16} {i : Fin NUM_FILES}
  {past : Option FileDescriptor} {buffer : ℕ → Int8} {call : Call}

def Reply.isSuccess : Reply → Bool
  | .create st => st = .FILE_CREATE_SUCCESS
  | .open_ st => st = .FILE_OPEN_SUCCESS
  | .close st => st = .FILE_CLOSE_SUCCESS
  | .read st _ => st = .FILE_READ_SUCCESS
  | .write st => st = .FILE_WRITE_SUCCESS
  | .delete_ st => st = .FILE_DELETE_SUCCESS

def succeed (past : Option FileDescriptor) (s : State) (call : Call) : Option State :=
  match (perform past call s).result with
  | .ok (r,s') => if r.isSuccess then some s' else none
  | .error _ => none

def Allowed : Call → Prop
  | .create _ size => 0 ≤ size.toInt
  | .delete_ _ => False
  | _ => True

/-- Every file in use has as many blocks as it needs. -/
def BlocksExact (s : State) : Prop := ∀ i, Live s i →
  ∃ xs, Chain s.fat (s.fd_table i).starting_block xs ∧ xs.length = blocksNeeded (s.fd_table i).size.toInt

/-- The call does not make an empty file longer. -/
def GrowsNoEmpty (s : State) : Call → Prop
  | .write name _ size => ∀ r ∈ writeTarget name s, (s.fd_table r.2).size = 0 →
      (s.open_file_fd_table r.1).offset.toInt + size.toInt ≤ 0
  | _ => True

instance (s : State) : (call : Call) → Decidable (GrowsNoEmpty s call)
  | .write name _ size => inferInstanceAs (Decidable (∀ r ∈ writeTarget name s, (s.fd_table r.2).size = 0 →
      (s.open_file_fd_table r.1).offset.toInt + size.toInt ≤ 0))
  | .create _ _ => isTrue trivial
  | .open_ _ => isTrue trivial
  | .close _ => isTrue trivial
  | .read _ _ => isTrue trivial
  | .delete_ _ => isTrue trivial

theorem succeed_iff : succeed past s call = some s' ↔ ∃ r, (perform past call s).result = .ok (r,s') ∧ r.isSuccess = true := by
  unfold succeed
  cases (perform past call s).result with
  | error e => simp
  | ok r =>
    obtain ⟨r,t⟩ := r
    by_cases hr : r.isSuccess = true
    · simp [hr]
    · simp only [Except.ok.injEq, Prod.mk.injEq]
      rw [if_neg hr]
      constructor
      · intro h
        cases h
      · rintro ⟨r',⟨rfl,-⟩,hr'⟩
        exact absurd hr' hr

/-- The chains are the files' own and of the length that they need, and every slot is free or
holds a file in use. -/
structure Exact (s : State) (chain : Fin NUM_FILES → List Block) : Prop where
  chained : Chained s chain
  size_nonneg : ∀ i, Live s i → 0 ≤ (s.fd_table i).size.toInt
  length : ∀ i, Live s i → (chain i).length = blocksNeeded (s.fd_table i).size.toInt
  entries : ∀ k, (s.open_file_fd_table k).idx = NO_OPENED_FILE ∨
    ∃ i, Live s i ∧ (s.open_file_fd_table k).idx.toInt = i

theorem Exact.blocks (h : Exact s chain) : BlocksExact s := fun i hi => ⟨chain i,h.chained.seg i hi,h.length i hi⟩

theorem blocksNeeded_eq {n : ℤ} (h : 0 ≤ n) : blocksNeeded n = max 1 ((n + 31) / 32).toNat := by
  rw [blocksNeeded, blocksFor_eq h]

theorem Exact.room (h : Exact s chain) (hi : Live s i) : (s.fd_table i).size.toInt ≤ BLOCK_SIZE * (chain i).length := by
  have hnonneg := h.size_nonneg i hi
  rw [h.length i hi, blocksNeeded_eq hnonneg]
  push_cast
  omega

theorem Exact.congr (h : Exact s chain) (hfat : t.fat = s.fat) (htable : t.fd_table = s.fd_table)
    (hcount : t.file_count = s.file_count)
    (hentries : ∀ k, (t.open_file_fd_table k).idx = (s.open_file_fd_table k).idx ∨
      (t.open_file_fd_table k).idx = NO_OPENED_FILE ∨ ∃ i, Live s i ∧ (t.open_file_fd_table k).idx.toInt = i) :
    Exact t chain := by
  have hlive : ∀ i, Live t i ↔ Live s i := fun i => by rw [Live, Live, hcount]
  refine ⟨h.chained.congr hfat hcount fun i => by rw [htable],fun i hi => ?_,fun i hi => ?_,fun k => ?_⟩
  · rw [htable]
    exact h.size_nonneg i ((hlive i).mp hi)
  · rw [htable]
    exact h.length i ((hlive i).mp hi)
  · rcases hentries k with hsame | hfree | ⟨i,hi,hidx⟩
    · rw [hsame]
      exact (h.entries k).imp_right (Exists.imp fun i hi => ⟨(hlive i).mpr hi.1,hi.2⟩)
    · exact Or.inl hfree
    · exact Or.inr ⟨i,(hlive i).mpr hi,hidx⟩

theorem Created.length_eq (c : Created name size s s') (hsize : 0 ≤ size.toInt) {xs : List Block}
    (h : Chain s'.fat (blockPtr c.starting_block) xs) : xs.length = blocksNeeded size.toInt := by
  have hlength := length_freeBlocks s.fat
  have henough := c.enough
  have hhead := c.first
  rw [firstFree_eq_head] at hhead
  obtain ⟨rest,hfree⟩ := List.head?_eq_some_iff.mp hhead
  have hn : blocksNeeded size.toInt ≤ (c.starting_block :: rest).length := by
    rw [hfree] at hlength
    unfold blocksNeeded
    rw [List.length_cons] at hlength ⊢
    omega
  obtain ⟨fat',l,hmark,hchain,-⟩ := markNewFile_freeBlocks hfree hsize hn
  have hfat : fat' = s'.fat := by
    rw [c.marked] at hmark
    rw [c.result]
    exact (congrArg Prod.fst (Except.ok.inj hmark)).symm
  rw [hfat] at hchain
  rw [Seg.unique blockPtr_injective blockPtr_ne_end h hchain, List.length_take, Nat.min_eq_left hn]

theorem Exact.create (h : Exact s chain) (c : Created name size s s') (hsize : 0 ≤ size.toInt) :
    ∃ chain', Exact s' chain' := by
  obtain ⟨xs,hchained,-⟩ := h.chained.create c hsize
  have hlive := c.live_iff
  have hentries : s'.open_file_fd_table = s.open_file_fd_table := by
    rw [c.result]
    rfl
  refine ⟨_,hchained,fun j hj => ?_,fun j hj => ?_,fun k => ?_⟩
  · rcases (hlive j).mp hj with rfl | hj
    · rw [c.entry_self]
      exact hsize
    · rw [c.entry_of_ne (c.ne_of_live hj)]
      exact h.size_nonneg j hj
  · rcases (hlive j).mp hj with rfl | hj
    · have hseg := hchained.seg c.i ((hlive c.i).mpr (Or.inl rfl))
      rw [c.entry_self] at hseg ⊢
      exact c.length_eq hsize hseg
    · rw [c.entry_of_ne (c.ne_of_live hj), Function.update_of_ne (c.ne_of_live hj)]
      exact h.length j hj
  · rw [hentries]
    exact (h.entries k).imp_right (Exists.imp fun i hi => ⟨(hlive i).mpr (Or.inr hi.1),hi.2⟩)

theorem Exact.target (h : Exact s chain) (w : Writing name s) : Live s w.fd_index := by
  rcases h.entries w.k with hfree | ⟨i,hi,hidx⟩
  · exact absurd hfree w.is_open
  · have hindex := index_eq_ok w.descriptor
    rw [hidx] at hindex
    obtain rfl : i = w.fd_index := Fin.ext (by omega)
    exact hi

/-- The file has become longer by the difference of the rounded sizes. -/
theorem Exact.grown (h : Exact s chain) (hi : Live s i) {file_idx : Fin NUM_FILES} {new_size : ℤ}
    (hlt : (s.fd_table i).size.toInt < new_size) (hgrow : (grow file_idx i new_size s).result = .ok (true,t)) :
    ∃ ys, Chained t (Function.update chain i (chain i ++ ys)) ∧ (t.fd_table i).size.toInt = new_size ∧
      (∀ j, j ≠ i → t.fd_table j = s.fd_table j) ∧
      (chain i ++ ys).length = blocksNeeded new_size + if (s.fd_table i).size = 0 then 1 else 0 := by
  have hnonneg := h.size_nonneg i hi
  obtain ⟨ys,hlen,hchained,-⟩ := h.chained.grow hi hgrow
  have g := longEnough_of_grow h.chained.wellChained hi hnonneg (h.room hi) hlt hgrow hlen hchained.wellChained
  have hsize : (t.fd_table i).size.toInt = new_size := by
    rw [g.size, max_eq_right hlt.le]
  refine ⟨ys,hchained,hsize,g.others,?_⟩
  have hold := h.length i hi
  have hzero : (s.fd_table i).size = 0 ↔ (s.fd_table i).size.toInt = 0 := Int16.toInt_inj.symm
  rw [blocksNeeded_eq hnonneg] at hold
  rw [additionalBlocks, blocksFor_eq hnonneg, blocksFor_eq (by omega)] at hlen
  rw [List.length_append, blocksNeeded_eq (by omega)]
  split_ifs with hempty
  · have hnone := hzero.mp hempty
    omega
  · have hsome := mt hzero.mpr hempty
    omega

theorem Exact.written (h : Exact s chain) (hwrite : (write name buffer size s).result = .ok (.FILE_WRITE_SUCCESS,s')) :
    ∃ w : Writing name s, (w.new_size size ≤ w.file.size.toInt ∧ Exact s' chain) ∨
      (w.file.size.toInt < w.new_size size ∧ ∃ ys,
        Chained s' (Function.update chain w.fd_index (chain w.fd_index ++ ys)) ∧
        (s'.fd_table w.fd_index).size.toInt = w.new_size size ∧
        (∀ j, j ≠ w.fd_index → s'.fd_table j = s.fd_table j) ∧
        (∀ k, (s'.open_file_fd_table k).idx = (s.open_file_fd_table k).idx) ∧ s'.file_count = s.file_count ∧
        (chain w.fd_index ++ ys).length =
          blocksNeeded (w.new_size size) + if w.file.size = 0 then 1 else 0) := by
  rcases write_cases hwrite with ⟨hst,-⟩ | ⟨w,t,⟨ht,hat⟩ | ⟨-,hst,-⟩⟩
  · exact absurd rfl hst
  · rcases writeAt_cases hat with ⟨hst,-⟩ | ⟨-,-,memory,rfl⟩
    · cases hst
    have hidx : ∀ k, ((({ t with memory := memory } : State).advance w.k size).open_file_fd_table k).idx =
        (t.open_file_fd_table k).idx := by
      intro k
      by_cases hk : k = w.k
      · subst hk
        simp [State.advance, State.setOpened]
      · rw [advance_of_ne hk]
    rcases ht with ⟨hle,rfl⟩ | ⟨hlt,hgrow⟩
    · exact ⟨w,Or.inl ⟨hle,h.congr rfl rfl rfl fun k => Or.inl (hidx k)⟩⟩
    · obtain ⟨ys,hchained,hsize,hothers,hlen⟩ := h.grown (h.target w) hlt hgrow
      have hsame := sameEntries_grow hgrow
      refine ⟨w,Or.inr ⟨hlt,ys,advance_chained memory hchained,hsize,hothers,fun k => ?_,hsame.file_count,hlen⟩⟩
      rw [hidx k, hsame.open_file_fd_table]
  · cases hst

/-- If an empty file has not become longer, the chains still have the lengths that the
files need. -/
theorem Exact.after_write (h : Exact s chain) (hwrite : (write name buffer size s).result = .ok (.FILE_WRITE_SUCCESS,s'))
    (hgrows : GrowsNoEmpty s (.write name buffer size)) : ∃ chain', Exact s' chain' := by
  obtain ⟨w,⟨-,hs'⟩ | ⟨hlt,ys,hchained,hsize,hothers,hidx,hcount,hlen⟩⟩ := h.written hwrite
  · exact ⟨chain,hs'⟩
  · have hnonneg : 0 ≤ w.file.size.toInt := h.size_nonneg _ (h.target w)
    have hlive : ∀ j, Live s' j ↔ Live s j := fun j => by rw [Live, Live, hcount]
    have hsome : w.file.size ≠ 0 := by
      intro hzero
      have hle : w.new_size size ≤ 0 := hgrows (w.k,w.fd_index) w.target hzero
      omega
    rw [if_neg hsome, add_zero] at hlen
    refine ⟨_,hchained,fun j hj => ?_,fun j hj => ?_,fun k => ?_⟩
    · by_cases hji : j = w.fd_index
      · rw [hji, hsize]
        omega
      · rw [hothers j hji]
        exact h.size_nonneg j ((hlive j).mp hj)
    · by_cases hji : j = w.fd_index
      · subst hji
        rw [Function.update_self, hsize]
        exact hlen
      · rw [Function.update_of_ne hji, hothers j hji]
        exact h.length j ((hlive j).mp hj)
    · rw [hidx]
      exact (h.entries k).imp_right (Exists.imp fun i hi => ⟨(hlive i).mpr hi.1,hi.2⟩)

theorem Exact.not_grown (h : Exact s chain) (hwrite : (write name buffer size s).result = .ok (.FILE_WRITE_SUCCESS,s'))
    (hblocks : BlocksExact s') : GrowsNoEmpty s (.write name buffer size) := by
  obtain ⟨w,⟨hle,-⟩ | ⟨-,ys,hchained,hsize,-,-,hcount,hlen⟩⟩ := h.written hwrite
  all_goals
    intro r hr hzero
    obtain rfl : (w.k,w.fd_index) = r := Option.some.inj (w.target.symm.trans hr)
    have hfile : w.file.size = 0 := hzero
  · rw [hfile] at hle
    exact hle
  · have hi : Live s' w.fd_index := by
      rw [Live, hcount]
      exact h.target w
    obtain ⟨xs,hxs,hexact⟩ := hblocks w.fd_index hi
    have hseg := hchained.seg _ hi
    rw [Function.update_self] at hseg
    rw [hsize, Seg.unique blockPtr_injective blockPtr_ne_end hxs hseg, hlen, if_pos hfile] at hexact
    omega

theorem Exact.step (h : Exact s chain) (hcall : Allowed call) (hstep : succeed past s call = some t)
    (hgrows : GrowsNoEmpty s call) : ∃ chain', Exact t chain' := by
  obtain ⟨r,hr,hsuccess⟩ := succeed_iff.mp hstep
  cases call with
  | create name size =>
    obtain ⟨st,hcreate,rfl⟩ := map_ok.mp hr
    rcases create_cases hcreate with ⟨-,rfl⟩ | ⟨-,⟨c⟩⟩
    · exact ⟨chain,h⟩
    · exact h.create c hcall
  | open_ name =>
    obtain ⟨st,hopen,rfl⟩ := map_ok.mp hr
    rcases open_cases hopen with ⟨-,rfl⟩ | ⟨-,i,k,hfind,-,rfl⟩
    · exact ⟨chain,h⟩
    · refine ⟨chain,h.congr rfl rfl rfl fun l => ?_⟩
      by_cases hl : l = k
      · subst hl
        refine Or.inr (Or.inr ⟨i,(find_live hfind).1,?_⟩)
        show (Function.update s.open_file_fd_table l _ l).idx.toInt = _
        rw [Function.update_self]
        exact toInt_fileIndex i
      · exact Or.inl (by simp [State.setOpened, hl])
  | close name =>
    obtain ⟨st,hclose,rfl⟩ := map_ok.mp hr
    rcases close_cases hclose with rfl | ⟨k,-,-,rfl⟩
    · exact ⟨chain,h⟩
    · refine ⟨chain,h.congr rfl rfl rfl fun l => ?_⟩
      by_cases hl : l = k
      · subst hl
        exact Or.inr (Or.inl (by simp [State.setOpened]))
      · exact Or.inl (by simp [State.setOpened, hl])
  | read name size =>
    obtain ⟨st,hread,rfl⟩ := map_ok.mp hr
    rcases read_cases hread with rfl | ⟨k,n,rfl⟩
    · exact ⟨chain,h⟩
    · refine ⟨chain,h.congr rfl rfl rfl fun l => Or.inl ?_⟩
      by_cases hl : l = k
      · subst hl
        simp [State.advance, State.setOpened]
      · rw [advance_of_ne hl]
  | write name buffer size =>
    obtain ⟨st,hwrite,rfl⟩ := map_ok.mp hr
    obtain rfl : st = .FILE_WRITE_SUCCESS := of_decide_eq_true hsuccess
    exact h.after_write hwrite hgrows
  | delete_ name => exact absurd hcall id

theorem Exact.grows_no_empty (h : Exact s chain) (hstep : succeed past s call = some t)
    (hblocks : BlocksExact t) : GrowsNoEmpty s call := by
  obtain ⟨r,hr,hsuccess⟩ := succeed_iff.mp hstep
  cases call with
  | write name buffer size =>
    obtain ⟨st,hwrite,rfl⟩ := map_ok.mp hr
    obtain rfl : st = .FILE_WRITE_SUCCESS := of_decide_eq_true hsuccess
    exact h.not_grown hwrite hblocks
  | create name size => trivial
  | open_ name => trivial
  | close name => trivial
  | read name size => trivial
  | delete_ name => trivial

theorem exact_empty (flag : Bool) : Exact (emptyFileSystem flag) fun _ => [] := by
  have hlive : ∀ i, ¬ Live (emptyFileSystem flag) i := fun i hi => by
    have hlt : (i : ℤ) < 0 := hi
    omega
  exact ⟨chained_empty flag,fun i hi => absurd hi (hlive i),fun i hi => absurd hi (hlive i),fun _ => Or.inl rfl⟩

/-- In a run of calls that all return success, every file has as many blocks as it needs
in every state reached, if and only if no call makes an empty file longer. -/
theorem blocks_exact_iff (past : Option FileDescriptor) (flag : Bool) {calls : List Call}
    (hcalls : ∀ call ∈ calls, Allowed call) (hrun : run (succeed past) (emptyFileSystem flag) calls = some s) :
    (∀ ls, ls <+: calls → ∀ t, run (succeed past) (emptyFileSystem flag) ls = some t → BlocksExact t) ↔
      Meets (succeed past) GrowsNoEmpty (emptyFileSystem flag) calls := by
  rw [← meets_reached_iff (exact_empty flag).blocks]
  have hok : ∀ u call t, (∃ chain, Exact u chain) → Allowed call → succeed past u call = some t →
      ((∀ v, succeed past u call = some v → BlocksExact v) ↔ GrowsNoEmpty u call) := by
    rintro u call t ⟨chain,h⟩ hcall hstep
    constructor
    · intro hall
      exact h.grows_no_empty hstep (hall t hstep)
    · intro hgrows v hv
      obtain ⟨chain',h'⟩ := h.step hcall hv hgrows
      exact h'.blocks
  refine meets_congr_of_run (P := fun u => ∃ chain, Exact u chain) (p := Allowed) ?_ hok hcalls ⟨_,exact_empty flag⟩ hrun
  rintro u call t ⟨chain,h⟩ hcall hall hstep
  exact h.step hcall hstep (h.grows_no_empty hstep (hall t hstep))

theorem longer_exact : ∃ s, run (succeed none) (emptyFileSystem false)
    [.create ['a'] 1,.open_ ['a'],.write ['a'] (fun _ => 7) 40] = some s ∧ BlocksExact s := by
  have hruns : (run (succeed none) (emptyFileSystem false)
      [.create ['a'] 1,.open_ ['a'],.write ['a'] (fun _ => 7) 40]).isSome = true := by decide +kernel
  obtain ⟨s,hrun⟩ := Option.isSome_iff_exists.mp hruns
  have hcalls : ∀ call ∈ [Call.create ['a'] 1,.open_ ['a'],.write ['a'] (fun _ => 7) 40], Allowed call := by
    simp only [List.forall_mem_cons, List.not_mem_nil, false_imp_iff, implies_true, and_true]
    exact ⟨(by decide : (0 : ℤ) ≤ (1 : Int16).toInt),trivial,trivial⟩
  have hmeets : Meets (succeed none) GrowsNoEmpty (emptyFileSystem false)
      [.create ['a'] 1,.open_ ['a'],.write ['a'] (fun _ => 7) 40] := by decide +kernel
  exact ⟨s,hrun,(blocks_exact_iff none false hcalls hrun).mpr hmeets _ (List.prefix_refl _) s hrun⟩

/-- Ten bytes written to an empty file take a second block. -/
theorem empty_file_gets_two_blocks : ∃ s, run (succeed none) (emptyFileSystem false)
    [.create ['a'] 0,.open_ ['a'],.write ['a'] (fun _ => 7) 10] = some s ∧ (s.fd_table 0).size = 10 ∧
      Chain s.fat (s.fd_table 0).starting_block [⟨0,by decide⟩,⟨1,by decide⟩] ∧ ¬ BlocksExact s := by
  have hruns : ((run (succeed none) (emptyFileSystem false)
      [.create ['a'] 0,.open_ ['a'],.write ['a'] (fun _ => 7) 10]).any fun s =>
        (s.fd_table 0).size = 10 && Live s 0 && (s.fd_table 0).starting_block = 0 && s.fat ⟨0,by decide⟩ = 1 &&
          s.fat ⟨1,by decide⟩ = END_OF_CHAIN) = true := by decide +kernel
  obtain ⟨s,hrun,hs⟩ := (Option.any_eq_true _ _).mp hruns
  simp only [Bool.and_eq_true, decide_eq_true_eq] at hs
  obtain ⟨⟨⟨⟨hsize,hlive⟩,hstart⟩,hfirst⟩,hsecond⟩ := hs
  have hchain : Chain s.fat (s.fd_table 0).starting_block [⟨0,by decide⟩,⟨1,by decide⟩] := ⟨hstart,hfirst,hsecond⟩
  refine ⟨s,hrun,hsize,hchain,fun hblocks => ?_⟩
  obtain ⟨xs,hxs,hlen⟩ := hblocks 0 hlive
  rw [Seg.unique blockPtr_injective blockPtr_ne_end hxs hchain, hsize] at hlen
  exact absurd hlen (by decide)

end SOI.FileSystem
