import LamaServer.Lib.Except
import LamaServer.Proofs.DynTallocr
import LamaServer.Tallocr

/-!
# The dynamic allocator accounts for its range

The free blocks should be in order with what is allocated between them, and the two together be the
whole range. A size that leaves the 64 bits when it is aligned becomes 0, and the block for it is
empty: it lies where the next one will. Without a free block, which only an alignment of 1 comes to,
the one before the first is read.
-/

namespace LamaServer

open FreeList Transition

/-- The free list is exact. -/
structure ExactFreeList (alignment : ℕ) (s : Measured) : Prop where
  /-- sorted, disjoint and never adjacent -/
  sorted : s.alloc.freeBlocks.Pairwise fun b c => b.offset + b.size < c.offset
  nonempty : ∀ b ∈ s.alloc.freeBlocks, 0 < b.size
  tiles : cover (s.blocks alignment ++ s.alloc.freeBlocks) = {a | a < sizeMax / 2}
  disjoint : Apart (s.blocks alignment ++ s.alloc.freeBlocks)
  aligned : ∀ b ∈ s.blocks alignment, alignment ∣ b.offset
  maxSize : s.alloc.maxSize = s.ends.foldr max 0

/-- The free list is exact in every run. -/
def TallocrLaw : Prop :=
  ∀ (k : Fin 64) s, Reachable (· = Measured.reset) (TallocrStep (2 ^ k.val)) s →
    ExactFreeList (2 ^ k.val) s

/-- The condition on a call: the size is not within an alignment of 2^64, and for an alignment of 1
a free block is left. -/
def TallocrOp.Fits (alignment : ℕ) (s : Measured) : TallocrOp → Prop
  | .alloc size => size + alignment ≤ 2 ^ 64 ∧ (alignment = 1 → s.alloc.freeBlocks ≠ [])
  | .free _ => True

instance TallocrOp.decidableFits (alignment : ℕ) (s : Measured) :
    ∀ op : TallocrOp, Decidable (op.Fits alignment s)
  | .alloc _ => inferInstanceAs (Decidable (_ ∧ _))
  | .free _ => inferInstanceAs (Decidable True)

/-! ## Alignment -/

section Aligned

variable {size alignment : ℕ}

theorem dvd_alignedOffset (h : 0 < alignment) : alignment ∣ alignedOffset size alignment := by
  rw [alignedOffset, Nat.dvd_iff_mod_eq_zero, Nat.add_mod, Nat.mod_mod]
  have hlt := Nat.mod_lt size h
  rcases Nat.eq_zero_or_pos (size % alignment) with hzero | hpos
  · simp [hzero]
  · rw [Nat.mod_eq_of_lt (by omega : alignment - size % alignment < alignment),
      Nat.add_sub_cancel' hlt.le, Nat.mod_self]

theorem alignedOffset_lt (h : 0 < alignment) : alignedOffset size alignment < size + alignment :=
  Nat.add_lt_add_left (Nat.mod_lt _ h) size

theorem alignedOffset_one : alignedOffset size 1 = size := by
  rw [alignedOffset, Nat.mod_one, Nat.add_zero]

end Aligned

/-! ## A call -/

namespace DynTallocr

variable {alloc alloc' : DynTallocr} {alignment offset size : ℕ}

/-- The calls are those with a size that needs no more alignment. -/
theorem allocate_of_allocWord (h : alloc.allocWord alignment size = .ok (offset, alloc')) :
    alloc.allocate 1 (alignedOffset size alignment % 2 ^ 64) = some (offset, alloc') := by
  unfold allocWord at h
  dsimp only at h
  split_ifs at h
  split at h
  · cases h
  · rename_i i hi
    split at h
    · cases h
    · rename_i block hblock
      rw [allocate]
      dsimp only
      rw [alignedOffset_one, hi, Option.bind_eq_bind, Option.bind_some, hblock]
      exact congrArg some (Except.ok.inj h)

theorem freeTensor_of_freeWord (h : alloc.freeWord alignment offset size = .ok alloc') :
    alloc.freeTensor 1 offset (alignedOffset size alignment % 2 ^ 64) = some alloc' := by
  unfold freeWord at h
  rw [freeTensor]
  dsimp only at h ⊢
  rw [alignedOffset_one]
  rcases hm : mergeBlock offset (alignedOffset size alignment % 2 ^ 64) [] alloc.freeBlocks with
    _ | blocks <;> rw [hm] at h <;> dsimp only at h ⊢
  · split_ifs at h with hlt
    rw [if_pos hlt]
    exact congrArg some (Except.ok.inj h)
  · exact congrArg some (Except.ok.inj h)

/-- Only without a free block is a call undefined. -/
theorem allocWord_undefined (h : alloc.allocWord alignment size = .error .undefined) :
    alloc.freeBlocks = [] := by
  unfold allocWord at h
  dsimp only at h
  split_ifs at h with hnil
  · exact hnil
  split at h
  · cases h
  · rename_i i hi
    obtain ⟨b, hb, -⟩ := findBlock_eq_some hi
    rw [hb] at h
    cases h

theorem freeWord_ne_undefined : alloc.freeWord alignment offset size ≠ .error .undefined := by
  unfold freeWord
  dsimp only
  split
  · exact fun h => nomatch h
  · split_ifs <;> exact fun h => nomatch h

end DynTallocr

/-! ## Runs -/

/-- What the calls keep, of the free blocks and the sizes besides. -/
structure Measured.Accounts (alignment : ℕ) (s : Measured) : Prop
    extends ExactFreeList alignment s where
  free_aligned : ∀ b ∈ s.alloc.freeBlocks, alignment ∣ b.offset
  fits : ∀ t ∈ s.live, t.2 + alignment ≤ 2 ^ 64

section Runs

variable {s s' : Measured} {k : ℕ} {alignment : ℕ}

theorem Measured.Accounts.gapped (h : s.Accounts alignment) : Gapped s.alloc.freeBlocks :=
  ⟨h.sorted, h.nonempty⟩

theorem reset_accounts : Measured.reset.Accounts alignment := by
  refine ⟨⟨List.pairwise_singleton _ _, ?_, ?_, ?_, List.forall_mem_nil _, rfl⟩, ?_,
    List.forall_mem_nil _⟩
  · exact List.forall_mem_singleton.2 (by decide)
  · ext a
    simp [Measured.reset, Measured.blocks, DynTallocr.reset, Block.mem_span]
  · exact List.pairwise_singleton _ _
  · exact List.forall_mem_singleton.2 (Nat.dvd_zero alignment)

theorem alignedOffset_mod (hpos : 0 < alignment) {size : ℕ} (h : size + alignment ≤ 2 ^ 64) :
    alignedOffset size alignment % 2 ^ 64 = alignedOffset size alignment :=
  Nat.mod_eq_of_lt ((alignedOffset_lt hpos).trans_le h)

theorem foldr_max_concat {n : ℕ} (ns : List ℕ) :
    (ns ++ [n]).foldr max 0 = max (ns.foldr max 0) n := by
  induction ns with
  | nil => simp
  | cons m ns ih => rw [List.cons_append, List.foldr_cons, List.foldr_cons, ih, max_assoc]

/-- An allocation takes its block from the free ones. -/
theorem alloc_accounts (hpos : 0 < alignment) {size : TensorSize} (h : s.Accounts alignment)
    (hsize : size + alignment ≤ 2 ^ 64) (hs : s.call alignment (.alloc size) = .ok s') :
    s'.Accounts alignment := by
  obtain ⟨⟨offset, alloc⟩, hcall, hs⟩ := Except.bind_eq_ok.1 hs
  obtain rfl := Except.pure_eq_ok.1 hs
  have halloc := DynTallocr.allocate_of_allocWord hcall
  rw [alignedOffset_mod hpos hsize] at halloc
  obtain ⟨htakes, hmax⟩ := DynTallocr.allocate_spec halloc h.gapped.apart
  obtain ⟨hgapped, ⟨b, hb, hoffset⟩, hfree⟩ := DynTallocr.allocate_gapped halloc h.gapped
  rw [alignedOffset_one] at htakes hmax hfree
  obtain ⟨happ, hcover⟩ := htakes.held h.disjoint
  have hdvd : alignment ∣ offset := hoffset ▸ h.free_aligned b hb
  have hblocks : (Measured.blocks alignment ⟨alloc, s.live ++ [(offset, size)],
      s.ends ++ [offset + alignedOffset size alignment]⟩) =
        s.blocks alignment ++ [⟨offset, alignedOffset size alignment⟩] := by
    simp [Measured.blocks]
  refine ⟨⟨hgapped.pairwise, hgapped.pos, ?_, ?_, ?_, ?_⟩, fun c hc => ?_, ?_⟩
  · rw [hblocks, hcover, h.tiles]
  · rwa [hblocks]
  · rw [hblocks]
    exact List.forall_mem_append.2 ⟨h.aligned, List.forall_mem_singleton.2 hdvd⟩
  · dsimp only
    rw [hmax, h.maxSize, foldr_max_concat]
  · rcases hfree c hc with hc | hc
    · exact h.free_aligned c hc
    · rw [hc]
      exact Nat.dvd_add hdvd (dvd_alignedOffset hpos)
  · exact List.forall_mem_append.2 ⟨h.fits, List.forall_mem_singleton.2 hsize⟩

/-- A block that is freed is free again. -/
theorem free_accounts (hpos : 0 < alignment) {i : ℕ} (h : s.Accounts alignment)
    (hs : s.call alignment (.free i) = .ok s') : s'.Accounts alignment := by
  rw [Measured.call] at hs
  rcases hi : s.live[i]? with _ | ⟨offset, size⟩ <;> rw [hi] at hs
  · cases hs
  obtain ⟨alloc, hcall, hs⟩ := Except.bind_eq_ok.1 hs
  obtain rfl := Except.pure_eq_ok.1 hs
  have hmem := List.mem_of_getElem? hi
  have hfree := DynTallocr.freeTensor_of_freeWord hcall
  rw [alignedOffset_mod hpos (h.fits _ hmem)] at hfree
  -- the block among those that are allocated
  obtain ⟨hlt, hget⟩ := List.getElem?_eq_some_iff.1 hi
  have hsplit : s.live = s.live.take i ++ (offset, size) :: s.live.drop (i + 1) := by
    rw [← hget, List.getElem_cons_drop, List.take_append_drop]
  set block : Block := ⟨offset, alignedOffset size alignment⟩ with hblock
  set xs := (s.live.take i).map fun t => (⟨t.1, alignedOffset t.2 alignment⟩ : Block)
  set ys := (s.live.drop (i + 1)).map fun t => (⟨t.1, alignedOffset t.2 alignment⟩ : Block)
  have hblocks : s.blocks alignment = xs ++ block :: ys := by
    rw [Measured.blocks, hsplit, List.map_append, List.map_cons]
  have hblocks' : (Measured.blocks alignment ⟨alloc, s.live.eraseIdx i, s.ends⟩) = xs ++ ys := by
    rw [Measured.blocks, List.eraseIdx_eq_take_drop_succ, List.map_append]
  have hapart := h.disjoint
  rw [hblocks] at hapart
  have hd : Disjoint block.span (cover s.alloc.freeBlocks) := by
    refine (apart_append.1 hapart).2.2.mono_left fun a ha => ?_
    exact ⟨block, List.mem_append_right _ (List.mem_cons_self ..), ha⟩
  have hpos' : 0 < alignedOffset size alignment := size.2.1.trans_le le_alignedOffset
  obtain ⟨hgives, hmax⟩ := DynTallocr.freeTensor_spec hfree h.gapped.apart
    (by rw [alignedOffset_one]; exact hd)
  obtain ⟨hgapped, hoffsets⟩ := DynTallocr.freeTensor_gapped hfree h.gapped
    (by rw [alignedOffset_one]; exact hpos') (by rw [alignedOffset_one]; exact hd)
  rw [alignedOffset_one] at hgives
  obtain ⟨happ, hcover⟩ := hgives.held hapart
  have haligned := h.aligned
  rw [hblocks, List.forall_mem_append, List.forall_mem_cons] at haligned
  refine ⟨⟨hgapped.pairwise, hgapped.pos, ?_, ?_, ?_, hmax.trans h.maxSize⟩, fun b hb => ?_,
    fun t ht => h.fits t (List.mem_of_mem_eraseIdx ht)⟩
  · rw [hblocks', hcover, ← hblocks, h.tiles]
  · rwa [hblocks']
  · rw [hblocks']
    exact List.forall_mem_append.2 ⟨haligned.1, haligned.2.2⟩
  · rcases hoffsets b hb with hb | ⟨c, hc, hb⟩
    · rw [hb]
      exact haligned.2.1
    · rw [← hb]
      exact h.free_aligned c hc

/-- With an alignment above 1 the last address is in a free block: what is allocated ends at a
multiple of the alignment. -/
theorem Measured.Accounts.freeBlocks_ne_nil (h : s.Accounts (2 ^ k)) (hk : k ≠ 0) :
    s.alloc.freeBlocks ≠ [] := fun hnil => by
  have hlast : sizeMax / 2 - 1 ∈ cover (s.blocks (2 ^ k) ++ s.alloc.freeBlocks) := by
    rw [h.tiles]
    exact (by decide : sizeMax / 2 - 1 < sizeMax / 2)
  rw [hnil, List.append_nil] at hlast
  obtain ⟨b, hb, hmem⟩ := hlast
  obtain ⟨t, ht, rfl⟩ := List.mem_map.1 hb
  rw [Block.mem_span] at hmem
  dsimp only at hmem
  have hpow : 0 < 2 ^ k := Nat.two_pow_pos k
  have heven : 2 ∣ t.1 + alignedOffset t.2 (2 ^ k) :=
    Nat.dvd_trans (Nat.pow_dvd_pow 2 (Nat.one_le_iff_ne_zero.2 hk))
      (Nat.dvd_add (h.aligned _ hb) (dvd_alignedOffset hpow))
  have hpos : 0 < alignedOffset t.2 (2 ^ k) := t.2.2.1.trans_le le_alignedOffset
  have hend : t.1 + alignedOffset t.2 (2 ^ k) - 1 ∈
      cover (s.blocks (2 ^ k) ++ s.alloc.freeBlocks) := by
    refine ⟨_, List.mem_append_left _ hb, ?_⟩
    rw [Block.mem_span]
    dsimp only
    omega
  rw [h.tiles] at hend
  have hlt : t.1 + alignedOffset t.2 (2 ^ k) - 1 < sizeMax / 2 := hend
  have hodd : sizeMax / 2 = 2 ^ 63 - 1 := by decide
  omega

/-- Only an allocation without a free block is undefined. -/
theorem call_undefined {op : TallocrOp} (h : s.call alignment op = .error .undefined) :
    (∃ size, op = .alloc size) ∧ s.alloc.freeBlocks = [] := by
  cases op with
  | alloc size =>
    rcases hcall : s.alloc.allocWord alignment size with e | ⟨offset, alloc⟩ <;>
      rw [Measured.call, hcall] at h <;> cases h
    exact ⟨⟨size, rfl⟩, DynTallocr.allocWord_undefined hcall⟩
  | free i =>
    rcases hi : s.live[i]? with _ | ⟨offset, size⟩ <;> rw [Measured.call, hi] at h
    · cases h
    dsimp only at h
    rcases hcall : s.alloc.freeWord alignment offset size with e | alloc <;> rw [hcall] at h <;>
      cases h
    exact (DynTallocr.freeWord_ne_undefined hcall).elim

theorem step_accounts {op : TallocrOp} (h : s.Accounts (2 ^ k)) (hfits : op.Fits (2 ^ k) s)
    (hs : TallocrStep (2 ^ k) s op s') : s'.Accounts (2 ^ k) := by
  have hpos : 0 < 2 ^ k := Nat.two_pow_pos k
  rcases hs with hs | hundefined
  · cases op with
    | alloc size => exact alloc_accounts hpos h hfits.1 hs
    | free i => exact free_accounts hpos h hs
  · obtain ⟨⟨size, rfl⟩, hnil⟩ := call_undefined hundefined
    rcases Nat.eq_zero_or_pos k with rfl | hk
    · exact (hfits.2 rfl hnil).elim
    · exact (h.freeBlocks_ne_nil hk.ne' hnil).elim

/-- The free list is exact in the runs in which no size is within an alignment of 2^64, and for an
alignment of 1 nothing is allocated without a free block. -/
theorem freeList_exact (k : Fin 64) (h : Reachable (· = Measured.reset)
      (Guarded (fun s op => op.Fits (2 ^ k.val) s) (TallocrStep (2 ^ k.val))) s) :
    ExactFreeList (2 ^ k.val) s := by
  have haccounts : s.Accounts (2 ^ k.val) := by
    refine h.invariant (I := Measured.Accounts (2 ^ k.val)) ?_ ?_
    · rintro _ rfl
      exact reset_accounts
    · exact fun s op s' haccounts hs => step_accounts haccounts hs.1 hs.2
  exact haccounts.toExactFreeList

end Runs

/-- What a call leaves, where it returns. -/
def Measured.next (alignment : ℕ) (s : Measured) (op : TallocrOp) : Option Measured :=
  (s.call alignment op).toOption

theorem step_of_next {alignment : ℕ} {s s' : Measured} {op : TallocrOp}
    (h : s.next alignment op = some s') : TallocrStep alignment s op s' := by
  rw [Measured.next] at h
  rcases hcall : s.call alignment op with e | s'' <;> rw [hcall] at h <;> cases h
  exact .returns hcall

/-- Of four blocks the second and the fourth are freed, and then the one between them. -/
def mergingCalls : List TallocrOp :=
  [.alloc ⟨5, by decide⟩, .alloc ⟨20, by decide⟩, .alloc ⟨16, by decide⟩, .alloc ⟨3, by decide⟩,
    .free 1, .free 2, .free 1]

theorem freeList_exact_merging : ∃ s : Measured,
    s.alloc = ⟨[⟨16, sizeMax / 2 - 16⟩], 80⟩ ∧ ExactFreeList (2 ^ 4) s := by
  have hrun : ((exec (fun s op => if op.Fits (2 ^ 4) s then s.next (2 ^ 4) op else none)
      Measured.reset mergingCalls).map fun s => (s.alloc.freeBlocks, s.alloc.maxSize)) =
        some ([⟨16, sizeMax / 2 - 16⟩], 80) := by
    decide
  obtain ⟨s, hs, halloc⟩ := Option.map_eq_some_iff.1 hrun
  obtain ⟨hblocks, hmax⟩ := Prod.mk.inj halloc
  refine ⟨s, ?_, freeList_exact 4 ⟨_, mergingCalls, rfl, (guarded_run_of_exec hs).mono ?_⟩⟩
  · rw [← hblocks, ← hmax]
  · exact fun s op s' h => ⟨h.1, step_of_next h.2⟩

/-- The block for 2^64 - 1 bytes is empty: it is at offset 0, as is the one that is allocated
next. -/
theorem not_tallocrLaw : ¬ TallocrLaw := by
  intro h
  have hrun : ((exec (Measured.next (2 ^ 4)) Measured.reset
      [.alloc ⟨2 ^ 64 - 1, by decide⟩, .alloc ⟨16, by decide⟩]).map fun s =>
        s.live.map Prod.fst) = some [0, 0] := by
    decide
  obtain ⟨s, hs, hlive⟩ := Option.map_eq_some_iff.1 hrun
  have hreach : Reachable (· = Measured.reset) (TallocrStep (2 ^ 4)) s :=
    ⟨_, _, rfl, (run_of_exec hs).mono fun s op s' hs => step_of_next hs⟩
  obtain ⟨⟨_, a⟩, rest, hsplit, rfl, hrest⟩ := List.map_eq_cons_iff.1 hlive
  obtain ⟨⟨_, b⟩, rest, rfl, rfl, -⟩ := List.map_eq_cons_iff.1 hrest
  have hdisjoint := (h 4 s hreach).disjoint
  rw [Measured.blocks, hsplit, List.map_cons, List.map_cons, List.cons_append, apart_cons,
    List.cons_append, cover_cons, Set.disjoint_union_right] at hdisjoint
  have hmem (t : TensorSize) : 0 ∈ (Block.mk 0 (alignedOffset t (2 ^ 4))).span :=
    ⟨Nat.le_refl 0, Nat.add_pos_right _ (t.2.1.trans_le le_alignedOffset)⟩
  exact Set.disjoint_left.1 hdisjoint.1.1 (hmem a) (hmem b)

end LamaServer
