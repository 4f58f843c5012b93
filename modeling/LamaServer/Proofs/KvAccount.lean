import LamaServer.Proofs.Defrag

/-!
# The accounts of the unified cache

A run calls the operations one after another, `find_slot`, `restore` and `commit` also on their own.
While no cell gets a negative position or loses its last sequence with its position, and no stream
ends inside the list of cells, the cells with a position are the cells in use, and `used` counts
them.
-/

namespace LamaServer

variable {m : KvParams} {size : Nat}

inductive AccountOp (m : KvParams) (size : Nat) where
  | op (op : KvOp m size)
  | findSlot (ub : Ubatch)
  | restore
  | commit

def accountStep (c : KvCache m size) : AccountOp m size → Option (KvCache m size)
  | .op op => kvStep c op
  | .findSlot ub => some (c.findSlot ub).1
  | .restore => some c.restore
  | .commit => some c.commit

/-- Every token of a batch has a position and a sequence. -/
def Ubatch.Placeable (ub : Ubatch) : Prop :=
  ∀ k < ub.nTokens, 0 ≤ ub.pos k ∧ ub.seqId (k / ub.nSeqTokens) ≠ []

instance (ub : Ubatch) : Decidable ub.Placeable :=
  inferInstanceAs (Decidable (∀ k < ub.nTokens, 0 ≤ ub.pos k ∧ ub.seqId (k / ub.nSeqTokens) ≠ []))

/-- The cells of a whole cache that are read have a position and a sequence, and the stream does not
end between them. -/
def CellsKept : List (Int × Finset Int) × Except ReadError Bytes → Prop
  | (cells, .ok _) => ∀ cell ∈ cells, 0 ≤ cell.1 ∧ cell.2 ≠ ∅
  | (cells, .error .short) => cells = []
  | (_, .error .refused) => True

instance : DecidablePred CellsKept
  | (cells, .ok _) => inferInstanceAs (Decidable (∀ cell ∈ cells, 0 ≤ cell.1 ∧ cell.2 ≠ ∅))
  | (cells, .error .short) => inferInstanceAs (Decidable (cells = []))
  | (_, .error .refused) => inferInstanceAs (Decidable True)

def WholeKept (size : Nat) : Except ReadError (Nat × Bytes) → Prop
  | .ok (count, bs) => count ≤ size → CellsKept (readCells count bs)
  | .error _ => True

instance (size : Nat) : DecidablePred (WholeKept size)
  | .ok (count, bs) => inferInstanceAs (Decidable (count ≤ size → CellsKept (readCells count bs)))
  | .error _ => inferInstanceAs (Decidable True)

def StreamKept (size : Nat) (seqId : Int) (bs : Bytes) : Prop :=
  if seqId = -1 then WholeKept size (readTo u32 bs) else ∀ p ∈ streamPositions seqId bs, 0 ≤ p

instance (size : Nat) (seqId : Int) (bs : Bytes) : Decidable (StreamKept size seqId bs) :=
  inferInstanceAs (Decidable (if seqId = -1 then WholeKept size (readTo u32 bs)
    else ∀ p ∈ streamPositions seqId bs, 0 ≤ p))

/-- No step gives a cell a position below `0`, a position without a sequence or a sequence without
a position. -/
def AccountOp.Kept (c : KvCache m size) : AccountOp m size → Prop
  | .op (.seqDiv seqId p0 p1 d) =>
    ∀ i < size, (c.cells i).hit seqId p0 p1 → 0 ≤ (c.cells i).pos.tdiv d
  | .op (.decode call) => ∀ g ∈ call.computes, g.ubatch.Placeable
  | .op (.stateRead seqId bs _) => StreamKept size seqId bs
  | .findSlot ub => ub.Placeable
  | _ => True

instance (c : KvCache m size) : ∀ op : AccountOp m size, Decidable (op.Kept c)
  | .op (.seqDiv seqId p0 p1 d) => inferInstanceAs (Decidable
      (∀ i < size, (c.cells i).hit seqId p0 p1 → 0 ≤ (c.cells i).pos.tdiv d))
  | .op (.decode call) =>
    inferInstanceAs (Decidable (∀ g ∈ call.computes, g.ubatch.Placeable))
  | .op (.stateRead seqId bs _) => inferInstanceAs (Decidable (StreamKept size seqId bs))
  | .findSlot ub => inferInstanceAs (Decidable ub.Placeable)
  | .op .clear | .op (.seqRm ..) | .op (.seqCp ..) | .op (.seqKeep _) | .op (.seqAdd ..)
  | .op .defragSched | .op .update | .restore | .commit => inferInstanceAs (Decidable True)

def AccountReached (m : KvParams) (size : Nat) : KvCache m size → Prop :=
  Transition.Reachable (fun c => ∃ h, c = { size_lt := h })
    fun c op c' => accountStep c op = some c'

def AccountReachable (m : KvParams) (size : Nat) : KvCache m size → Prop :=
  Transition.Reachable (fun c => ∃ h, c = { size_lt := h })
    (Transition.Guarded AccountOp.Kept fun c op c' => accountStep c op = some c')

namespace KvCache

/-- The cells with a position are the cells in use, `used` counts them, and `find_slot` finds the
free cells that are there and takes no others. -/
structure Accounts (c : KvCache m size) : Prop where
  cells : ∀ i < size, 0 ≤ (c.cells i).pos ↔ (c.cells i).seqId ≠ ∅
  used : c.used = Nat.count (fun i => (c.cells i).seqId ≠ ∅) size
  head : c.head ≤ size
  finds : ∀ ub : Ubatch, (c.findSlot ub).2 = true ↔ ∃ h, h + ub.nTokens ≤ size ∧
    ∀ i, h ≤ i → i < h + ub.nTokens → (c.cells i).seqId = ∅
  spares : ∀ (ub : Ubatch) (i : Nat), (c.cells i).seqId ≠ ∅ →
    (c.findSlot ub).1.cells i = c.cells i

/-! ## The invariant -/

end KvCache

/-- A cell that is in use where it has a position. -/
def KvCell.Balanced (cell : KvCell) : Prop := 0 ≤ cell.pos ↔ cell.seqId ≠ ∅

theorem KvCell.balanced_blank (delta : Int) :
    KvCell.Balanced { pos := -1, delta := delta, seqId := ∅ } := by simp [KvCell.Balanced]

theorem KvCell.Balanced.rm {cell : KvCell} (h : cell.Balanced) (seqId p0 p1 : Int) :
    (cell.rm seqId p0 p1).cell.Balanced := by
  unfold KvCell.rm
  split_ifs with hhit hempty
  · exact balanced_blank _
  · exact iff_of_true (le_trans (rangeStart_nonneg p0) hhit.1.1) hempty
  · exact h

theorem KvCell.Balanced.keep {cell : KvCell} (h : cell.Balanced) (seqId : Int) :
    (cell.keep seqId).cell.Balanced := by
  unfold KvCell.keep
  split_ifs with hmem
  · exact iff_of_true (h.2 fun he => by simp [he] at hmem) (Finset.singleton_ne_empty seqId)
  · exact balanced_blank _

theorem KvCell.Balanced.add {cell : KvCell} (h : cell.Balanced) (seqId p0 p1 delta : Int) :
    (cell.add seqId p0 p1 delta).cell.Balanced := by
  unfold KvCell.add
  split_ifs with hhit hneg
  · exact balanced_blank _
  · exact iff_of_true (not_lt.1 hneg) fun he => by
      simp [KvCell.hit, show cell.seqId = ∅ from he] at hhit
  · exact h

theorem KvCell.Balanced.cp {cell : KvCell} (h : cell.Balanced) (src dst p0 p1 : Int) :
    (cell.cp src dst p0 p1).Balanced := by
  unfold KvCell.cp
  split_ifs with hhit
  · exact iff_of_true (le_trans (rangeStart_nonneg p0) hhit.2.1) (Finset.insert_ne_empty dst _)
  · exact h

theorem KvCell.Balanced.div {cell : KvCell} (h : cell.Balanced) {seqId p0 p1 d : Int}
    (hd : cell.hit seqId p0 p1 → 0 ≤ cell.pos.tdiv d) : (cell.div seqId p0 p1 d).Balanced := by
  unfold KvCell.div
  split_ifs with hhit
  · exact iff_of_true (hd hhit) fun he => by simp [KvCell.hit, show cell.seqId = ∅ from he] at hhit
  · exact h

namespace KvCache

structure Accounted (c : KvCache m size) : Prop where
  balanced : ∀ i, (c.cells i).Balanced
  outside : ∀ i, size ≤ i → (c.cells i).seqId = ∅
  slack : c.slack = 0
  head_le : c.head ≤ size

variable {c c' : KvCache m size}

theorem Accounted.init (h : size < 2 ^ 32) : ({ size_lt := h } : KvCache m size).Accounted where
  balanced _ := KvCell.balanced_blank 0
  outside _ _ := rfl
  slack := by simp [KvCache.slack, occupied]
  head_le := Nat.zero_le _

/-- What a sequence of the cell at `i` cannot come from an empty cell, and no head from afar. -/
theorem Accounted.of_cells (h : c.Accounted) (hbal : ∀ i, (c'.cells i).Balanced)
    (hout : ∀ i, (c.cells i).seqId = ∅ → (c'.cells i).seqId = ∅) (hslack : c'.slack = c.slack)
    (hhead : c'.head ≤ size) : c'.Accounted where
  balanced := hbal
  outside i hi := hout i (h.outside i hi)
  slack := hslack.trans h.slack
  head_le := hhead

theorem lowerHead_head_le (r : KvCache m size × Nat) : (lowerHead r).head ≤ r.1.head := by
  unfold lowerHead
  dsimp only
  split_ifs <;> omega

theorem Accounted.clear (c : KvCache m size) : c.clear.Accounted where
  balanced _ := KvCell.balanced_blank _
  outside _ _ := rfl
  slack := by simp [KvCache.slack, occupied, KvCache.clear]
  head_le := Nat.zero_le _

theorem Accounted.seqRm (h : c.Accounted) (seqId p0 p1 : Int) :
    (c.seqRm seqId p0 p1).Accounted := by
  refine h.of_cells (fun i => (h.balanced i).rm seqId p0 p1) (fun i he => ?_) ?_
    ((lowerHead_head_le _).trans h.head_le)
  · show ((c.cells i).rm seqId p0 p1).cell.seqId = ∅
    unfold KvCell.rm
    split_ifs with hhit hempty
    · rfl
    · simp [KvCell.without, he] at hempty
    · exact he
  · refine slack_sweep (fun i => ?_) fun i => ?_ <;> unfold KvCell.rm <;> split_ifs <;> simp

theorem Accounted.seqKeep (h : c.Accounted) (seqId : Int) : (c.seqKeep seqId).Accounted := by
  refine h.of_cells (fun i => (h.balanced i).keep seqId) (fun i he => ?_) ?_
    ((lowerHead_head_le _).trans h.head_le)
  · show ((c.cells i).keep seqId).cell.seqId = ∅
    simp [KvCell.keep, he]
  · refine slack_sweep (fun i => ?_) fun i => ?_ <;> unfold KvCell.keep <;> split_ifs <;> simp

theorem Accounted.seqCp (h : c.Accounted) (src dst p0 p1 : Int) :
    (c.seqCp src dst p0 p1).Accounted := by
  unfold KvCache.seqCp
  split_ifs
  · exact h
  · refine h.of_cells (fun i => (h.balanced i).cp src dst p0 p1) (fun i he => ?_) ?_ (Nat.zero_le _)
    · simp [KvCell.cp, KvCell.hit, he]
    · simp only [KvCache.slack, occupied, KvCell.cp]
      congr 2
      exact Index.count_congr fun i _ => by split_ifs <;> rfl

theorem Accounted.seqAdd (h : c.Accounted) (seqId p0 p1 delta : Int) :
    (c.seqAdd seqId p0 p1 delta).Accounted := by
  unfold KvCache.seqAdd
  split_ifs
  · exact h
  · refine h.of_cells (fun i => (h.balanced i).add seqId p0 p1 delta) (fun i he => ?_) ?_ ?_
    · show ((c.cells i).add seqId p0 p1 delta).cell.seqId = ∅
      simp [KvCell.add, KvCell.hit, he]
    · refine @slack_sweep _ _ _ (fun _ => KvCell.add seqId p0 p1 delta) (fun i => ?_)
        (fun i => ?_) <;>
        unfold KvCell.add <;> split_ifs with hhit hneg
      · have hp : 0 ≤ (c.cells i).pos := le_trans (rangeStart_nonneg p0) hhit.2.1
        have hne : (c.cells i).seqId ≠ ∅ := fun he => by simp [KvCell.hit, he] at hhit
        simp [hp, hne]
      · have hp : 0 ≤ (c.cells i).pos := le_trans (rangeStart_nonneg p0) hhit.2.1
        simp [hp, not_lt.1 hneg]
      all_goals simp
    · dsimp only
      split_ifs
      · exact Index.firstBelow_le
      · exact Nat.zero_le _

theorem Accounted.seqDiv (h : c.Accounted) {seqId p0 p1 d : Int}
    (hd : ∀ i < size, (c.cells i).hit seqId p0 p1 → 0 ≤ (c.cells i).pos.tdiv d) :
    (c.seqDiv seqId p0 p1 d).Accounted := by
  have hd' : ∀ i, (c.cells i).hit seqId p0 p1 → 0 ≤ (c.cells i).pos.tdiv d := fun i hhit => by
    by_cases hi : i < size
    · exact hd i hi hhit
    · simp [KvCell.hit, h.outside i (not_lt.1 hi)] at hhit
  unfold KvCache.seqDiv
  split_ifs
  · exact h
  · refine h.of_cells (fun i => (h.balanced i).div (hd' i)) (fun i he => ?_) ?_ h.head_le
    · simp [KvCell.div, KvCell.hit, he]
    · simp only [KvCache.slack, occupied, KvCell.div]
      congr 2
      refine Index.count_congr fun i _ => ?_
      split_ifs with hhit
      · exact iff_of_true (hd' i hhit) (le_trans (rangeStart_nonneg p0) hhit.2.1)
      · rfl

theorem foldl_restoreRange_head : ∀ (rs : List (Nat × Nat)) (c : KvCache m size),
    (rs.foldl restoreRange c).head = c.head
  | [], _ => rfl
  | _ :: rs, _ => foldl_restoreRange_head rs _

theorem Accounted.restore (h : c.Accounted) : c.restore.Accounted := by
  refine h.of_cells (fun i => ?_) (fun i he => ?_) c.restore_slack ?_
  · rcases restore_cells c i with ⟨hi, -⟩ | ⟨hi, -⟩ <;> rw [hi]
    · exact h.balanced i
    · exact KvCell.balanced_blank _
  · rcases restore_cells c i with ⟨hi, -⟩ | ⟨hi, -⟩ <;> rw [hi]
    exact he
  · unfold KvCache.restore
    split_ifs
    · exact h.head_le
    · refine (lowerHead_head_le _).trans ?_
      rw [foldl_restoreRange_head]
      exact h.head_le

/-! ## Slots -/

theorem searchSlot_le {cells : Nat → KvCell} {n : Nat} : ∀ {r head nTested : Nat}, head ≤ size →
    (searchSlot cells size n r head nTested).1 ≤ size
  | 0, _, _, h => h
  | r + 1, head, nTested, h => by
    rw [searchSlot]
    split_ifs with hend
    · exact searchSlot_le (Nat.zero_le _)
    · cases hf : (List.range n).find? fun i => 0 ≤ (cells (head + i)).pos with
      | none => exact h
      | some i =>
        have hi := List.mem_range.1 (List.mem_of_find?_eq_some hf)
        dsimp only
        split_ifs
        · show head + (i + 1) ≤ size
          omega
        · exact searchSlot_le (by omega)

theorem findSlot_head_le (h : c.head ≤ size) (ub : Ubatch) : (c.findSlot ub).1.head ≤ size := by
  have hstart : (if (c.used + 2 * ub.nTokens) % 2 ^ 32 < c.head then 0 else c.head) ≤ size := by
    split_ifs <;> omega
  unfold findSlot
  dsimp only
  generalize (if (c.used + 2 * ub.nTokens) % 2 ^ 32 < c.head then 0 else c.head) = head at hstart ⊢
  split_ifs
  · exact hstart
  · exact searchSlot_le hstart
  · exact searchSlot_le hstart

theorem Accounted.findSlot (h : c.Accounted) {ub : Ubatch} (hub : ub.Placeable) :
    (c.findSlot ub).1.Accounted := by
  have hle := findSlot_head_le h.head_le ub
  rcases findSlot_cases c ub with ⟨head, hs, hsize, hfree⟩ | ⟨head, hs⟩ <;> rw [hs] at hle ⊢
  · have hin : ∀ i, head ≤ i ∧ i < head + ub.nTokens → ((c.place ub head).cells i).Balanced := by
      intro i hi
      have hk := hub (i - head) (by omega)
      rw [place_cells_of_mem hi]
      refine iff_of_true hk.1 fun he => hk.2 ?_
      simpa using (Finset.union_eq_empty.1 he).2
    refine ⟨fun i => ?_, fun i hi => ?_,
      (slack_place (fun k hk => (hub k hk).1) hsize hfree).trans h.slack, hle⟩
    · by_cases hi : head ≤ i ∧ i < head + ub.nTokens
      · exact hin i hi
      · rw [place_cells_of_notMem hi]
        exact h.balanced i
    · rw [place_cells_of_notMem (by omega)]
      exact h.outside i hi
  · exact ⟨h.balanced, h.outside, h.slack, hle⟩

end KvCache

/-! ## Defragmentation -/

namespace Defrag

variable {nKv nUsed maxMoves i0 nh : Nat}

/-- The cells in use. -/
def nonEmpty (size : Nat) (s : Defrag) : Nat := Nat.count (fun i => (s.cells i).seqId ≠ ∅) size

theorem nonEmpty_move {s : Defrag} {i1 dst : Nat} {cont : Bool} (h1 : i1 < size)
    (hdst : dst < i1) (hne : (s.cells i1).seqId ≠ ∅) (he : (s.cells dst).seqId = ∅) :
    (s.move nUsed i1 dst cont).nonEmpty size = s.nonEmpty size := by
  refine Index.count_move h1 (hdst.trans h1) hne (not_not.2 he) fun i => ?_
  simp only [move, Function.update_apply]
  by_cases hi1 : i = i1
  · simp [hi1, hdst.ne']
  · by_cases hid : i = dst
    · simp [hid, hdst.ne, hne]
    · simp [hi1, hid]

/-- The cells that fill a hole stay in use. -/
theorem fill_nonEmpty (hkv : nKv ≤ size) : ∀ {r i1 nf : Nat} {cont : Bool} {s : Defrag},
    (∀ j, nf ≤ j → j < nh → (s.cells (i0 + j)).seqId = ∅) → nf < nh → i0 + nh ≤ i1 →
      i1 + r ≤ nKv →
      (fill nKv nUsed maxMoves i0 nh r i1 nf cont s).1.nonEmpty size = s.nonEmpty size
  | 0, _, _, _, _, _, _, _, _ => rfl
  | r + 1, i1, nf, cont, s, hhole, hnf, hi1, hr => by
    simp only [fill]
    split_ifs with hskip hmax hlast
    · rfl
    · exact fill_nonEmpty hkv hhole hnf (by omega) (by omega)
    all_goals
      have hmove : (s.move nUsed i1 (i0 + nf) cont).nonEmpty size = s.nonEmpty size :=
        nonEmpty_move (by omega) (by omega) (not_or.1 hskip).1 (hhole nf le_rfl hnf)
    · exact hmove
    · refine (fill_nonEmpty hkv (fun j hj hjn => ?_) (by omega) (by omega) (by omega)).trans hmove
      have hne : i0 + j ≠ i0 + nf := by omega
      have hne' : i0 + j ≠ i1 := by omega
      simpa only [move, Function.update_of_ne hne, Function.update_of_ne hne'] using
        hhole j (by omega) hjn

theorem loop_nonEmpty (hkv : nKv ≤ size) : ∀ {r i0 : Nat} {s s' : Defrag},
    loop nKv nUsed maxMoves r i0 s = some s' → s'.nonEmpty size = s.nonEmpty size
  | 0, _, s, s', hl => congrArg _ (Option.some.inj hl).symm
  | r + 1, i0, s, s', hl => by
    rcases loop_cases hl with ⟨-, rfl⟩ | ⟨-, -, hl⟩ | ⟨hlt, hempty, nh, tail, filled, hnh, htail,
      rfl, hl⟩
    · rfl
    · have := loop_nonEmpty hkv hl
      exact this
    · obtain ⟨hpos, hbeyond, htl, hhole⟩ := hole_spec hlt hempty hnh htail
      have hfill : (fill nKv nUsed maxMoves i0 nh (nKv - tail) tail 0 false s).1.nonEmpty size =
          s.nonEmpty size :=
        fill_nonEmpty hkv (fun j _ hj => hhole j hj) hpos hbeyond (by omega)
      rcases hl with rfl | hl
      · exact hfill
      · exact (loop_nonEmpty hkv hl).trans hfill

theorem fill_head : ∀ {r i1 nf : Nat} {cont : Bool} {s : Defrag}, s.head ≤ size → nUsed ≤ size →
    (fill nKv nUsed maxMoves i0 nh r i1 nf cont s).1.head ≤ size
  | 0, _, _, _, _, h, _ => h
  | r + 1, i1, nf, cont, s, h, hu => by
    simp only [fill]
    split_ifs
    · exact h
    · exact fill_head h hu
    · exact hu
    · exact fill_head hu hu

theorem loop_head : ∀ {r i0 : Nat} {s s' : Defrag}, loop nKv nUsed maxMoves r i0 s = some s' →
    s.head ≤ size → nUsed ≤ size → s'.head ≤ size
  | 0, _, s, s', hl, h, _ => Option.some.inj hl ▸ h
  | r + 1, i0, s, s', hl, h, hu => by
    rcases loop_cases hl with ⟨-, rfl⟩ | ⟨-, -, hl⟩ | ⟨-, -, nh, tail, filled, -, -, rfl, hl⟩
    · exact h
    · exact loop_head hl h hu
    · rcases hl with rfl | hl
      · exact fill_head h hu
      · exact loop_head hl (fill_head h hu) hu

end Defrag

namespace KvCache

variable {c c' : KvCache m size}

theorem cellMax_le (cells : Nat → KvCell) : ∀ n, cellMax cells n ≤ n
  | 0 => le_rfl
  | n + 1 => by
    rw [cellMax]
    split_ifs
    · exact le_rfl
    · exact (cellMax_le cells n).trans (Nat.le_succ n)

theorem Accounted.used_eq (h : c.Accounted) : c.used = c.occupied := by
  have := h.slack
  simp only [KvCache.slack] at this
  omega

theorem occupied_le (c : KvCache m size) : c.occupied ≤ size := Nat.count_le _

theorem Accounted.occupied_eq (h : c.Accounted) :
    c.occupied = Nat.count (fun i => (c.cells i).seqId ≠ ∅) size :=
  Index.count_congr fun i _ => h.balanced i

theorem Accounted.nUsed_le (h : c.Accounted) : c.nUsed ≤ size := by
  have hused := h.used_eq
  have hle := c.occupied_le
  have hlt := c.size_lt
  unfold nUsed
  omega

theorem Accounted.defrag (h : c.Accounted) {s : Defrag} (hs : c.defragPrepare = some s)
    (hcells : c'.cells = s.cells) (hused : c'.used = c.used) (hhead : c'.head = s.head) :
    c'.Accounted := by
  have hbal : ∀ i, (c'.cells i).Balanced := by
    rw [hcells]
    exact Defrag.loop_cells (P := KvCell.Balanced) (KvCell.balanced_blank 0) hs h.balanced
  refine ⟨hbal, fun i hi => ?_, ?_, ?_⟩
  · obtain ⟨src, hsrc, hmoved⟩ := defragPrepare_spec hs
    rw [hcells]
    by_contra hne
    refine hne ?_
    rw [(hmoved i hne).1]
    exact h.outside (src i) (hi.trans (hsrc i))
  · have hcount := Defrag.loop_nonEmpty (cellMax_le c.cells size) hs
    have hocc : c'.occupied = c.occupied := by
      rw [h.occupied_eq, occupied, Index.count_congr fun i _ => hbal i, hcells]
      exact hcount
    rw [KvCache.slack, hused, hocc]
    exact h.slack
  · rw [hhead]
    exact Defrag.loop_head hs h.head_le h.nUsed_le

theorem Accounted.update (h : c.Accounted) (hu : c.update = some c') : c'.Accounted := by
  obtain ⟨hcells, hused, -, -⟩ := c.applyShift_spec
  have hshift : c.applyShift.Accounted := by
    refine h.of_cells (fun i => ?_) (fun i he => (hcells i).2.trans he) ?_ ?_
    · rw [KvCell.Balanced, (hcells i).1, (hcells i).2]
      exact h.balanced i
    · rw [KvCache.slack, hused, occupied_congr fun i => (hcells i).1]
      rfl
    · unfold applyShift
      split_ifs <;> exact h.head_le
  unfold KvCache.update applyDefrag at hu
  split_ifs at hu
  · obtain ⟨s, hs, rfl⟩ := Option.map_eq_some_iff.1 hu
    split_ifs <;> exact hshift.defrag hs rfl rfl rfl
  · exact Option.some.inj hu ▸ hshift

/-! ## Decoding and loading -/

theorem Accounted.decodeLoop : ∀ {gs : List (Compute m)} {c : KvCache m size}, c.Accounted →
    (∀ g ∈ gs, g.ubatch.Placeable) → (c.decodeLoop gs).1.Accounted
  | [], _, h, _ => h
  | g :: gs, c, h, hv => by
    have hslot := h.findSlot (hv g (by simp))
    simp only [KvCache.decodeLoop]
    split_ifs
    · cases g.status with
      | success =>
        have hrows : ((c.findSlot g.ubatch).1.writeRows g).Accounted :=
          ⟨hslot.balanced, hslot.outside, hslot.slack, hslot.head_le⟩
        exact Accounted.decodeLoop hrows fun g' hg' => hv g' (by simp [hg'])
      | allocFailed => exact hslot
      | failed => exact hslot
      | aborted => exact hslot
    · exact hslot

theorem Accounted.decode (h : c.Accounted) {call : DecodeCall m} {r : Except String Int}
    (hv : ∀ g ∈ call.computes, g.ubatch.Placeable) (hd : c.decode call = some (c', r)) :
    c'.Accounted := by
  rcases decode_cases hd with ⟨-, rfl⟩ | ⟨cu, hu, ⟨-, -, b, rfl⟩ | ⟨-, rfl⟩⟩
  · exact h.restore
  · have hloop := (h.update hu).decodeLoop hv
    exact ⟨hloop.balanced, hloop.outside, hloop.slack, hloop.head_le⟩
  · exact ((h.update hu).decodeLoop hv).restore

/-- The rows apart, nothing changes. -/
theorem Accounted.sameMeta (h : c.Accounted) (hm : SameMeta c c') : c'.Accounted := by
  obtain ⟨hhead, hused, hcells, -⟩ := hm
  refine h.of_cells (fun i => ?_) (fun i he => ?_) ?_ ?_
  · rw [hcells]
    exact h.balanced i
  · rw [hcells]
    exact he
  · rw [KvCache.slack, hused, occupied_congr fun i => congrArg KvCell.pos (congrFun hcells i)]
    rfl
  · rw [hhead]
    exact h.head_le

/-- A refused whole cache is cleared, whatever has been read of it. -/
theorem Accounted.finishRead {seqId : Int} {r : Loading m size}
    (h : r.2 = .error .refused ∧ seqId = -1 ∨ r.1.Accounted)
    (hc : (finishRead seqId r).cache = some c') : c'.Accounted := by
  obtain ⟨c, e | bs⟩ := r
  · cases e <;> simp only [LamaServer.finishRead, Loaded.cache, Option.some.injEq] at hc <;>
      subst hc
    · simpa using h
    · split_ifs with hseq
      · exact .clear c
      · exact (h.resolve_left fun hl => hseq hl.2).seqRm _ _ _
  · simp only [LamaServer.finishRead, Loaded.cache, Option.some.injEq] at hc
    exact hc ▸ h.resolve_left (by simp)

theorem Accounted.readData {count : Nat} {rots : List Int} {r : Loading m size} {seqId : Int}
    (h : r.2 = .error .refused ∧ seqId = -1 ∨ r.1.Accounted) :
    (r.bind fun c bs => c.stateReadData count rots bs).2 = .error .refused ∧ seqId = -1 ∨
      (r.bind fun c bs => c.stateReadData count rots bs).1.Accounted := by
  obtain ⟨c, e | bs⟩ := r
  · exact h
  · exact .inr ((h.resolve_left (by simp)).sameMeta (stateReadData_sameMeta c count rots bs))

theorem length_readCells : ∀ {n : Nat} {bs rest : Bytes}, (readCells n bs).2 = .ok rest →
    (readCells n bs).1.length = n
  | 0, _, _, _ => rfl
  | n + 1, bs, rest, h => by
    simp only [readCells] at h ⊢
    split at h
    · simp at h
    split at h
    · simp at h
    split at h
    · simp at h
    · exact congrArg (· + 1) (length_readCells h)

theorem fillCells_iff (c : KvCache m size) {cells : List (Int × Finset Int)}
    (hk : ∀ cell ∈ cells, 0 ≤ cell.1 ∧ cell.2 ≠ ∅) (i : Nat) :
    (0 ≤ ((c.clear.fillCells cells).cells i).pos ↔ i < cells.length) ∧
      (((c.clear.fillCells cells).cells i).seqId ≠ ∅ ↔ i < cells.length) := by
  by_cases hi : i < cells.length
  · have hcell := hk cells[i] (List.getElem_mem hi)
    simp [fillCells, KvCell.filled, hi, hcell]
  · simp [fillCells, KvCell.filled, KvCache.clear, hi]

theorem Accounted.readMetaAll (c : KvCache m size) {count : Nat} {bs : Bytes}
    (hk : count ≤ size → CellsKept (readCells count bs)) :
    (c.readMetaAll count bs).2 = .error .refused ∨ (c.readMetaAll count bs).1.Accounted := by
  unfold KvCache.readMetaAll
  split_ifs with hsize
  · exact .inl rfl
  have hk := hk (not_lt.1 hsize)
  have hlen := @length_readCells count bs
  rcases hr : readCells count bs with ⟨cells, e | rest⟩
  · rw [hr] at hk
    cases e with
    | refused => exact .inl rfl
    | short =>
      obtain rfl : cells = [] := hk
      exact .inr (.clear c)
  · rw [hr] at hk hlen
    have hlen : cells.length = count := hlen rfl
    have hiff := fillCells_iff c hk
    refine .inr ⟨fun i => (hiff i).1.trans (hiff i).2.symm, fun i hi => ?_, ?_, Nat.zero_le _⟩
    · by_contra hne
      have := (hiff i).2.1 hne
      omega
    · have hocc : Nat.count (fun i => 0 ≤ ((c.clear.fillCells cells).cells i).pos) size =
          count := by
        rw [← Index.count_window (n := size) (a := 0) (w := count) (by omega)]
        exact Index.count_congr fun i _ => (hiff i).1.trans (by omega)
      exact sub_eq_zero.2 (congrArg Nat.cast hocc.symm)

theorem Accounted.readMetaSeq (h : c.Accounted) {dest : Int} {count : Nat} {bs : Bytes}
    {r : Loading m size}
    (hv : ∀ ps rest, readPositions count bs = .ok (ps, rest) → ∀ p ∈ ps, 0 ≤ p)
    (hr : c.readMetaSeq dest count bs = some r) : r.1.Accounted := by
  have hrm := h.seqRm dest (-1) (-1)
  unfold KvCache.readMetaSeq at hr
  dsimp only at hr
  split at hr
  · cases hr
    exact hrm
  · rename_i ps rest hps
    have hub : (loadUbatch dest ps).Placeable := by
      intro k hk
      rw [loadUbatch_nTokens] at hk
      simpa [loadUbatch, hk] using hv ps rest hps _ (List.getElem_mem hk)
    have hslot := hrm.findSlot hub
    split_ifs at hr <;> cases hr
    · exact ⟨hslot.balanced, hslot.outside, hslot.slack, hslot.head_le⟩
    · exact hslot

theorem Accounted.stateRead (h : c.Accounted) {seqId : Int} {bs : Bytes} {rots : List Int}
    (hk : StreamKept size seqId bs) (hc : (c.stateRead seqId bs rots).cache = some c') :
    c'.Accounted := by
  unfold KvCache.stateRead at hc
  unfold StreamKept streamPositions at hk
  cases hcount : readTo u32 bs with
  | error e =>
    simp only [hcount, Loaded.cache, Option.some.injEq] at hc
    exact hc ▸ h
  | ok r =>
    obtain ⟨count, rest⟩ := r
    simp only [hcount] at hc hk
    by_cases hseq : seqId = -1
    · simp only [hseq, if_true] at hc hk
      refine .finishRead (Accounted.readData ?_) hc
      exact (Accounted.readMetaAll c hk).imp_left fun hr => ⟨hr, rfl⟩
    · simp only [if_neg hseq] at hc hk
      cases hmeta : c.readMetaSeq seqId count rest with
      | none => simp [hmeta, Loaded.cache] at hc
      | some r =>
        simp only [hmeta] at hc
        refine .finishRead
          (Accounted.readData (.inr (h.readMetaSeq (fun ps rest' hps => ?_) hmeta))) hc
        simpa only [hps] using hk

theorem Accounted.accounts (h : c.Accounted) : c.Accounts where
  cells i _ := h.balanced i
  used := h.used_eq.trans (congrArg _ h.occupied_eq)
  head := h.head_le
  finds ub := by
    have hfree : ∀ i, (c.cells i).seqId = ∅ ↔ (c.cells i).pos < 0 := fun i => by
      have hbal := h.balanced i
      rw [KvCell.Balanced] at hbal
      rw [← not_le, hbal, not_not]
    simp only [hfree]
    exact ⟨room_of_findSlot, findSlot_of_room⟩
  spares ub i hne := by
    rcases findSlot_cases c ub with ⟨head, hs, -, hfree⟩ | ⟨head, hs⟩ <;> rw [hs]
    refine place_cells_of_notMem fun hi => ?_
    exact absurd ((h.balanced i).2 hne) (not_le.2 (hfree i hi.1 hi.2))

end KvCache

theorem accountStep_accounted {c c' : KvCache m size} {op : AccountOp m size} (h : c.Accounted)
    (hk : op.Kept c) (hs : accountStep c op = some c') : c'.Accounted := by
  cases op with
  | findSlot ub => cases hs; exact h.findSlot hk
  | restore => cases hs; exact h.restore
  | commit => cases hs; exact ⟨h.balanced, h.outside, h.slack, h.head_le⟩
  | op op =>
    cases op with
    | clear => cases hs; exact .clear c
    | seqRm seqId p0 p1 => cases hs; exact h.seqRm seqId p0 p1
    | seqCp src dst p0 p1 => cases hs; exact h.seqCp src dst p0 p1
    | seqKeep seqId => cases hs; exact h.seqKeep seqId
    | seqAdd seqId p0 p1 delta => cases hs; exact h.seqAdd seqId p0 p1 delta
    | seqDiv seqId p0 p1 d => cases hs; exact h.seqDiv hk
    | defragSched => cases hs; exact ⟨h.balanced, h.outside, h.slack, h.head_le⟩
    | update => exact h.update hs
    | decode call =>
      obtain ⟨⟨c₁, r⟩, hd, rfl⟩ := Option.map_eq_some_iff.1 hs
      exact h.decode hk hd
    | stateRead seqId bs rots => exact h.stateRead hk hs

/-! ## The law and where it fails -/

def AccountLaw : Prop :=
  ∀ (m : KvParams) (size : Nat) (c : KvCache m size), AccountReached m size c → c.Accounts

/-- The accounts are right in every run whose steps keep positions and sequences together. -/
theorem accounts_of_kept {c : KvCache m size} (h : AccountReachable m size c) : c.Accounts := by
  refine KvCache.Accounted.accounts
    (Transition.Reachable.invariant (I := KvCache.Accounted) ?_ ?_ h)
  · rintro _ ⟨h, rfl⟩
    exact .init h
  · exact fun _ _ _ hc hs => accountStep_accounted hc hs.1 hs.2

/-- Two tokens are decoded, the first is shifted out, and the second is moved to its cell. -/
def accountOps : List (AccountOp byteModel 4) :=
  [.op (.decode (decodeCall [(consecutive 0 0 2, .success)])), .op (.seqAdd 0 0 1 (-1)),
    .op .defragSched, .op .update, .findSlot (consecutive 1 0 1), .restore]

def accountExec : Option (KvCache byteModel 4) :=
  Transition.exec (fun c op => if op.Kept c then accountStep c op else none)
    (emptyCache 4 four_lt) accountOps

theorem accounts_of_kept_defrag : ∃ c, accountExec = some c ∧ c.Accounts := by
  have hsome : accountExec.isSome := by decide
  obtain ⟨c, hc⟩ := Option.isSome_iff_exists.1 hsome
  exact ⟨c, hc, accounts_of_kept ⟨_, accountOps, ⟨_, rfl⟩, Transition.guarded_run_of_exec hc⟩⟩

/-- A whole cache of two cells, cut off behind the first. -/
def cutStream : Bytes := u32.write 2 ++ (i32.write 0 ++ u32.write 1 ++ i32.write 0)

/-- The cell that was read is in use, and `used` is 0. -/
theorem not_accountLaw : ¬ AccountLaw := by
  intro h
  have hexec : (accountStep (emptyCache 4 four_lt) (.op (.stateRead (-1) cutStream []))).any
      (fun c => c.used = 0 ∧ Nat.count (fun i => (c.cells i).seqId ≠ ∅) 4 = 1) := by
    decide
  cases hx : accountStep (emptyCache 4 four_lt) (.op (.stateRead (-1) cutStream [])) with
  | none => simp [hx] at hexec
  | some c =>
    simp only [hx, Option.any_some, decide_eq_true_eq] at hexec
    have hreach : AccountReached byteModel 4 c := ⟨_, [_], ⟨_, rfl⟩, .cons hx .nil⟩
    have := (h byteModel 4 c hreach).used
    rw [hexec.1, hexec.2] at this
    simp at this

end LamaServer
