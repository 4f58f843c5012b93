import LamaServer.Proofs.Defrag
import LamaServer.Proofs.KvState

/-!
# The rotation of the K rows

A session is the cache with the streams saved so far. While a K-shift is pending a cell owes the
rotation of its K row `delta` positions; otherwise no cell owes any. Every operation keeps that, but
a load into a cell that still owes from the sequence it had before, and a save of a cell that owes,
do not; without these two the rows are always rotated to where the cells say.
-/

namespace LamaServer

open Format

variable {m : KvParams} {size : Nat}

structure Session (m : KvParams) (size : Nat) where
  cache : KvCache m size
  /-- the streams saved so far, each with the rotations of its K rows -/
  saved : List (Bytes × List Int) := []

inductive SessionOp (m : KvParams) (size : Nat) where
  | op (op : KvOp m size)
  | save (seqId : Int)
  | load (k : Nat) (seqId : Int)

/-- A session reads what it saved; other streams have no rotations. -/
def sessionStep (x : Session m size) : SessionOp m size → Option (Session m size)
  | .op (.stateRead _ _ _) => none
  | .op op => (kvStep x.cache op).map fun c => { x with cache := c }
  | .save seqId => some { x with
      saved := x.saved ++ [(x.cache.stateWrite seqId, (x.cache.written seqId).map x.cache.rot)] }
  | .load k seqId => x.saved[k]?.bind fun sv =>
      (x.cache.stateRead seqId sv.1 sv.2).cache.map fun c => { x with cache := c }

def sessionInit (x : Session m size) : Prop := ∃ h, x = { cache := { size_lt := h } }

/-- The K row of every cell in use is rotated to its position, up to the pending shift. -/
def KvCache.Rotated (c : KvCache m size) : Prop :=
  ∀ i, (c.cells i).seqId ≠ ∅ →
    c.rot i + (if c.hasShift then (c.cells i).delta else 0) = (c.cells i).pos

/-- An update leaves no shift. -/
def KvCache.UpdatesRotated (c : KvCache m size) : Prop :=
  ∀ c', c.update = some c' →
    ∀ i, (c'.cells i).delta = 0 ∧ ((c'.cells i).seqId ≠ ∅ → c'.rot i = (c'.cells i).pos)

/-- What `find_slot` makes of a load of `n` cells. -/
def KvCache.loadSlot (c : KvCache m size) (seqId : Int) (n : Nat) : KvCache m size × Bool :=
  (c.seqRm seqId (-1) (-1)).findSlot (loadUbatch seqId (List.replicate n 0))

/-- The cells that a load of `n` cells fills owe nothing. -/
def KvCache.LoadsSettled (c : KvCache m size) (seqId : Int) (n : Nat) : Prop :=
  if seqId = -1 then ∀ i < n, (c.cells i).delta = 0
  else (c.loadSlot seqId n).2 → ∀ i < n, (c.cells ((c.loadSlot seqId n).1.head + i)).delta = 0

instance (c : KvCache m size) (seqId : Int) (n : Nat) : Decidable (c.LoadsSettled seqId n) :=
  inferInstanceAs (Decidable (if seqId = -1 then ∀ i < n, (c.cells i).delta = 0
    else (c.loadSlot seqId n).2 → ∀ i < n, (c.cells ((c.loadSlot seqId n).1.head + i)).delta = 0))

instance (z : Int) : Decidable (i32.Valid z) := inferInstanceAs (Decidable (_ ∧ _))

instance (n : Nat) : Decidable (u32.Valid n) := inferInstanceAs (Decidable (n < 256 ^ 4))

/-- The numbers of a cell are the `int32_t` they are in the source. -/
def KvCell.Fits (cell : KvCell) : Prop :=
  i32.Valid cell.pos ∧ u32.Valid cell.seqId.card ∧ ∀ t ∈ cell.seqId, i32.Valid t

instance (cell : KvCell) : Decidable cell.Fits := inferInstanceAs (Decidable (_ ∧ _ ∧ _))

/-- No cell that owes a shift is saved, and none is loaded into. -/
def SessionOp.Settled (x : Session m size) : SessionOp m size → Prop
  | .op _ => True
  | .save seqId => ∀ i ∈ x.cache.written seqId,
      (x.cache.cells i).Fits ∧ (x.cache.cells i).delta = 0
  | .load k seqId => ∀ sv ∈ x.saved[k]?, x.cache.LoadsSettled seqId sv.2.length

instance (x : Session m size) : ∀ op : SessionOp m size, Decidable (op.Settled x)
  | .op _ => inferInstanceAs (Decidable True)
  | .save seqId => inferInstanceAs (Decidable (∀ i ∈ x.cache.written seqId,
      (x.cache.cells i).Fits ∧ (x.cache.cells i).delta = 0))
  | .load k seqId =>
    inferInstanceAs (Decidable (∀ sv ∈ x.saved[k]?, x.cache.LoadsSettled seqId sv.2.length))

/-! ## The invariant -/

namespace KvCache

structure Aligned (c : KvCache m size) : Prop where
  outside : ∀ i, size ≤ i → (c.cells i).seqId = ∅
  settled : c.hasShift = false → ∀ i, (c.cells i).delta = 0
  rotated : ∀ i, (c.cells i).seqId ≠ ∅ → c.rot i + (c.cells i).delta = (c.cells i).pos

variable {c c' : KvCache m size}

theorem Aligned.init (h : size < 2 ^ 32) : ({ size_lt := h } : KvCache m size).Aligned where
  outside _ _ := rfl
  settled _ _ := rfl
  rotated _ h := absurd rfl h

/-- An operation that moves positions together with what the cells owe. -/
theorem Aligned.of_cells (h : c.Aligned)
    (hcells : ∀ i, (c'.cells i).seqId ≠ ∅ → (c.cells i).seqId ≠ ∅ ∧
      (c'.cells i).pos - (c'.cells i).delta = (c.cells i).pos - (c.cells i).delta)
    (hrot : c'.rot = c.rot)
    (hsettled : c'.hasShift = false → ∀ i, (c'.cells i).delta = 0) : c'.Aligned where
  outside i hi := by
    by_contra hne
    exact (hcells i hne).1 (h.outside i hi)
  settled := hsettled
  rotated i hne := by
    have h1 := h.rotated i (hcells i hne).1
    have h2 := (hcells i hne).2
    rw [hrot]
    omega

/-- As `of_cells`, where nothing is shifted. -/
theorem Aligned.of_delta (h : c.Aligned)
    (hcells : ∀ i, (c'.cells i).delta = (c.cells i).delta ∧
      ((c'.cells i).seqId ≠ ∅ → (c.cells i).seqId ≠ ∅ ∧ (c'.cells i).pos = (c.cells i).pos))
    (hrot : c'.rot = c.rot) (hshift : c'.hasShift = c.hasShift) : c'.Aligned := by
  refine h.of_cells (fun i hne => ?_) hrot fun hs i => ?_
  · obtain ⟨hd, hc⟩ := hcells i
    exact ⟨(hc hne).1, by rw [hd, (hc hne).2]⟩
  · rw [(hcells i).1]
    exact h.settled (hshift ▸ hs) i

theorem Aligned.clear (h : c.Aligned) : c.clear.Aligned where
  outside _ _ := rfl
  settled := h.settled
  rotated _ hne := absurd rfl hne

theorem rm_delta (seqId p0 p1 : Int) (cell : KvCell) :
    (cell.rm seqId p0 p1).cell.delta = cell.delta ∧
      ((cell.rm seqId p0 p1).cell.seqId ≠ ∅ →
        cell.seqId ≠ ∅ ∧ (cell.rm seqId p0 p1).cell.pos = cell.pos) := by
  unfold KvCell.rm
  split_ifs with hhit hempty
  · simp
  · refine ⟨rfl, fun hne => ⟨?_, rfl⟩⟩
    rintro h0
    simp [KvCell.without, h0] at hempty
  · simp

theorem Aligned.seqRm (h : c.Aligned) (seqId p0 p1 : Int) : (c.seqRm seqId p0 p1).Aligned :=
  h.of_delta (fun i => rm_delta seqId p0 p1 (c.cells i)) rfl rfl

theorem Aligned.seqCp (h : c.Aligned) (src dst p0 p1 : Int) : (c.seqCp src dst p0 p1).Aligned := by
  unfold KvCache.seqCp
  split_ifs
  · exact h
  · refine h.of_delta (fun i => ?_) rfl rfl
    dsimp only
    unfold KvCell.cp
    split_ifs with hhit
    · exact ⟨rfl, fun _ => ⟨Finset.ne_empty_of_mem hhit.1, rfl⟩⟩
    · exact ⟨rfl, fun hne => ⟨hne, rfl⟩⟩

theorem Aligned.seqKeep (h : c.Aligned) (seqId : Int) : (c.seqKeep seqId).Aligned := by
  refine h.of_delta (fun i => ?_) rfl rfl
  show ((c.cells i).keep seqId).cell.delta = _ ∧ (((c.cells i).keep seqId).cell.seqId ≠ ∅ → _ ∧
    ((c.cells i).keep seqId).cell.pos = _)
  unfold KvCell.keep
  split_ifs with hmem
  · exact ⟨rfl, fun _ => ⟨Finset.ne_empty_of_mem hmem, rfl⟩⟩
  · simp

/-- A cell that is hit is one of the array's. -/
theorem Aligned.not_hit (h : c.Aligned) {seqId p0 p1 : Int}
    (hs : (c.hasShift || c.hits seqId p0 p1) = false) (i : Nat) :
    ¬ (c.cells i).hit seqId p0 p1 := by
  intro hhit
  rw [Bool.or_eq_false_iff] at hs
  have hi : i < size := by
    by_contra hge
    have := hhit.1
    rw [h.outside i (not_lt.1 hge)] at this
    simp at this
  have := List.any_eq_false.1 hs.2 i (List.mem_range.2 hi)
  simp [hhit] at this

theorem Aligned.seqAdd (h : c.Aligned) (seqId p0 p1 delta : Int) :
    (c.seqAdd seqId p0 p1 delta).Aligned := by
  unfold KvCache.seqAdd
  split_ifs
  · exact h
  · refine h.of_cells (fun i => ?_) rfl fun hs i => ?_
    · show ((c.cells i).add seqId p0 p1 delta).cell.seqId ≠ ∅ → _ ∧
        ((c.cells i).add seqId p0 p1 delta).cell.pos -
          ((c.cells i).add seqId p0 p1 delta).cell.delta = _
      unfold KvCell.add
      split_ifs with hhit hneg
      · simp
      · exact fun _ => ⟨Finset.ne_empty_of_mem hhit.1, by dsimp only; omega⟩
      · exact fun hne => ⟨hne, rfl⟩
    · have hnot := h.not_hit hs i
      show ((c.cells i).add seqId p0 p1 delta).cell.delta = 0
      rw [KvCell.add, if_neg hnot]
      exact h.settled (Bool.or_eq_false_iff.1 hs).1 i

theorem Aligned.seqDiv (h : c.Aligned) (seqId p0 p1 d : Int) :
    (c.seqDiv seqId p0 p1 d).Aligned := by
  unfold KvCache.seqDiv
  split_ifs
  · exact h
  · refine h.of_cells (fun i => ?_) rfl fun hs i => ?_
    · dsimp only
      unfold KvCell.div
      split_ifs with hhit
      · exact fun _ => ⟨Finset.ne_empty_of_mem hhit.1, by dsimp only; omega⟩
      · exact fun hne => ⟨hne, rfl⟩
    · have hnot := h.not_hit hs i
      show ((c.cells i).div seqId p0 p1 d).delta = 0
      rw [KvCell.div, if_neg hnot]
      exact h.settled (Bool.or_eq_false_iff.1 hs).1 i

theorem restore_rot (c : KvCache m size) :
    c.restore.rot = c.rot ∧ c.restore.hasShift = c.hasShift := by
  have hfold : ∀ (rs : List (Nat × Nat)) (c : KvCache m size),
      (rs.foldl restoreRange c).rot = c.rot ∧ (rs.foldl restoreRange c).hasShift = c.hasShift := by
    intro rs
    induction rs with
    | nil => exact fun c => ⟨rfl, rfl⟩
    | cons r rs ih => exact fun c => ih (c.restoreRange r)
  unfold KvCache.restore
  split_ifs
  · exact ⟨rfl, rfl⟩
  · exact hfold c.pending c

theorem Aligned.restore (h : c.Aligned) : c.restore.Aligned := by
  refine h.of_delta (fun i => ?_) c.restore_rot.1 c.restore_rot.2
  rcases restore_cells c i with ⟨hi, -⟩ | ⟨hi, -⟩ <;> rw [hi]
  · exact ⟨rfl, fun hne => ⟨hne, rfl⟩⟩
  · simp

/-! ## Updates and decoding -/

/-- No shift is pending and the rows are where the cells say, the cells of pending ranges apart. -/
structure Settled (c : KvCache m size) (except : List (Nat × Nat)) : Prop where
  outside : ∀ i, size ≤ i → (c.cells i).seqId = ∅
  hasShift : c.hasShift = false
  delta : ∀ i, (c.cells i).delta = 0
  rotated : ∀ i, (c.cells i).seqId ≠ ∅ → ¬ Covers except i → c.rot i = (c.cells i).pos

theorem Settled.aligned (h : c.Settled []) : c.Aligned where
  outside := h.outside
  settled _ := h.delta
  rotated i hne := by
    rw [h.delta i, h.rotated i hne (by simp [Covers])]
    omega

theorem Aligned.applyShift (h : c.Aligned) : c.applyShift.Settled [] := by
  unfold KvCache.applyShift
  split_ifs with hs
  · exact ⟨h.outside, rfl, fun _ => rfl, fun i hne _ => h.rotated i hne⟩
  · have hs : c.hasShift = false := by simpa using hs
    refine ⟨h.outside, hs, h.settled hs, fun i hne _ => ?_⟩
    have := h.rotated i hne
    rw [h.settled hs i] at this
    omega

theorem Settled.applyDefrag (h : c.Settled []) (hd : c.applyDefrag = some c') : c'.Settled [] := by
  unfold KvCache.applyDefrag at hd
  split_ifs at hd
  · obtain ⟨s, hs, rfl⟩ := Option.map_eq_some_iff.1 hd
    obtain ⟨src, hle, hsrc⟩ := defragPrepare_spec hs
    have hdelta := Defrag.loop_cells (P := fun cell => cell.delta = 0) rfl hs h.delta
    have hout : ∀ i, size ≤ i → (s.cells i).seqId = ∅ := by
      intro i hi
      by_contra hne
      rw [(hsrc i hne).1] at hne
      exact hne (h.outside _ (hi.trans (hle i)))
    have hrot : ∀ i, (s.cells i).seqId ≠ ∅ →
        (if s.nMoves = 0 then c.rot else moveRows (cellMax c.cells size) s.ids c.rot) i =
          (s.cells i).pos := by
      intro i hne
      obtain ⟨hcell, hrows⟩ := hsrc i hne
      rw [hrows, hcell]
      exact h.rotated _ (hcell ▸ hne) (by simp [Covers])
    dsimp only
    split_ifs with hmoves
    · exact ⟨hout, h.hasShift, hdelta, fun i hne _ => by simpa [hmoves] using hrot i hne⟩
    · exact ⟨hout, h.hasShift, hdelta, fun i hne _ => by simpa [hmoves] using hrot i hne⟩
  · exact Option.some.inj hd ▸ h

theorem Aligned.update (h : c.Aligned) (hu : c.update = some c') : c'.Settled [] :=
  h.applyShift.applyDefrag hu

theorem Settled.restore {except : List (Nat × Nat)} (h : c.Settled except)
    (hcov : ∀ i, Covers except i → Covers c.pending i) : c.restore.Settled [] := by
  obtain ⟨hrot, hshift⟩ := c.restore_rot
  refine ⟨fun i hi => ?_, hshift.trans h.hasShift, fun i => ?_, fun i hne _ => ?_⟩ <;>
    rcases restore_cells c i with ⟨hcell, hnot⟩ | ⟨hcell, -⟩
  · rw [hcell, h.outside i hi]
  · rw [hcell]
  · rw [hcell, h.delta i]
  · rw [hcell, h.delta i]
  · rw [hcell] at hne ⊢
    rw [hrot]
    exact h.rotated i hne fun hc => hnot (hcov i hc)
  · simp [hcell] at hne

theorem Settled.place (h : c.Settled []) {ub : Ubatch} {head : Nat}
    (hsize : head + ub.nTokens ≤ size) :
    (c.place ub head).Settled [(head, head + ub.nTokens)] := by
  have hcov : ∀ i, Covers [(head, head + ub.nTokens)] i ↔ head ≤ i ∧ i < head + ub.nTokens := by
    simp [Covers]
  refine ⟨fun i hi => ?_, h.hasShift, fun i => ?_, fun i hne hnot => ?_⟩
  · rw [place_cells_of_notMem (by omega)]
    exact h.outside i hi
  · simp only [KvCache.place]
    split_ifs <;> exact h.delta i
  · rw [hcov] at hnot
    rw [place_cells_of_notMem hnot] at hne ⊢
    exact h.rotated i hne (by simp [Covers])

/-- The rows of the slot are written rotated to the positions of its cells. -/
theorem Settled.writeRows {g : Compute m} (h : c.Settled [(c.head, c.head + g.ubatch.nTokens)]) :
    (c.writeRows g).Settled [] := by
  refine ⟨h.outside, h.hasShift, h.delta, fun i hne _ => ?_⟩
  simp only [KvCache.writeRows]
  split_ifs with hi
  · rfl
  · exact h.rotated i hne (by simpa [Covers] using hi)

theorem Settled.decodeLoop : ∀ (gs : List (Compute m)) {c : KvCache m size}, c.Settled [] →
    ((c.decodeLoop gs).2 = 0 → (c.decodeLoop gs).1.Settled []) ∧
    ∃ except, (c.decodeLoop gs).1.Settled except ∧
      ∀ i, Covers except i → Covers (c.decodeLoop gs).1.pending i
  | [], _, h => ⟨fun _ => h, [], h, fun _ hc => by simp [Covers] at hc⟩
  | g :: gs, c, h => by
    simp only [KvCache.decodeLoop]
    rcases findSlot_cases c g.ubatch with ⟨head, hs, hsize, -⟩ | ⟨head, hs⟩ <;> simp only [hs]
    · have hplace := h.place hsize
      have hcov : ∀ i, Covers [(head, head + g.ubatch.nTokens)] i →
          Covers (c.place g.ubatch head).pending i := fun i hi => covers_append.2 (.inr hi)
      cases g.status with
      | success => exact Settled.decodeLoop gs hplace.writeRows
      | allocFailed => exact ⟨by simp, _, hplace, hcov⟩
      | failed => exact ⟨by simp, _, hplace, hcov⟩
      | aborted => exact ⟨by simp, _, hplace, hcov⟩
    · exact ⟨by simp, [], ⟨h.outside, h.hasShift, h.delta, h.rotated⟩,
        fun _ hc => by simp [Covers] at hc⟩

theorem Aligned.decode (h : c.Aligned) {call : DecodeCall m} {r : Except String Int}
    (hd : c.decode call = some (c', r)) : c'.Aligned := by
  rcases decode_cases hd with ⟨-, rfl⟩ | ⟨cu, hu, hr⟩
  · exact h.restore
  · obtain ⟨hok, except, hfail, hcov⟩ := (h.update hu).decodeLoop call.computes
    rcases hr with ⟨-, h0, b, rfl⟩ | ⟨-, rfl⟩
    · have hs := hok h0
      exact Settled.aligned ⟨hs.outside, hs.hasShift, hs.delta, hs.rotated⟩
    · exact (hfail.restore hcov).aligned

end KvCache

/-! ## Streams -/

/-- What `state_write_meta` writes for a cell. -/
def entryBytes (e : Int × List Int) : Bytes :=
  i32.write e.1 ++ u32.write e.2.length ++ e.2.flatMap i32.write

/-- A stream whose K rows are rotated to its positions. -/
structure Intact (m : KvParams) (sv : Bytes × List Int) where
  entries : List (Int × List Int)
  vTrans : Nat
  keys : ∀ il, List (Block (m.kSizeRow il))
  values : ∀ il, Fin (m.vRows il) → List (Block (m.vPiece il))
  bytes : sv.1 = u32.write entries.length ++ entries.flatMap entryBytes ++
    dataBytes m vTrans keys values
  rots : sv.2 = entries.map Prod.fst
  length_valid : u32.Valid entries.length
  valid : ∀ e ∈ entries, i32.Valid e.1 ∧ u32.Valid e.2.length ∧ ∀ t ∈ e.2, i32.Valid t
  vTrans_valid : u32.Valid vTrans
  vTrans_eq : m.vTrans = decide (vTrans ≠ 0)
  length_keys : ∀ il, (keys il).length = entries.length
  length_values : ∀ il j, (values il j).length = entries.length

theorem readPositions_entries : ∀ {es : List (Int × List Int)},
    (∀ e ∈ es, i32.Valid e.1 ∧ u32.Valid e.2.length ∧ ∀ t ∈ e.2, i32.Valid t) → ∀ rest : Bytes,
      readPositions es.length (es.flatMap entryBytes ++ rest) = .ok (es.map Prod.fst, rest) ∨
      readPositions es.length (es.flatMap entryBytes ++ rest) = .error .refused
  | [], _, rest => .inl rfl
  | (p, ids) :: es, h, rest => by
    rw [List.forall_mem_cons] at h
    obtain ⟨⟨hp, hn, -⟩, hes⟩ := h
    simp only [List.length_cons, readPositions, List.flatMap_cons, entryBytes, List.append_assoc,
      readTo_write hp, Except.ok_bind_eq]
    cases ids with
    | nil =>
      simp only [List.length_nil, List.flatMap_nil, List.nil_append,
        (expect_eq_ok zero_valid).2 rfl, Except.ok_bind_eq]
      rcases readPositions_entries hes rest with h | h <;> rw [h]
      · exact .inl rfl
      · exact .inr rfl
    | cons t ids =>
      right
      have : expect u32 0 (u32.write (t :: ids).length ++ ((t :: ids).flatMap i32.write ++
          (es.flatMap entryBytes ++ rest))) = .error .refused := by
        rw [expect, readTo_write hn, Except.ok_bind_eq]
        simp
      rw [this]
      rfl

theorem readSeqIds_entries : ∀ {ts : List Int} (ids : Finset Int),
    (∀ t ∈ ts, i32.Valid t) → ∀ rest : Bytes,
      (readSeqIds ts.length ids (ts.flatMap i32.write ++ rest)).2 = .ok rest ∨
      (readSeqIds ts.length ids (ts.flatMap i32.write ++ rest)).2 = .error .refused
  | [], _, _, rest => .inl rfl
  | t :: ts, ids, h, rest => by
    rw [List.forall_mem_cons] at h
    simp only [List.length_cons, readSeqIds, List.flatMap_cons, List.append_assoc,
      readTo_write h.1]
    split_ifs
    · exact .inr rfl
    · exact readSeqIds_entries _ h.2 rest

theorem readCells_entries : ∀ {es : List (Int × List Int)},
    (∀ e ∈ es, i32.Valid e.1 ∧ u32.Valid e.2.length ∧ ∀ t ∈ e.2, i32.Valid t) → ∀ rest : Bytes,
      ((readCells es.length (es.flatMap entryBytes ++ rest)).2 = .ok rest ∧
        (readCells es.length (es.flatMap entryBytes ++ rest)).1.map Prod.fst =
          es.map Prod.fst) ∨
      (readCells es.length (es.flatMap entryBytes ++ rest)).2 = .error .refused
  | [], _, rest => .inl ⟨rfl, rfl⟩
  | (p, ids) :: es, h, rest => by
    rw [List.forall_mem_cons] at h
    obtain ⟨⟨hp, hn, hids⟩, hes⟩ := h
    simp only [List.length_cons, readCells, List.flatMap_cons, entryBytes, List.append_assoc,
      readTo_write hp, readTo_write hn]
    have hread := readSeqIds_entries ∅ hids (es.flatMap entryBytes ++ rest)
    rcases hr : readSeqIds ids.length ∅ (ids.flatMap i32.write ++ (es.flatMap entryBytes ++ rest))
      with ⟨set, v⟩
    rw [hr] at hread
    rcases hread with rfl | rfl
    · rcases readCells_entries hes rest with ⟨h1, h2⟩ | h1
      · exact .inl ⟨h1, by simp [h2]⟩
      · exact .inr h1
    · exact .inr rfl

namespace KvCache

variable {c c' : KvCache m size}

/-- Saving cells that owe nothing gives a stream whose rows are rotated to its positions. -/
theorem Aligned.save (h : c.Aligned) {seqId : Int}
    (hs : ∀ i ∈ c.written seqId, (c.cells i).Fits ∧ (c.cells i).delta = 0) :
    Nonempty (Intact m (c.stateWrite seqId, (c.written seqId).map c.rot)) := by
  have hlt : (c.written seqId).length < 2 ^ 32 := by
    refine (List.length_filter_le _ _).trans_lt ?_
    rw [List.length_range]
    exact c.size_lt
  refine ⟨{
    entries := (c.written seqId).map fun i =>
      ((c.cells i).pos, if seqId = -1 then (c.cells i).seqId.sort (· ≤ ·) else [])
    vTrans := m.vTrans.toNat
    keys := fun il => (c.written seqId).map (c.k il)
    values := fun il j => (c.written seqId).map (c.v il j)
    bytes := ?_
    rots := ?_
    length_valid := by simpa [u32, unsigned] using hlt
    valid := ?_
    vTrans_valid := by cases m.vTrans <;> simp [u32, unsigned]
    vTrans_eq := by cases m.vTrans <;> simp
    length_keys := by simp
    length_values := by simp }⟩
  · have hmeta : c.stateWriteMeta seqId (c.written seqId) = ((c.written seqId).map fun i =>
        ((c.cells i).pos, if seqId = -1 then (c.cells i).seqId.sort (· ≤ ·) else [])).flatMap
          entryBytes := by
      rw [stateWriteMeta, List.flatMap_map]
      rfl
    rw [stateWrite, hmeta, stateWriteData_eq, List.length_map]
  · rw [List.map_map]
    refine List.map_congr_left fun i hi => ?_
    have hne : (c.cells i).seqId ≠ ∅ := by
      rcases of_decide_eq_true (List.mem_filter.1 hi).2 with h | h
      · exact h.2
      · exact Finset.ne_empty_of_mem h
    have := h.rotated i hne
    rw [(hs i hi).2] at this
    simpa using this
  · intro e he
    obtain ⟨i, hi, rfl⟩ := List.mem_map.1 he
    obtain ⟨hpos, hcard, hids⟩ := (hs i hi).1
    refine ⟨hpos, ?_, ?_⟩
    · dsimp only
      split_ifs
      · simpa using hcard
      · exact zero_valid
    · dsimp only
      split_ifs
      · simpa using hids
      · simp

/-- The cells of a stream that was loaded into a window that owes nothing. -/
theorem Aligned.fillRows (h : c.Aligned) (c' : KvCache m size) {n : Nat} {rots : List Int}
    (hlen : rots.length = n) (hsize : c'.head + n ≤ size) (hrot : c'.rot = c.rot)
    (hshift : c'.hasShift = c.hasShift)
    (hdelta : ∀ i, (c'.cells i).delta = (c.cells i).delta)
    (hsettled : ∀ i, c'.head ≤ i → i < c'.head + n → (c.cells i).delta = 0)
    (hin : ∀ i (hi : i < n), (c'.cells (c'.head + i)).seqId ≠ ∅ →
      (c'.cells (c'.head + i)).pos = rots[i])
    (hout : ∀ i, ¬ (c'.head ≤ i ∧ i < c'.head + n) → (c'.cells i).seqId ≠ ∅ →
      (c.cells i).seqId ≠ ∅ ∧ (c'.cells i).pos = (c.cells i).pos)
    (keys : ∀ il, List (Block (m.kSizeRow il)))
    (values : ∀ il, Fin (m.vRows il) → List (Block (m.vPiece il))) :
    (c'.fillRows keys values rots).Aligned where
  outside i hi := by
    by_contra hne
    exact (hout i (by omega) hne).1 (h.outside i hi)
  settled hs i := (hdelta i).trans (h.settled (hshift.symm.trans hs) i)
  rotated i hne := by
    show setRows c'.head rots c'.rot i + (c'.cells i).delta = (c'.cells i).pos
    rw [hdelta i]
    by_cases hi : c'.head ≤ i ∧ i < c'.head + n
    · obtain ⟨j, rfl⟩ := Nat.exists_eq_add_of_le hi.1
      have hj : j < n := by omega
      rw [setRows_add (by omega), hsettled _ hi.1 hi.2, hin j hj hne]
      omega
    · rw [setRows_of_notMem (by rwa [hlen]), hrot, (hout i hi hne).2]
      exact h.rotated i (hout i hi hne).1

theorem Aligned.load_seq (h : c.Aligned) {seqId : Int} (hseq : seqId ≠ -1) {sv : Bytes × List Int}
    (hi : Intact m sv) (hsettled : c.LoadsSettled seqId sv.2.length)
    (hl : (c.stateRead seqId sv.1 sv.2).cache = some c') : c'.Aligned := by
  have hrm := h.seqRm seqId (-1) (-1)
  have hlen : sv.2.length = hi.entries.length := by simp [hi.rots]
  rw [LoadsSettled, if_neg hseq] at hsettled
  rw [stateRead, hi.bytes, List.append_assoc, readTo_write hi.length_valid] at hl
  simp only [if_neg hseq, readMetaSeq] at hl
  rcases readPositions_entries hi.valid (dataBytes m hi.vTrans hi.keys hi.values) with hps | hps <;>
    simp only [hps] at hl
  · rw [← hi.rots] at hl
    rcases findSlot_cases (c.seqRm seqId (-1) (-1)) (loadUbatch seqId sv.2) with
      ⟨head, hslot, hsize, -⟩ | ⟨head, hslot⟩
    · simp only [hslot, if_true] at hl
      rw [loadUbatch_nTokens] at hsize
      split_ifs at hl
      · have hdata : (((c.seqRm seqId (-1) (-1)).place (loadUbatch seqId sv.2) head).commit
            ).stateReadData hi.entries.length sv.2 (dataBytes m hi.vTrans hi.keys hi.values) =
            (_, .ok []) :=
          stateReadData_eq_ok.2 ⟨by omega, hi.vTrans, hi.keys, hi.values, hi.vTrans_valid,
            hi.vTrans_eq, hi.length_keys, hi.length_values, (List.append_nil _).symm, rfl⟩
        simp only [Loading.bind, hdata, finishRead, Loaded.cache, Option.some.injEq] at hl
        subst hl
        rw [List.take_of_length_le hlen.le]
        refine hrm.fillRows ((c.seqRm seqId (-1) (-1)).place
          (loadUbatch seqId sv.2) head).commit rfl hsize rfl rfl (fun i => ?_) (fun i h1 h2 => ?_)
          (fun i hi _ => ?_) (fun i hnot hne => ?_) _ _
        · show (((c.seqRm seqId (-1) (-1)).place (loadUbatch seqId sv.2) head).cells i).delta = _
          simp only [KvCache.place]
          split_ifs <;> rfl
        · have hnTokens : (loadUbatch seqId sv.2).nTokens =
              (loadUbatch seqId (List.replicate sv.2.length 0)).nTokens := by
            simp [loadUbatch_nTokens]
          have hhead := findSlot_head (c.seqRm seqId (-1) (-1)) hnTokens
          rw [hslot] at hhead
          obtain ⟨j, rfl⟩ := Nat.exists_eq_add_of_le h1
          have hj : j < sv.2.length := Nat.add_lt_add_iff_left.1 h2
          have := hsettled hhead.1.symm j hj
          rw [loadSlot, ← hhead.2] at this
          exact (rm_delta _ _ _ _).1.trans this
        · show (((c.seqRm seqId (-1) (-1)).place (loadUbatch seqId sv.2) head).cells
            (head + i)).pos = _
          rw [place_loadUbatch_cells _ _ _ hi]
        · have hcell : ((c.seqRm seqId (-1) (-1)).place (loadUbatch seqId sv.2) head).cells i = _ :=
            place_cells_of_notMem (by rw [loadUbatch_nTokens]; exact hnot)
          simp only [commit, hcell] at hne ⊢
          exact ⟨hne, trivial⟩
      · simp [Loaded.cache] at hl
    · simp only [hslot] at hl
      simp only [Bool.false_eq_true, if_false, Loading.bind, finishRead, if_neg hseq, Loaded.cache,
        Option.some.injEq] at hl
      subst hl
      exact Aligned.seqRm (c := { c.seqRm seqId (-1) (-1) with head := head })
        ⟨hrm.outside, hrm.settled, hrm.rotated⟩ _ _ _
  · simp only [Loading.bind, finishRead, if_neg hseq, Loaded.cache, Option.some.injEq] at hl
    exact hl ▸ hrm.seqRm _ _ _

theorem Aligned.load_all (h : c.Aligned) {sv : Bytes × List Int} (hi : Intact m sv)
    (hsettled : c.LoadsSettled (-1) sv.2.length)
    (hl : (c.stateRead (-1) sv.1 sv.2).cache = some c') : c'.Aligned := by
  have hlen : sv.2.length = hi.entries.length := by simp [hi.rots]
  rw [LoadsSettled, if_pos rfl] at hsettled
  rw [stateRead, hi.bytes, List.append_assoc, readTo_write hi.length_valid] at hl
  simp only [if_true, readMetaAll] at hl
  split_ifs at hl with hsize
  · simp only [Loading.bind, finishRead, if_true, Loaded.cache, Option.some.injEq] at hl
    exact hl ▸ h.clear
  · rcases readCells_entries hi.valid (dataBytes m hi.vTrans hi.keys hi.values) with ⟨hv, hps⟩ | hv
    · rcases hr : readCells hi.entries.length
        (hi.entries.flatMap entryBytes ++ dataBytes m hi.vTrans hi.keys hi.values) with ⟨cells, v⟩
      rw [hr] at hv hps
      obtain rfl : v = _ := hv
      have hcells : cells.length = sv.2.length := by
        rw [← List.length_map (f := Prod.fst), hps, hi.rots]
      have hdata : KvCache.stateReadData { c.clear.fillCells cells with
            head := 0, used := hi.entries.length } hi.entries.length sv.2
          (dataBytes m hi.vTrans hi.keys hi.values) = (_, .ok []) :=
        stateReadData_eq_ok.2 ⟨not_lt.1 hsize, hi.vTrans, hi.keys, hi.values, hi.vTrans_valid,
          hi.vTrans_eq, hi.length_keys, hi.length_values, (List.append_nil _).symm, rfl⟩
      simp only [hr, Loading.bind, hdata, finishRead, Loaded.cache, Option.some.injEq] at hl
      subst hl
      rw [List.take_of_length_le hlen.le]
      refine h.clear.fillRows { c.clear.fillCells cells with
          head := 0, used := hi.entries.length } (n := hi.entries.length) hlen
          (by simpa using hsize) rfl rfl (fun i => ?_)
        (fun i _ h2 => ?_) (fun i hlt _ => ?_) (fun i hnot hne => ?_) _ _
      · simp only [fillCells]
        cases cells[i]? <;> rfl
      · exact hsettled i (by simpa [hlen] using h2)
      · have hi' : i < cells.length := by omega
        have hpos : (cells.map Prod.fst).get ⟨i, by simpa using hi'⟩ = sv.2.get ⟨i, by omega⟩ := by
          simp only [List.get_eq_getElem, hps, hi.rots]
        simpa [fillCells, hi', KvCell.filled] using hpos
      · have hi' : cells.length ≤ i := by
          simp only [Nat.zero_le, true_and, Nat.zero_add, not_lt] at hnot
          omega
        simp [fillCells, hi', KvCell.filled, KvCache.clear] at hne
    · rcases hr : readCells hi.entries.length
        (hi.entries.flatMap entryBytes ++ dataBytes m hi.vTrans hi.keys hi.values) with ⟨cells, v⟩
      rw [hr] at hv
      obtain rfl : v = _ := hv
      simp only [hr, Loading.bind, finishRead, if_true, Loaded.cache, Option.some.injEq] at hl
      subst hl
      refine h.of_delta (fun i => ⟨?_, fun hne => absurd rfl hne⟩) rfl rfl
      simp only [KvCache.clear, fillCells]
      cases cells[i]? <;> rfl

theorem Aligned.load (h : c.Aligned) {seqId : Int} {sv : Bytes × List Int} (hi : Intact m sv)
    (hsettled : c.LoadsSettled seqId sv.2.length)
    (hl : (c.stateRead seqId sv.1 sv.2).cache = some c') : c'.Aligned := by
  by_cases hseq : seqId = -1
  · subst hseq
    exact h.load_all hi hsettled hl
  · exact h.load_seq hseq hi hsettled hl

end KvCache

/-! ## Sessions -/

theorem kvStep_aligned {c c' : KvCache m size} (h : c.Aligned) {op : KvOp m size}
    (hop : ∀ seqId bs rots, op ≠ .stateRead seqId bs rots) (hs : kvStep c op = some c') :
    c'.Aligned := by
  cases op with
  | clear => cases hs; exact h.clear
  | seqRm seqId p0 p1 => cases hs; exact h.seqRm seqId p0 p1
  | seqCp src dst p0 p1 => cases hs; exact h.seqCp src dst p0 p1
  | seqKeep seqId => cases hs; exact h.seqKeep seqId
  | seqAdd seqId p0 p1 delta => cases hs; exact h.seqAdd seqId p0 p1 delta
  | seqDiv seqId p0 p1 d => cases hs; exact h.seqDiv seqId p0 p1 d
  | defragSched => cases hs; exact ⟨h.outside, h.settled, h.rotated⟩
  | update => exact (h.update hs).aligned
  | decode call =>
    obtain ⟨⟨c₁, r⟩, hd, rfl⟩ := Option.map_eq_some_iff.1 hs
    exact h.decode hd
  | stateRead seqId bs rots => exact absurd rfl (hop seqId bs rots)

structure Session.Aligned (x : Session m size) : Prop where
  cache : x.cache.Aligned
  saved : ∀ sv ∈ x.saved, Nonempty (Intact m sv)

theorem sessionStep_aligned {x x' : Session m size} (h : x.Aligned) {op : SessionOp m size}
    (hok : op.Settled x) (hs : sessionStep x op = some x') : x'.Aligned := by
  cases op with
  | op op =>
    have hop : ∀ seqId bs rots, op ≠ .stateRead seqId bs rots := by
      rintro seqId bs rots rfl
      simp [sessionStep] at hs
    have hs : (kvStep x.cache op).map (fun c => { x with cache := c }) = some x' := by
      cases op <;> first | exact hs | exact absurd rfl (hop _ _ _)
    obtain ⟨c, hc, rfl⟩ := Option.map_eq_some_iff.1 hs
    exact ⟨kvStep_aligned h.cache hop hc, h.saved⟩
  | save seqId =>
    cases hs
    refine ⟨h.cache, fun sv hsv => ?_⟩
    rcases List.mem_append.1 hsv with hsv | hsv
    · exact h.saved sv hsv
    · rw [List.mem_singleton.1 hsv]
      exact h.cache.save hok
  | load k seqId =>
    simp only [sessionStep, Option.bind_eq_some_iff, Option.map_eq_some_iff] at hs
    obtain ⟨sv, hk, c, hc, rfl⟩ := hs
    obtain ⟨hi⟩ := h.saved sv (List.mem_of_getElem? hk)
    exact ⟨h.cache.load hi (hok sv hk) hc, h.saved⟩

theorem KvCache.Aligned.isRotated {c : KvCache m size} (h : c.Aligned) : c.Rotated := by
  intro i hne
  have hrot := h.rotated i hne
  split_ifs with hs
  · exact hrot
  · rw [h.settled (by simpa using hs) i] at hrot
    exact hrot

theorem KvCache.Aligned.updatesRotated {c : KvCache m size} (h : c.Aligned) :
    c.UpdatesRotated := fun _ hu i =>
  ⟨(h.update hu).delta i, fun hne => (h.update hu).rotated i hne (by simp [Covers])⟩

/-- In every session the rows of the cells in use are rotated to the positions of the cells, up to
the pending shift, and an update leaves none. -/
def RotationLaw : Prop :=
  ∀ (m : KvParams) (size : Nat) (x : Session m size),
    Transition.Reachable sessionInit (fun x op x' => sessionStep x op = some x') x →
      x.cache.Rotated ∧ x.cache.UpdatesRotated

def emptySession : Session byteModel 4 := { cache := emptyCache 4 four_lt }

/-- One token is decoded, shifted, updated, saved, and loaded into another sequence. -/
def settledOps : List (SessionOp byteModel 4) :=
  [.op (.decode (decodeCall [(consecutive 0 0 1, .success)])), .op (.seqAdd 0 0 (-1) 5),
    .op .update, .save 0, .load 0 1]

def settledExec : Option (Session byteModel 4) :=
  Transition.exec (fun x op => if op.Settled x then sessionStep x op else none) emptySession
    settledOps

/-- One token is decoded and saved; while its shift is pending it is removed and loaded again. -/
def owingOps : List (SessionOp byteModel 4) :=
  [.op (.decode (decodeCall [(consecutive 0 0 1, .success)])), .save 0,
    .op (.seqAdd 0 0 (-1) 5), .op (.seqRm 0 (-1) (-1)), .load 0 0]

end LamaServer
