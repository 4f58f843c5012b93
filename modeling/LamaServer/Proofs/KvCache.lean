import LamaServer.KvState
import LamaServer.Lib.Transition

/-!
# What the operations of the unified cache do to its cells

A run calls the operations one after another. In the runs whose positions stay between `0` and
`posMax` a cell without a position belongs to no sequence, so a slot that `find_slot` finds is
blank. `used` exceeds the number of cells with a position by the same amount before and after every
operation that gives cells out or takes them back.
-/

namespace LamaServer

variable {m : KvParams} {size : Nat}

/-! ## Runs -/

inductive KvOp (m : KvParams) (size : Nat) where
  | clear
  | seqRm (seqId p0 p1 : Int)
  | seqCp (src dst p0 p1 : Int)
  | seqKeep (seqId : Int)
  | seqAdd (seqId p0 p1 delta : Int)
  | seqDiv (seqId p0 p1 d : Int)
  /-- `llama_kv_self_defrag` -/
  | defragSched
  | update
  | decode (call : DecodeCall m)
  | stateRead (seqId : Int) (bs : Bytes) (rots : List Int)

/-- The cache after a read, unless it aborted. -/
def Loaded.cache : Loaded m size → Option (KvCache m size)
  | .loaded c _ => some c
  | .failed c => some c
  | .aborted => none

def kvStep (c : KvCache m size) : KvOp m size → Option (KvCache m size)
  | .clear => some c.clear
  | .seqRm seqId p0 p1 => some (c.seqRm seqId p0 p1)
  | .seqCp src dst p0 p1 => some (c.seqCp src dst p0 p1)
  | .seqKeep seqId => some (c.seqKeep seqId)
  | .seqAdd seqId p0 p1 delta => some (c.seqAdd seqId p0 p1 delta)
  | .seqDiv seqId p0 p1 d => some (c.seqDiv seqId p0 p1 d)
  | .defragSched => some { c with doDefrag := true }
  | .update => c.update
  | .decode call => (c.decode call).map Prod.fst
  | .stateRead seqId bs rots => (c.stateRead seqId bs rots).cache

def ValidPos (p : Int) : Prop := 0 ≤ p ∧ p < posMax

instance : DecidablePred ValidPos := fun _ => inferInstanceAs (Decidable (_ ∧ _))

def Ubatch.Valid (ub : Ubatch) : Prop := ∀ k < ub.nTokens, ValidPos (ub.pos k)

/-- The positions a stream gives to cells. -/
def streamPositions (seqId : Int) (bs : Bytes) : List Int :=
  match readTo u32 bs with
  | .error _ => []
  | .ok (count, bs) =>
    if seqId = -1 then (readCells count bs).1.map Prod.fst
    else match readPositions count bs with
      | .error _ => []
      | .ok (positions, _) => positions

/-- No cell is given a position below `0` or from `posMax` on. -/
def KvOp.Valid (c : KvCache m size) : KvOp m size → Prop
  | .seqAdd seqId p0 p1 delta =>
    ∀ i, (c.cells i).hit seqId p0 p1 → (c.cells i).pos + delta < posMax
  | .seqDiv _ _ _ d => 0 < d
  | .decode call => ∀ g ∈ call.computes, g.ubatch.Valid
  | .stateRead seqId bs _ => ∀ p ∈ streamPositions seqId bs, ValidPos p
  | _ => True

/-- The caches that runs end in. -/
def KvReached (m : KvParams) (size : Nat) : KvCache m size → Prop :=
  Transition.Reachable (fun c => ∃ h, c = { size_lt := h }) fun c op c' => kvStep c op = some c'

/-- The caches that runs with valid positions end in. -/
def KvReachable (m : KvParams) (size : Nat) : KvCache m size → Prop :=
  Transition.Reachable (fun c => ∃ h, c = { size_lt := h })
    (Transition.Guarded KvOp.Valid fun c op c' => kvStep c op = some c')

/-! ## Cells without a position -/

structure KvCell.Sound (cell : KvCell) : Prop where
  lt : cell.pos < posMax
  blank : cell.pos < 0 → cell.pos = -1 ∧ cell.seqId = ∅

def KvCache.Sound (c : KvCache m size) : Prop := ∀ i, (c.cells i).Sound

theorem KvCell.sound_blank (delta : Int) : KvCell.Sound { pos := -1, delta := delta, seqId := ∅ } :=
  ⟨by simp [posMax], fun _ => ⟨rfl, rfl⟩⟩

theorem KvCell.sound_of_validPos {cell : KvCell} (h : ValidPos cell.pos) : cell.Sound :=
  ⟨h.2, fun hlt => absurd h.1 (by omega)⟩

theorem rangeStart_nonneg (p0 : Int) : 0 ≤ rangeStart p0 := by
  unfold rangeStart
  split_ifs <;> omega

@[simp] theorem KvCache.sweep_cells (c : KvCache m size) (body : Nat → KvCell → Touched) (i : Nat) :
    (c.sweep body).1.cells i = (body i (c.cells i)).cell := rfl

@[simp] theorem KvCache.lowerHead_cells (r : KvCache m size × Nat) :
    (lowerHead r).cells = r.1.cells := rfl

theorem KvCell.Sound.rm {cell : KvCell} (h : cell.Sound) (seqId p0 p1 : Int) :
    (cell.rm seqId p0 p1).cell.Sound := by
  unfold KvCell.rm
  split_ifs with hhit hempty
  · exact sound_blank _
  · exact sound_of_validPos ⟨le_trans (rangeStart_nonneg p0) hhit.1.1, h.lt⟩
  · exact h

theorem KvCell.Sound.keep {cell : KvCell} (h : cell.Sound) (seqId : Int) :
    (cell.keep seqId).cell.Sound := by
  unfold KvCell.keep
  split_ifs with hmem
  · refine ⟨h.lt, fun hlt => ?_⟩
    rw [(h.blank hlt).2] at hmem
    simp at hmem
  · exact sound_blank _

theorem KvCell.Sound.add {cell : KvCell} (h : cell.Sound) {seqId p0 p1 delta : Int}
    (hlt : cell.hit seqId p0 p1 → cell.pos + delta < posMax) :
    (cell.add seqId p0 p1 delta).cell.Sound := by
  unfold KvCell.add
  split_ifs with hhit hneg
  · exact sound_blank _
  · exact sound_of_validPos ⟨not_lt.1 hneg, hlt hhit⟩
  · exact h

theorem KvCell.Sound.cp {cell : KvCell} (h : cell.Sound) (src dst p0 p1 : Int) :
    (cell.cp src dst p0 p1).Sound := by
  unfold KvCell.cp
  split_ifs with hhit
  · exact sound_of_validPos ⟨le_trans (rangeStart_nonneg p0) hhit.2.1, h.lt⟩
  · exact h

theorem KvCell.Sound.div {cell : KvCell} (h : cell.Sound) (seqId p0 p1 : Int) {d : Int}
    (hd : 0 < d) : (cell.div seqId p0 p1 d).Sound := by
  unfold KvCell.div
  split_ifs with hhit
  · have hp : 0 ≤ cell.pos := le_trans (rangeStart_nonneg p0) hhit.2.1
    refine sound_of_validPos ⟨Int.tdiv_nonneg hp hd.le, lt_of_le_of_lt ?_ h.lt⟩
    exact Int.tdiv_le_self d hp
  · exact h

namespace KvCache

variable {c : KvCache m size}

theorem Sound.clear (c : KvCache m size) : c.clear.Sound := fun _ => KvCell.sound_blank _

theorem Sound.seqRm (h : c.Sound) (seqId p0 p1 : Int) : (c.seqRm seqId p0 p1).Sound :=
  fun i => (h i).rm seqId p0 p1

theorem Sound.seqCp (h : c.Sound) (src dst p0 p1 : Int) : (c.seqCp src dst p0 p1).Sound := by
  unfold KvCache.seqCp
  split_ifs
  · exact h
  · exact fun i => (h i).cp src dst p0 p1

theorem Sound.seqKeep (h : c.Sound) (seqId : Int) : (c.seqKeep seqId).Sound :=
  fun i => (h i).keep seqId

theorem Sound.seqDiv (h : c.Sound) (seqId p0 p1 : Int) {d : Int} (hd : 0 < d) :
    (c.seqDiv seqId p0 p1 d).Sound := by
  unfold KvCache.seqDiv
  split_ifs
  · exact h
  · exact fun i => (h i).div seqId p0 p1 hd

theorem Sound.seqAdd (h : c.Sound) {seqId p0 p1 delta : Int}
    (hlt : ∀ i, (c.cells i).hit seqId p0 p1 → (c.cells i).pos + delta < posMax) :
    (c.seqAdd seqId p0 p1 delta).Sound := by
  unfold KvCache.seqAdd
  split_ifs
  · exact h
  · exact fun i => (h i).add (hlt i)

/-! ## Giving cells out and taking them back -/

/-- The cells the ranges are about. -/
def Covers (ranges : List (Nat × Nat)) (i : Nat) : Prop := ∃ r ∈ ranges, r.1 ≤ i ∧ i < r.2

theorem covers_append {as bs : List (Nat × Nat)} {i : Nat} :
    Covers (as ++ bs) i ↔ Covers as i ∨ Covers bs i := by
  simp [Covers, or_and_right, exists_or]

/-- The cells with a position. -/
def occupied (c : KvCache m size) : Nat := Nat.count (fun i => 0 ≤ (c.cells i).pos) size

def slack (c : KvCache m size) : Int := c.used - c.occupied

theorem occupied_congr {c c' : KvCache m size} (h : ∀ i, (c'.cells i).pos = (c.cells i).pos) :
    c'.occupied = c.occupied :=
  Index.count_congr fun i _ => by rw [h i]

theorem slack_sweep {body : Nat → KvCell → Touched}
    (h : ∀ i, 0 ≤ (c.cells i).pos ↔
      0 ≤ (body i (c.cells i)).cell.pos ∨ (body i (c.cells i)).unused)
    (hd : ∀ i, ¬ (0 ≤ (body i (c.cells i)).cell.pos ∧ (body i (c.cells i)).unused)) :
    (c.sweep body).1.slack = c.slack := by
  have hcount : c.occupied = (c.sweep body).1.occupied +
      Nat.count (fun i => (body i (c.cells i)).unused) size :=
    Index.count_or (fun i _ => h i) fun i _ => hd i
  have hused : (c.sweep body).1.used =
      c.used - Nat.count (fun i => (body i (c.cells i)).unused) size := rfl
  simp only [slack]
  omega

theorem restoreRange_cells (c : KvCache m size) (r : Nat × Nat) (i : Nat) :
    (c.restoreRange r).cells i =
      if r.1 ≤ i ∧ i < r.2 then { c.cells i with pos := -1, seqId := ∅ } else c.cells i := by
  simp only [restoreRange, sweep]
  split_ifs <;> rfl

theorem slack_restoreRange (c : KvCache m size) (r : Nat × Nat) :
    (c.restoreRange r).slack = c.slack := by
  refine slack_sweep (fun i => ?_) fun i => ?_ <;> split_ifs <;> simp

theorem foldl_restoreRange_cells : ∀ (rs : List (Nat × Nat)) (c : KvCache m size) (i : Nat),
    ((rs.foldl restoreRange c).cells i = c.cells i ∧ ¬ Covers rs i) ∨
    ((rs.foldl restoreRange c).cells i = { c.cells i with pos := -1, seqId := ∅ } ∧ Covers rs i)
  | [], c, i => .inl ⟨rfl, by simp [Covers]⟩
  | r :: rs, c, i => by
    have hcov : Covers (r :: rs) i ↔ (r.1 ≤ i ∧ i < r.2) ∨ Covers rs i := by simp [Covers]
    rw [List.foldl_cons, hcov]
    rcases foldl_restoreRange_cells rs (c.restoreRange r) i with ⟨h, hn⟩ | ⟨h, hc⟩ <;>
      rw [h, restoreRange_cells] <;> by_cases hr : r.1 ≤ i ∧ i < r.2 <;> simp [*]

theorem foldl_restoreRange_slack : ∀ (rs : List (Nat × Nat)) (c : KvCache m size),
    (rs.foldl restoreRange c).slack = c.slack
  | [], _ => rfl
  | r :: rs, c => (foldl_restoreRange_slack rs _).trans (slack_restoreRange c r)

/-- `restore` empties the cells of the pending ranges. -/
theorem restore_cells (c : KvCache m size) (i : Nat) :
    (c.restore.cells i = c.cells i ∧ ¬ Covers c.pending i) ∨
    (c.restore.cells i = { c.cells i with pos := -1, seqId := ∅ } ∧ Covers c.pending i) := by
  unfold restore
  split_ifs with h
  · exact .inl ⟨rfl, by simp [h, Covers]⟩
  · exact foldl_restoreRange_cells c.pending c i

theorem restore_slack (c : KvCache m size) : c.restore.slack = c.slack := by
  unfold restore
  split_ifs
  · rfl
  · exact foldl_restoreRange_slack c.pending c

theorem restore_of_committed (h : c.pending = []) : c.restore = c := by simp [restore, h]

theorem Sound.restore (h : c.Sound) : c.restore.Sound := by
  intro i
  rcases restore_cells c i with ⟨hi, -⟩ | ⟨hi, -⟩ <;> rw [hi]
  · exact h i
  · exact KvCell.sound_blank _

theorem searchSlot_free {cells : Nat → KvCell} {size n : Nat} : ∀ {r head nTested h : Nat},
    searchSlot cells size n r head nTested = (h, true) →
      h + n ≤ size ∧ ∀ i, h ≤ i → i < h + n → (cells i).pos < 0
  | 0, _, _, _, hs => by simp [searchSlot] at hs
  | r + 1, head, nTested, h, hs => by
    simp only [searchSlot] at hs
    split_ifs at hs with hend
    · exact searchSlot_free hs
    · cases hf : (List.range n).find? fun i => 0 ≤ (cells (head + i)).pos with
      | none =>
        simp only [hf, Prod.mk.injEq, and_true] at hs
        subst hs
        refine ⟨not_lt.1 hend, fun i hi hlt => ?_⟩
        have := List.find?_eq_none.1 hf (i - head) (List.mem_range.2 (by omega))
        simpa [Nat.add_sub_cancel' hi] using this
      | some i =>
        simp only [hf] at hs
        split_ifs at hs
        · simp at hs
        · exact searchSlot_free hs

section Complete

variable {cells : Nat → KvCell} {size n h₀ : Nat}

/-- A free window is ahead of an occupied cell of the window that is tested before it. -/
theorem lt_of_occupied (hfree : ∀ i, h₀ ≤ i → i < h₀ + n → (cells i).pos < 0) {head i : Nat}
    (hhead : head ≤ h₀) (hi : i < n) (hocc : 0 ≤ (cells (head + i)).pos) : head + i < h₀ := by
  by_contra hge
  exact absurd hocc (not_le.2 (hfree _ (not_lt.1 hge) (by omega)))

/-- The search from the start of the cache up to where it began. -/
theorem searchSlot_wrapped (hsize : h₀ + n ≤ size)
    (hfree : ∀ i, h₀ ≤ i → i < h₀ + n → (cells i).pos < 0) (start : Nat) (hstart : h₀ < start) :
    ∀ {r head nTested : Nat}, nTested + start = size + head → head ≤ h₀ → start - head + 1 ≤ r →
      (searchSlot cells size n r head nTested).2 = true
  | 0, _, _, _, _, hr => by omega
  | r + 1, head, nTested, ht, hh, hr => by
    rw [searchSlot, if_neg (by omega)]
    cases hf : (List.range n).find? fun i => 0 ≤ (cells (head + i)).pos with
    | none => rfl
    | some i =>
      have hi := lt_of_occupied hfree hh (List.mem_range.1 (List.mem_of_find?_eq_some hf))
        (by simpa using List.find?_some hf)
      dsimp only
      rw [if_neg (by omega)]
      exact searchSlot_wrapped hsize hfree start hstart (by omega) (by omega) (by omega)

/-- The search finds a free window if there is one: what it has passed does not begin one. -/
theorem searchSlot_complete (hn : 0 < n) (hsize : h₀ + n ≤ size)
    (hfree : ∀ i, h₀ ≤ i → i < h₀ + n → (cells i).pos < 0) (start : Nat) :
    ∀ {r head nTested : Nat}, nTested + start = head → (head ≤ size ∨ nTested = 0) →
      (h₀ < start ∨ head ≤ h₀) → size - head + min start size + 2 ≤ r →
      (searchSlot cells size n r head nTested).2 = true
  | 0, _, _, _, _, _, hr => by omega
  | r + 1, head, nTested, ht, hle, hh, hr => by
    rw [searchSlot]
    split_ifs with hend
    · exact searchSlot_wrapped hsize hfree (min start size) (by omega) (by omega)
        (by omega) (by omega)
    · cases hf : (List.range n).find? fun i => 0 ≤ (cells (head + i)).pos with
      | none => rfl
      | some i =>
        have hin := List.mem_range.1 (List.mem_of_find?_eq_some hf)
        have hi : head ≤ h₀ → head + i < h₀ := fun hh =>
          lt_of_occupied hfree hh hin (by simpa using List.find?_some hf)
        dsimp only
        rw [if_neg (by omega)]
        exact searchSlot_complete hn hsize hfree start (by omega) (by omega) (by omega)
          (by omega)

end Complete

/-- `find_slot` gives the tokens a window of cells without a position, or only moves the head. -/
theorem findSlot_cases (c : KvCache m size) (ub : Ubatch) :
    (∃ head, c.findSlot ub = (c.place ub head, true) ∧ head + ub.nTokens ≤ size ∧
      ∀ i, head ≤ i → i < head + ub.nTokens → (c.cells i).pos < 0) ∨
    ∃ head, c.findSlot ub = ({ c with head := head }, false) := by
  unfold findSlot
  dsimp only
  split_ifs with hsize hhead hfound
  all_goals first
    | exact .inr ⟨_, rfl⟩
    | skip
  all_goals
    have hfree := searchSlot_free (Prod.ext rfl ‹_›)
    exact .inl ⟨_, rfl, hfree⟩

/-- A window of cells without a position. -/
def Room (c : KvCache m size) (n : Nat) : Prop :=
  ∃ h, h + n ≤ size ∧ ∀ i, h ≤ i → i < h + n → (c.cells i).pos < 0

theorem findSlot_of_room {ub : Ubatch} (h : c.Room ub.nTokens) : (c.findSlot ub).2 = true := by
  obtain ⟨h₀, hsize, hfree⟩ := h
  have hfound : ∀ head, (searchSlot c.cells size ub.nTokens (2 * size + 2) head 0).2 = true := by
    intro head
    rcases Nat.eq_zero_or_pos ub.nTokens with h0 | hpos
    · simp only [searchSlot, h0, Nat.add_zero, List.range_zero, List.find?_nil]
      split_ifs <;> first | rfl | omega
    · exact searchSlot_complete hpos hsize hfree head (by omega) (by omega) (by omega)
        (by omega)
  unfold findSlot
  dsimp only
  rw [if_neg (by omega), if_pos (hfound _)]

theorem room_of_findSlot {ub : Ubatch} (h : (c.findSlot ub).2 = true) : c.Room ub.nTokens := by
  rcases findSlot_cases c ub with ⟨head, hs, hsize, hfree⟩ | ⟨head, hs⟩
  · exact ⟨head, hsize, hfree⟩
  · simp [hs] at h

/-- Where a slot is found depends on the number of the tokens only. -/
theorem findSlot_head (c : KvCache m size) {ub ub' : Ubatch} (h : ub.nTokens = ub'.nTokens) :
    (c.findSlot ub).2 = (c.findSlot ub').2 ∧
      (c.findSlot ub).1.head = (c.findSlot ub').1.head := by
  unfold findSlot
  rw [h]
  dsimp only
  split_ifs <;> exact ⟨rfl, rfl⟩

theorem place_cells_of_mem {ub : Ubatch} {head i : Nat} (h : head ≤ i ∧ i < head + ub.nTokens) :
    (c.place ub head).cells i =
      { c.cells i with
        pos := ub.pos (i - head)
        seqId := (c.cells i).seqId ∪ (ub.seqId ((i - head) / ub.nSeqTokens)).toFinset } := by
  simp [place, h]

theorem place_cells_of_notMem {ub : Ubatch} {head i : Nat}
    (h : ¬ (head ≤ i ∧ i < head + ub.nTokens)) : (c.place ub head).cells i = c.cells i := by
  simp only [place, if_neg h]

theorem Sound.place (h : c.Sound) {ub : Ubatch} (hub : ub.Valid) (head : Nat) :
    (c.place ub head).Sound := by
  intro i
  by_cases hi : head ≤ i ∧ i < head + ub.nTokens
  · rw [place_cells_of_mem hi]
    exact KvCell.sound_of_validPos (hub _ (by omega))
  · rw [place_cells_of_notMem hi]
    exact h i

theorem slack_place {ub : Ubatch} (hub : ∀ k < ub.nTokens, 0 ≤ ub.pos k) {head : Nat}
    (hsize : head + ub.nTokens ≤ size)
    (hfree : ∀ i, head ≤ i → i < head + ub.nTokens → (c.cells i).pos < 0) :
    (c.place ub head).slack = c.slack := by
  have hcount : (c.place ub head).occupied = c.occupied + ub.nTokens := by
    rw [← Index.count_window hsize]
    refine Index.count_or (fun i _ => ?_) fun i _ ⟨h0, hi⟩ => ?_
    · by_cases hi : head ≤ i ∧ i < head + ub.nTokens
      · rw [place_cells_of_mem hi]
        simp [hi, hub (i - head) (by omega)]
      · rw [place_cells_of_notMem hi]
        simp [hi]
    · exact absurd h0 (not_le.2 (hfree i hi.1 hi.2))
  simp only [slack, hcount]
  simp only [KvCache.place]
  omega

end KvCache

/-! ## Updates -/

namespace Defrag

variable {nKv nUsed maxMoves i0 nh : Nat} {P : KvCell → Prop}

/-- Defragmentation only moves cells and leaves blank ones behind. -/
theorem fill_cells (hP : P {}) : ∀ {r i1 nf : Nat} {cont : Bool} {s : Defrag},
    (∀ i, P (s.cells i)) →
      ∀ i, P ((fill nKv nUsed maxMoves i0 nh r i1 nf cont s).1.cells i)
  | 0, _, _, _, _, h => h
  | r + 1, i1, nf, cont, s, h => by
    have hmove : ∀ i, P ((s.move nUsed i1 (i0 + nf) cont).cells i) := by
      intro i
      simp only [move, Function.update_apply]
      split_ifs
      · exact hP
      · exact h _
      · exact h _
    simp only [fill]
    split_ifs
    · exact h
    · exact fill_cells hP h
    · exact hmove
    · exact fill_cells hP hmove

/-- What one round of the loop does. -/
theorem loop_cases {r : Nat} {s s' : Defrag}
    (h : loop nKv nUsed maxMoves (r + 1) i0 s = some s') :
    (nUsed ≤ i0 ∧ s' = s) ∨
    (i0 < nUsed ∧ (s.cells i0).seqId ≠ ∅ ∧
      loop nKv nUsed maxMoves r (i0 + 1) { s with ids := Function.update s.ids i0 i0 } = some s') ∨
    (i0 < nUsed ∧ (s.cells i0).seqId = ∅ ∧ ∃ nh tail filled,
      nh = Index.firstBelow (nUsed - i0) (fun j => (s.cells (i0 + j)).seqId ≠ ∅) ∧
      s.findTail nKv i0 nh (nKv - 1) 0 = (nh, tail) ∧
      filled = (fill nKv nUsed maxMoves i0 nh (nKv - tail) tail 0 false s).1 ∧
      (s' = filled ∨ loop nKv nUsed maxMoves r (i0 + nh) filled = some s')) := by
  rw [loop] at h
  dsimp only at h
  split_ifs at h with h1 h2 h3 h4
  · exact .inl ⟨h1, (Option.some.inj h).symm⟩
  · exact .inr (.inl ⟨not_le.1 h1, h2, h⟩)
  · exact .inr (.inr ⟨not_le.1 h1, not_not.1 h2, _, _, _, rfl, Prod.ext (not_not.1 h3) rfl, rfl,
      .inl (Option.some.inj h).symm⟩)
  · exact .inr (.inr ⟨not_le.1 h1, not_not.1 h2, _, _, _, rfl, Prod.ext (not_not.1 h3) rfl, rfl,
      .inr h⟩)

theorem loop_cells (hP : P {}) : ∀ {r i0 : Nat} {s s' : Defrag},
    loop nKv nUsed maxMoves r i0 s = some s' → (∀ i, P (s.cells i)) → ∀ i, P (s'.cells i)
  | 0, _, s, s', hl, h => by
    simp only [loop, Option.some.injEq] at hl
    exact hl ▸ h
  | r + 1, i0, s, s', hl, h => by
    rcases loop_cases hl with ⟨-, rfl⟩ | ⟨-, -, hl⟩ | ⟨-, -, nh, tail, filled, -, -, rfl, hl⟩
    · exact h
    · exact loop_cells hP hl h
    · rcases hl with rfl | hl
      · exact fill_cells hP h
      · exact loop_cells hP hl (fill_cells hP h)

end Defrag

namespace KvCache

variable {c c' : KvCache m size}

theorem Sound.update (h : c.Sound) (hu : c.update = some c') : c'.Sound := by
  have hshift : c.applyShift.Sound := by
    unfold applyShift
    split_ifs
    · exact fun i => ⟨(h i).lt, (h i).blank⟩
    · exact h
  unfold KvCache.update applyDefrag at hu
  split_ifs at hu
  · simp only [Option.map_eq_some_iff, defragPrepare] at hu
    obtain ⟨s, hs, rfl⟩ := hu
    have hcells := Defrag.loop_cells (P := KvCell.Sound) (KvCell.sound_blank 0) hs hshift
    split_ifs <;> exact hcells
  · exact Option.some.inj hu ▸ hshift

theorem applyShift_spec (c : KvCache m size) :
    (∀ i, (c.applyShift.cells i).pos = (c.cells i).pos ∧
      (c.applyShift.cells i).seqId = (c.cells i).seqId) ∧
    c.applyShift.used = c.used ∧ c.applyShift.pending = c.pending ∧
    c.applyShift.doDefrag = c.doDefrag := by
  unfold applyShift
  split_ifs <;> simp

/-! ## Decoding -/

theorem Sound.findSlot (h : c.Sound) {ub : Ubatch} (hub : ub.Valid) : (c.findSlot ub).1.Sound := by
  rcases findSlot_cases c ub with ⟨head, hs, -, -⟩ | ⟨head, hs⟩ <;> rw [hs]
  · exact h.place hub head
  · exact h

theorem Sound.decodeLoop : ∀ {gs : List (Compute m)} {c : KvCache m size}, c.Sound →
    (∀ g ∈ gs, g.ubatch.Valid) → (c.decodeLoop gs).1.Sound
  | [], _, h, _ => h
  | g :: gs, c, h, hv => by
    have hslot := h.findSlot (hv g (by simp))
    simp only [KvCache.decodeLoop]
    split_ifs
    · cases g.status with
      | success =>
        exact Sound.decodeLoop (c := (c.findSlot g.ubatch).1.writeRows g) hslot
          fun g' hg' => hv g' (by simp [hg'])
      | allocFailed => exact hslot
      | failed => exact hslot
      | aborted => exact hslot
    · exact hslot

/-- What a call of `decode` is: it stops at its checks, or it updates the cache, gives out cells
and commits or restores them. -/
theorem decode_cases {call : DecodeCall m} {r : Except String Int}
    (h : c.decode call = some (c', r)) :
    (r ≠ .ok 0 ∧ c' = c.restore) ∨
    ∃ cu, c.update = some cu ∧
      ((r = .ok 0 ∧ (cu.decodeLoop call.computes).2 = 0 ∧
          ∃ b, c' = { (cu.decodeLoop call.computes).1 with pending := [], doDefrag := b }) ∨
        (r ≠ .ok 0 ∧ c' = (cu.decodeLoop call.computes).1.restore)) := by
  unfold decode at h
  split_ifs at h
  · simp only [Option.some.injEq, Prod.mk.injEq] at h
    exact .inl ⟨by simp [← h.2], h.1.symm⟩
  · simp only [Option.some.injEq, Prod.mk.injEq] at h
    exact .inl ⟨by simp [← h.2], h.1.symm⟩
  · simp only [Option.map_eq_some_iff] at h
    obtain ⟨cu, hu, h⟩ := h
    refine .inr ⟨cu, hu, ?_⟩
    split_ifs at h with h0 <;> simp only [Prod.mk.injEq] at h
    · exact .inl ⟨h.2.symm, h0, _, h.1.symm.trans (restore_of_committed rfl)⟩
    · exact .inr ⟨by rw [← h.2]; simpa using h0, h.1.symm⟩

theorem Sound.decode (h : c.Sound) {call : DecodeCall m} {r : Except String Int}
    (hv : ∀ g ∈ call.computes, g.ubatch.Valid) (hd : c.decode call = some (c', r)) : c'.Sound := by
  rcases decode_cases hd with ⟨-, rfl⟩ | ⟨cu, hu, ⟨-, -, b, rfl⟩ | ⟨-, rfl⟩⟩
  · exact h.restore
  · exact (h.update hu).decodeLoop hv
  · exact ((h.update hu).decodeLoop hv).restore

/-! ## Loading -/

/-- All but the rows is the same. -/
structure SameMeta (c c' : KvCache m size) : Prop where
  head : c'.head = c.head
  used : c'.used = c.used
  cells : c'.cells = c.cells
  hasShift : c'.hasShift = c.hasShift
  doDefrag : c'.doDefrag = c.doDefrag
  pending : c'.pending = c.pending

@[refl] theorem SameMeta.refl (c : KvCache m size) : SameMeta c c := ⟨rfl, rfl, rfl, rfl, rfl, rfl⟩

theorem SameMeta.trans {c₁ c₂ c₃ : KvCache m size} (h : SameMeta c₁ c₂) (h' : SameMeta c₂ c₃) :
    SameMeta c₁ c₃ :=
  ⟨h'.head.trans h.head, h'.used.trans h.used, h'.cells.trans h.cells,
    h'.hasShift.trans h.hasShift, h'.doDefrag.trans h.doDefrag, h'.pending.trans h.pending⟩

theorem SameMeta.bind {r : Loading m size} {f : KvCache m size → Bytes → Loading m size}
    (h : SameMeta c r.1) (hf : ∀ c bs, SameMeta c (f c bs).1) : SameMeta c (r.bind f).1 := by
  obtain ⟨c₁, e | bs⟩ := r
  · exact h
  · exact h.trans (hf c₁ bs)

theorem readEach_sameMeta {ι : Type} {f : ι → KvCache m size → Bytes → Loading m size}
    (hf : ∀ a c bs, SameMeta c (f a c bs).1) : ∀ (as : List ι) (c : KvCache m size) (bs : Bytes),
      SameMeta c (readEach f as c bs).1
  | [], c, _ => .refl c
  | a :: as, c, bs => (hf a c bs).bind (readEach_sameMeta hf as)

theorem readKeys_sameMeta (count : Nat) (il : Fin m.nLayer) (c : KvCache m size) (bs : Bytes) :
    SameMeta c (c.readKeys count il bs).1 := by
  unfold readKeys
  split <;> exact ⟨rfl, rfl, rfl, rfl, rfl, rfl⟩

theorem readValues_sameMeta (count : Nat) (il : Fin m.nLayer) (c : KvCache m size) (bs : Bytes) :
    SameMeta c (c.readValues count il bs).1 := by
  have hrow : ∀ j (c : KvCache m size) bs, SameMeta c (KvCache.readValueRow count il j c bs).1 := by
    intro j c bs
    unfold readValueRow
    split <;> exact ⟨rfl, rfl, rfl, rfl, rfl, rfl⟩
  unfold readValues
  split
  · exact .refl c
  · exact readEach_sameMeta hrow _ c _

theorem stateReadData_sameMeta (c : KvCache m size) (count : Nat) (rots : List Int) (bs : Bytes) :
    SameMeta c (c.stateReadData count rots bs).1 := by
  refine SameMeta.bind (.refl c) fun c bs => SameMeta.bind ?_ fun c bs => ?_
  · exact readEach_sameMeta (readKeys_sameMeta count) _ c bs
  · have h := readEach_sameMeta (readValues_sameMeta count) (List.finRange m.nLayer)
      { c with rot := setRows c.head (rots.take count) c.rot } bs
    exact ⟨h.head, h.used, h.cells, h.hasShift, h.doDefrag, h.pending⟩

theorem loadUbatch_nTokens (dest : Int) (ps : List Int) :
    (loadUbatch dest ps).nTokens = ps.length := by
  simp [Ubatch.nTokens, loadUbatch]

theorem loadUbatch_valid (dest : Int) {ps : List Int} (h : ∀ p ∈ ps, ValidPos p) :
    (loadUbatch dest ps).Valid := by
  intro k hk
  rw [loadUbatch_nTokens] at hk
  simpa [loadUbatch, hk] using h _ (List.getElem_mem hk)

theorem Sound.readMetaSeq (h : c.Sound) {dest : Int} {count : Nat} {bs : Bytes} {r : Loading m size}
    (hv : ∀ ps rest, readPositions count bs = .ok (ps, rest) → ∀ p ∈ ps, ValidPos p)
    (hr : c.readMetaSeq dest count bs = some r) : r.1.Sound := by
  have hrm := h.seqRm dest (-1) (-1)
  unfold KvCache.readMetaSeq at hr
  dsimp only at hr
  split at hr
  · cases hr
    exact hrm
  · rename_i ps rest hps
    have hslot := hrm.findSlot (loadUbatch_valid dest (hv ps rest hps))
    split_ifs at hr <;> cases hr <;> exact hslot

theorem Sound.readMetaAll (h : c.Sound) {count : Nat} {bs : Bytes}
    (hv : ∀ p ∈ (readCells count bs).1.map Prod.fst, ValidPos p) :
    (c.readMetaAll count bs).1.Sound := by
  unfold KvCache.readMetaAll
  split_ifs
  · exact h
  · have hfill : (c.clear.fillCells (readCells count bs).1).Sound := by
      intro i
      simp only [fillCells]
      cases hi : (readCells count bs).1[i]? with
      | none => exact Sound.clear c i
      | some pi =>
        exact KvCell.sound_of_validPos
          (hv pi.1 (List.mem_map_of_mem (List.mem_of_getElem? hi)))
    dsimp only
    split <;> exact hfill

theorem Sound.finishRead {seqId : Int} {r : Loading m size} (h : r.1.Sound)
    (hc : (finishRead seqId r).cache = some c') : c'.Sound := by
  obtain ⟨c, e | bs⟩ := r
  · cases e <;> simp only [LamaServer.finishRead, Loaded.cache, Option.some.injEq] at hc <;>
      subst hc
    · exact h
    · split_ifs
      · exact Sound.clear c
      · exact h.seqRm _ _ _
  · simp only [LamaServer.finishRead, Loaded.cache, Option.some.injEq] at hc
    exact hc ▸ h

theorem Sound.stateRead (h : c.Sound) {seqId : Int} {bs : Bytes} {rots : List Int}
    (hv : ∀ p ∈ streamPositions seqId bs, ValidPos p)
    (hc : (c.stateRead seqId bs rots).cache = some c') : c'.Sound := by
  unfold KvCache.stateRead at hc
  unfold streamPositions at hv
  cases hcount : readTo u32 bs with
  | error e =>
    simp only [hcount, Loaded.cache, Option.some.injEq] at hc
    exact hc ▸ h
  | ok r =>
    obtain ⟨count, rest⟩ := r
    simp only [hcount] at hc hv
    have hdata : ∀ r : Loading m size, r.1.Sound →
        (r.bind fun c bs => c.stateReadData count rots bs).1.Sound := by
      rintro ⟨c, e | bs⟩ hr
      · exact hr
      · intro i
        rw [Loading.bind, (stateReadData_sameMeta c count rots bs).cells]
        exact hr i
    split_ifs at hc hv
    · exact Sound.finishRead (hdata _ (h.readMetaAll hv)) hc
    · cases hmeta : c.readMetaSeq seqId count rest with
      | none => simp [hmeta, Loaded.cache] at hc
      | some r =>
        simp only [hmeta] at hc
        refine Sound.finishRead (hdata r (h.readMetaSeq (fun ps rest' hps => ?_) hmeta)) hc
        simpa only [hps] using hv

end KvCache

theorem kvStep_sound {c c' : KvCache m size} {op : KvOp m size} (h : c.Sound) (hv : op.Valid c)
    (hs : kvStep c op = some c') : c'.Sound := by
  cases op with
  | clear => cases hs; exact .clear c
  | seqRm seqId p0 p1 => cases hs; exact h.seqRm seqId p0 p1
  | seqCp src dst p0 p1 => cases hs; exact h.seqCp src dst p0 p1
  | seqKeep seqId => cases hs; exact h.seqKeep seqId
  | seqAdd seqId p0 p1 delta => cases hs; exact h.seqAdd hv
  | seqDiv seqId p0 p1 d => cases hs; exact h.seqDiv seqId p0 p1 hv
  | defragSched => cases hs; exact h
  | update => exact h.update hs
  | decode call =>
    obtain ⟨⟨c₁, r⟩, hd, rfl⟩ := Option.map_eq_some_iff.1 hs
    exact h.decode hv hd
  | stateRead seqId bs rots => exact h.stateRead hv hs

theorem KvReachable.sound {c : KvCache m size} (h : KvReachable m size c) : c.Sound := by
  refine Transition.Reachable.invariant (I := KvCache.Sound) ?_ ?_ h
  · rintro _ ⟨_, rfl⟩ i
    exact KvCell.sound_blank 0
  · exact fun _ _ _ hc hs => kvStep_sound hc hs.1 hs.2

/-! ## A small model -/

/-- One layer with rows of one byte. -/
def byteModel : KvParams where
  nLayer := 1
  vTrans := false
  kType _ := 1
  kSizeRow _ := 1
  vType _ := 1
  vSizeRow _ := 1
  vSizeEl _ := 1
  nEmbdVGqa _ := 1
  ropeShift _ _ row := row
  maxMoves := 8
  nLayer_lt := by decide
  kType_valid _ := by simp [Format.signed]
  kSizeRow_lt _ := by decide
  vType_valid _ := by simp [Format.signed]
  vSizeRow_lt _ := by decide
  vSizeEl_lt _ := by decide
  nEmbdVGqa_lt _ := by decide

def emptyCache (size : Nat) (h : size < 2 ^ 32) : KvCache byteModel size := { size_lt := h }

theorem four_lt : 4 < 2 ^ 32 := by decide

/-- A ubatch of tokens of one sequence at consecutive positions. -/
def consecutive (seqId pos : Int) (n : Nat) : Ubatch where
  nSeqs := n
  nSeqTokens := 1
  pos k := pos + k
  seqId _ := [seqId]

/-- A call of `decode` whose ubatches compute with the given statuses. -/
def decodeCall (ubatches : List (Ubatch × GgmlStatus)) : DecodeCall byteModel where
  tokensValid := true
  outputReserved := true
  computes := ubatches.map fun u =>
    { ubatch := u.1, status := u.2, k := fun _ _ => ⟨[7], rfl⟩, v := fun _ _ _ => ⟨[9], rfl⟩ }
  fragmented := false

end LamaServer
