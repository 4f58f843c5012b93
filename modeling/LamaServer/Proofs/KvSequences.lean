import LamaServer.Proofs.KvCache

/-!
# What the operations on one sequence do to the others

A sequence is the set of its entries: their positions, the shifts they owe and their rows. A cell
that belongs to several sequences is an entry of each, with one position, so `seq_add` and `seq_div`
move it for all of them; `seq_rm` and `seq_cp` only say whose it is.
-/

namespace LamaServer

variable {m : KvParams} {size : Nat}

open Format (Block)

@[ext]
structure SeqEntry (m : KvParams) where
  pos : Int
  delta : Int
  k : ∀ il, Block (m.kSizeRow il)
  v : ∀ il, Fin (m.vRows il) → Block (m.vPiece il)

/-- A position from `p0` on and below `p1`; an open end is `posMax`. -/
def SeqEntry.InRange (p0 p1 : Int) (e : SeqEntry m) : Prop :=
  rangeStart p0 ≤ e.pos ∧ e.pos < rangeEnd p1

instance (p0 p1 : Int) (e : SeqEntry m) : Decidable (e.InRange p0 p1) :=
  inferInstanceAs (Decidable (_ ∧ _))

/-- An entry whose position goes below 0 is dropped. -/
def SeqEntry.added (p0 p1 delta : Int) (e : SeqEntry m) : Option (SeqEntry m) :=
  if e.InRange p0 p1 then
    if e.pos + delta < 0 then none
    else some { e with pos := e.pos + delta, delta := e.delta + delta }
  else some e

def SeqEntry.divided (p0 p1 d : Int) (e : SeqEntry m) : SeqEntry m :=
  if e.InRange p0 p1 then
    { e with pos := e.pos.tdiv d, delta := e.delta + (e.pos.tdiv d - e.pos) }
  else e

namespace KvCache

def seqEntry (c : KvCache m size) (i : Nat) : SeqEntry m where
  pos := (c.cells i).pos
  delta := (c.cells i).delta
  k il := c.k il i
  v il j := c.v il j i

/-- The entries of the cells that belong to some sequences. -/
def entriesWhere (c : KvCache m size) (p : Finset Int → Prop) : Set (SeqEntry m) :=
  {e | ∃ i < size, p (c.cells i).seqId ∧ c.seqEntry i = e}

/-- The entries of a sequence. -/
def seqMap (c : KvCache m size) (t : Int) : Set (SeqEntry m) := c.entriesWhere (t ∈ ·)

/-- The entries that a sequence shares with another. -/
def sharedMap (c : KvCache m size) (s t : Int) : Set (SeqEntry m) :=
  c.entriesWhere fun ids => s ∈ ids ∧ t ∈ ids

/-- The entries that a sequence does not share with another. -/
def apartMap (c : KvCache m size) (s t : Int) : Set (SeqEntry m) :=
  c.entriesWhere fun ids => s ∉ ids ∧ t ∈ ids

variable {c c' : KvCache m size} {s t p0 p1 : Int}

/-- An operation that gives and takes cells, each with the entry it was, changes the sets as it
changes the cells. -/
theorem entriesWhere_congr {p q : Finset Int → Prop} {r : SeqEntry m → Prop}
    (h : ∀ i, p (c'.cells i).seqId ↔ q (c.cells i).seqId ∧ r (c.seqEntry i))
    (he : ∀ i, p (c'.cells i).seqId → c'.seqEntry i = c.seqEntry i) :
    c'.entriesWhere p = {e ∈ c.entriesWhere q | r e} := by
  ext e
  constructor
  · rintro ⟨i, hi, hp, rfl⟩
    rw [he i hp]
    exact ⟨⟨i, hi, ((h i).1 hp).1, rfl⟩, ((h i).1 hp).2⟩
  · rintro ⟨⟨i, hi, hq, rfl⟩, hr⟩
    have hp := (h i).2 ⟨hq, hr⟩
    exact ⟨i, hi, hp, he i hp⟩

/-! ## Removing and copying -/

theorem rm_seqId (cell : KvCell) (s p0 p1 : Int) : (cell.rm s p0 p1).cell.seqId =
    if cell.inRange p0 p1 then cell.without s else cell.seqId := by
  unfold KvCell.rm
  by_cases hr : cell.inRange p0 p1
  · by_cases hs : s < 0 ∨ s ∈ cell.seqId
    · rw [if_pos ⟨hr, hs⟩, if_pos hr]
      split_ifs with hempty
      · exact hempty.symm
      · rfl
    · rw [not_or] at hs
      simp [hr, hs, KvCell.without]
  · simp [hr]

/-- A cell that keeps a sequence keeps its position. -/
theorem rm_cell {cell : KvCell} (h : t ∈ (cell.rm s p0 p1).cell.seqId) :
    (cell.rm s p0 p1).cell.pos = cell.pos ∧ (cell.rm s p0 p1).cell.delta = cell.delta := by
  unfold KvCell.rm at h ⊢
  split_ifs at h ⊢
  · simp at h
  · exact ⟨rfl, rfl⟩
  · exact ⟨rfl, rfl⟩

theorem seqRm_entry {i : Nat} (h : t ∈ ((c.seqRm s p0 p1).cells i).seqId) :
    (c.seqRm s p0 p1).seqEntry i = c.seqEntry i := by
  obtain ⟨hpos, hdelta⟩ := rm_cell h
  exact SeqEntry.ext hpos hdelta rfl rfl

theorem seqRm_seqMap (c : KvCache m size) (hs : 0 ≤ s) (p0 p1 : Int) :
    (c.seqRm s p0 p1).seqMap s = {e ∈ c.seqMap s | ¬ e.InRange p0 p1} := by
  refine entriesWhere_congr (fun i => ?_) fun i => seqRm_entry
  show s ∈ ((c.cells i).rm s p0 p1).cell.seqId ↔ _ ∧ ¬ (c.cells i).inRange p0 p1
  rw [rm_seqId]
  split_ifs with hr <;> simp [KvCell.without, not_lt.2 hs, hr]

theorem seqRm_seqMap_of_ne (c : KvCache m size) (hs : 0 ≤ s) (hts : t ≠ s) (p0 p1 : Int) :
    (c.seqRm s p0 p1).seqMap t = c.seqMap t := by
  refine (entriesWhere_congr (r := fun _ => True) (fun i => ?_) fun i => seqRm_entry).trans
    (Set.sep_true)
  show t ∈ ((c.cells i).rm s p0 p1).cell.seqId ↔ _
  rw [rm_seqId]
  split_ifs with hr <;> simp [KvCell.without, not_lt.2 hs, hts]

theorem seqRm_seqMap_of_neg (c : KvCache m size) (hs : s < 0) (t p0 p1 : Int) :
    (c.seqRm s p0 p1).seqMap t = {e ∈ c.seqMap t | ¬ e.InRange p0 p1} := by
  refine entriesWhere_congr (fun i => ?_) fun i => seqRm_entry
  show t ∈ ((c.cells i).rm s p0 p1).cell.seqId ↔ _ ∧ ¬ (c.cells i).inRange p0 p1
  rw [rm_seqId]
  split_ifs with hr <;> simp [KvCell.without, hs, hr]

theorem seqCp_entry (c : KvCache m size) (src s p0 p1 : Int) (i : Nat) :
    (c.seqCp src s p0 p1).seqEntry i = c.seqEntry i := by
  unfold KvCache.seqCp KvCell.cp
  split_ifs
  · rfl
  · simp only [seqEntry]
    split_ifs <;> rfl

theorem seqCp_seqId (c : KvCache m size) (src s p0 p1 : Int) (i : Nat) :
    t ∈ ((c.seqCp src s p0 p1).cells i).seqId ↔
      t ∈ (c.cells i).seqId ∨ t = s ∧ (c.cells i).hit src p0 p1 := by
  unfold KvCache.seqCp
  split_ifs with hsrc
  · subst hsrc
    constructor
    · exact .inl
    · rintro (h | ⟨rfl, h⟩)
      · exact h
      · exact h.1
  · show t ∈ ((c.cells i).cp src s p0 p1).seqId ↔ _
    unfold KvCell.cp
    split_ifs with hhit <;> simp [hhit, or_comm]

theorem seqCp_seqMap (c : KvCache m size) (src s p0 p1 : Int) :
    (c.seqCp src s p0 p1).seqMap s = c.seqMap s ∪ {e ∈ c.seqMap src | e.InRange p0 p1} := by
  ext e
  simp only [seqMap, entriesWhere, seqCp_seqId, seqCp_entry, true_and]
  constructor
  · rintro ⟨i, hi, hs | hhit, rfl⟩
    · exact .inl ⟨i, hi, hs, rfl⟩
    · exact .inr ⟨⟨i, hi, hhit.1, rfl⟩, hhit.2⟩
  · rintro (⟨i, hi, hs, rfl⟩ | ⟨⟨i, hi, hsrc, rfl⟩, hr⟩)
    · exact ⟨i, hi, .inl hs, rfl⟩
    · exact ⟨i, hi, .inr ⟨hsrc, hr⟩, rfl⟩

theorem seqCp_seqMap_of_ne (c : KvCache m size) (src : Int) (hts : t ≠ s) (p0 p1 : Int) :
    (c.seqCp src s p0 p1).seqMap t = c.seqMap t := by
  simp only [seqMap, entriesWhere, seqCp_seqId, seqCp_entry, hts, false_and, or_false]

/-! ## Adding and dividing -/

/-- What an operation that moves the cells of one sequence does to the entries of the cells that
belong to another. -/
structure Moves (c c' : KvCache m size) (s : Int) (f : SeqEntry m → Option (SeqEntry m)) :
    Prop where
  apart : ∀ i, s ∉ (c.cells i).seqId →
    (c'.cells i).seqId = (c.cells i).seqId ∧ c'.seqEntry i = c.seqEntry i
  shared : ∀ i, s ∈ (c.cells i).seqId → ∀ e, f (c.seqEntry i) = some e →
    (c'.cells i).seqId = (c.cells i).seqId ∧ c'.seqEntry i = e
  dropped : ∀ i, s ∈ (c.cells i).seqId → f (c.seqEntry i) = none → (c'.cells i).seqId = ∅

/-- Where the cells of `s` move, the entries that `t` shares with `s` move with them. -/
theorem Moves.seqMap {f : SeqEntry m → Option (SeqEntry m)} (h : Moves c c' s f) (t : Int) :
    c'.seqMap t = c.apartMap s t ∪ {e | ∃ e₀ ∈ c.sharedMap s t, f e₀ = some e} := by
  ext e
  constructor
  · rintro ⟨i, hi, ht, rfl⟩
    by_cases hs : s ∈ (c.cells i).seqId
    · cases hf : f (c.seqEntry i) with
      | none => simp [h.dropped i hs hf] at ht
      | some e =>
        obtain ⟨hids, he⟩ := h.shared i hs e hf
        exact .inr ⟨_, ⟨i, hi, ⟨hs, hids ▸ ht⟩, rfl⟩, he ▸ hf⟩
    · obtain ⟨hids, he⟩ := h.apart i hs
      exact .inl ⟨i, hi, ⟨hs, hids ▸ ht⟩, he.symm⟩
  · rintro (⟨i, hi, ⟨hs, ht⟩, rfl⟩ | ⟨_, ⟨i, hi, ⟨hs, ht⟩, rfl⟩, hf⟩)
    · obtain ⟨hids, he⟩ := h.apart i hs
      exact ⟨i, hi, hids.symm ▸ ht, he⟩
    · obtain ⟨hids, he⟩ := h.shared i hs e hf
      exact ⟨i, hi, hids.symm ▸ ht, he⟩

theorem sharedMap_self (c : KvCache m size) (s : Int) : c.sharedMap s s = c.seqMap s := by
  simp [sharedMap, KvCache.seqMap]

theorem apartMap_self (c : KvCache m size) (s : Int) : c.apartMap s s = ∅ := by
  simp [apartMap, entriesWhere]

theorem Moves.seqMap_self {f : SeqEntry m → Option (SeqEntry m)} (h : Moves c c' s f) :
    c'.seqMap s = {e | ∃ e₀ ∈ c.seqMap s, f e₀ = some e} := by
  rw [h.seqMap s, apartMap_self, sharedMap_self, Set.empty_union]

theorem not_hit_of_emptyRange {cell : KvCell} (h : rangeStart p0 = rangeEnd p1) :
    ¬ cell.hit s p0 p1 := fun hhit => by
  have := hhit.2.1
  have := hhit.2.2
  omega

theorem seqAdd_cells (c : KvCache m size) (s p0 p1 delta : Int) (i : Nat) :
    (c.seqAdd s p0 p1 delta).cells i = ((c.cells i).add s p0 p1 delta).cell := by
  unfold KvCache.seqAdd
  split_ifs with h
  · unfold KvCell.add
    split_ifs with hhit hneg
    · rcases h with rfl | h
      · have := le_trans (rangeStart_nonneg p0) hhit.2.1
        omega
      · exact absurd hhit (not_hit_of_emptyRange h)
    · rcases h with rfl | h
      · simp
      · exact absurd hhit (not_hit_of_emptyRange h)
    · rfl
  · rfl

theorem seqAdd_rows (c : KvCache m size) (s p0 p1 delta : Int) :
    (c.seqAdd s p0 p1 delta).k = c.k ∧ (c.seqAdd s p0 p1 delta).v = c.v := by
  unfold KvCache.seqAdd
  split_ifs <;> exact ⟨rfl, rfl⟩

theorem seqAdd_moves (c : KvCache m size) (s p0 p1 delta : Int) :
    Moves c (c.seqAdd s p0 p1 delta) s (SeqEntry.added p0 p1 delta) := by
  obtain ⟨hk, hv⟩ := c.seqAdd_rows s p0 p1 delta
  refine ⟨fun i hs => ?_, fun i hs e he => ?_, fun i hs he => ?_⟩
  · have hcell : (c.seqAdd s p0 p1 delta).cells i = c.cells i := by
      rw [seqAdd_cells, KvCell.add, if_neg fun hhit => hs hhit.1]
    simp only [seqEntry, hcell, hk, hv, and_self]
  · have hhit : (c.cells i).hit s p0 p1 ↔ (c.seqEntry i).InRange p0 p1 := and_iff_right hs
    unfold SeqEntry.added at he
    split_ifs at he with hr hneg
    · have hcell : (c.seqAdd s p0 p1 delta).cells i = { c.cells i with
          pos := (c.cells i).pos + delta, delta := (c.cells i).delta + delta } := by
        have hneg : ¬ (c.cells i).pos + delta < 0 := hneg
        rw [seqAdd_cells, KvCell.add, if_pos (hhit.2 hr), if_neg hneg]
      rw [← Option.some.inj he]
      simp only [seqEntry, hcell, hk, hv, and_self]
    · have hcell : (c.seqAdd s p0 p1 delta).cells i = c.cells i := by
        rw [seqAdd_cells, KvCell.add, if_neg (mt hhit.1 hr)]
      rw [← Option.some.inj he]
      simp only [seqEntry, hcell, hk, hv, and_self]
  · have hhit : (c.cells i).hit s p0 p1 ↔ (c.seqEntry i).InRange p0 p1 := and_iff_right hs
    unfold SeqEntry.added at he
    split_ifs at he with hr hneg
    have hneg : (c.cells i).pos + delta < 0 := hneg
    rw [seqAdd_cells, KvCell.add, if_pos (hhit.2 hr), if_pos hneg]

theorem seqDiv_cells (c : KvCache m size) (s p0 p1 d : Int) (i : Nat) :
    (c.seqDiv s p0 p1 d).cells i = (c.cells i).div s p0 p1 d := by
  unfold KvCache.seqDiv
  split_ifs with h
  · unfold KvCell.div
    split_ifs with hhit
    · rcases h with rfl | h
      · simp
      · exact absurd hhit (not_hit_of_emptyRange h)
    · rfl
  · rfl

theorem seqDiv_rows (c : KvCache m size) (s p0 p1 d : Int) :
    (c.seqDiv s p0 p1 d).k = c.k ∧ (c.seqDiv s p0 p1 d).v = c.v := by
  unfold KvCache.seqDiv
  split_ifs <;> exact ⟨rfl, rfl⟩

theorem seqDiv_moves (c : KvCache m size) (s p0 p1 d : Int) :
    Moves c (c.seqDiv s p0 p1 d) s (some ∘ SeqEntry.divided p0 p1 d) := by
  obtain ⟨hk, hv⟩ := c.seqDiv_rows s p0 p1 d
  refine ⟨fun i hs => ?_, fun i hs e he => ?_, fun i hs he => by simp at he⟩
  · have hcell : (c.seqDiv s p0 p1 d).cells i = c.cells i := by
      rw [seqDiv_cells, KvCell.div, if_neg fun hhit => hs hhit.1]
    simp only [seqEntry, hcell, hk, hv, and_self]
  · have hhit : (c.cells i).hit s p0 p1 ↔ (c.seqEntry i).InRange p0 p1 := and_iff_right hs
    rw [← Option.some.inj he]
    show _ ∧ _ = (c.seqEntry i).divided p0 p1 d
    by_cases hr : (c.seqEntry i).InRange p0 p1
    · have hcell : (c.seqDiv s p0 p1 d).cells i = { c.cells i with
          pos := (c.cells i).pos.tdiv d
          delta := (c.cells i).delta + ((c.cells i).pos.tdiv d - (c.cells i).pos) } := by
        rw [seqDiv_cells, KvCell.div, if_pos (hhit.2 hr)]
      rw [SeqEntry.divided, if_pos hr]
      simp only [seqEntry, hcell, hk, hv, and_self]
    · have hcell : (c.seqDiv s p0 p1 d).cells i = c.cells i := by
        rw [seqDiv_cells, KvCell.div, if_neg (mt hhit.1 hr)]
      rw [SeqEntry.divided, if_neg hr]
      simp only [seqEntry, hcell, hk, hv, and_self]

end KvCache

/-! ## The law and where it fails -/

/-- The operations on `s` leave every other sequence as it is. -/
def IndependenceLaw : Prop :=
  ∀ (m : KvParams) (size : Nat) (c : KvCache m size), KvReached m size c → ∀ s t : Int, t ≠ s →
    ∀ p0 p1 : Int, (0 ≤ s → (c.seqRm s p0 p1).seqMap t = c.seqMap t) ∧
      (∀ src, (c.seqCp src s p0 p1).seqMap t = c.seqMap t) ∧
      (∀ delta, (c.seqAdd s p0 p1 delta).seqMap t = c.seqMap t) ∧
      ∀ d > 1, (c.seqDiv s p0 p1 d).seqMap t = c.seqMap t

/-- The operations on `s` change its entries as documented. `seq_rm` and `seq_cp` leave every other
sequence as it is, `seq_add` and `seq_div` all but the entries that it shares with `s`. -/
theorem seqOps_independent (c : KvCache m size) {s t : Int} (hts : t ≠ s) (p0 p1 : Int) :
    (0 ≤ s → (c.seqRm s p0 p1).seqMap s = {e ∈ c.seqMap s | ¬ e.InRange p0 p1} ∧
      (c.seqRm s p0 p1).seqMap t = c.seqMap t) ∧
    (s < 0 → ∀ u, (c.seqRm s p0 p1).seqMap u = {e ∈ c.seqMap u | ¬ e.InRange p0 p1}) ∧
    (∀ src, (c.seqCp src s p0 p1).seqMap s = c.seqMap s ∪ {e ∈ c.seqMap src | e.InRange p0 p1} ∧
      (c.seqCp src s p0 p1).seqMap t = c.seqMap t) ∧
    (∀ delta, (c.seqAdd s p0 p1 delta).seqMap s =
        {e | ∃ e₀ ∈ c.seqMap s, e₀.added p0 p1 delta = some e} ∧
      (c.seqAdd s p0 p1 delta).seqMap t = c.apartMap s t ∪
        {e | ∃ e₀ ∈ c.sharedMap s t, e₀.added p0 p1 delta = some e}) ∧
    ∀ d > 1, (c.seqDiv s p0 p1 d).seqMap s = SeqEntry.divided p0 p1 d '' c.seqMap s ∧
      (c.seqDiv s p0 p1 d).seqMap t = c.apartMap s t ∪
        SeqEntry.divided p0 p1 d '' c.sharedMap s t := by
  refine ⟨fun hs => ⟨c.seqRm_seqMap hs p0 p1, c.seqRm_seqMap_of_ne hs hts p0 p1⟩,
    fun hs u => c.seqRm_seqMap_of_neg hs u p0 p1,
    fun src => ⟨c.seqCp_seqMap src s p0 p1, c.seqCp_seqMap_of_ne src hts p0 p1⟩, fun delta => ?_,
    fun d _ => ?_⟩
  · have hmoves := c.seqAdd_moves s p0 p1 delta
    exact ⟨hmoves.seqMap_self, hmoves.seqMap t⟩
  · have hmoves := c.seqDiv_moves s p0 p1 d
    have himage (S : Set (SeqEntry m)) : SeqEntry.divided p0 p1 d '' S =
        {e | ∃ e₀ ∈ S, (some ∘ SeqEntry.divided p0 p1 d) e₀ = some e} := by
      ext e
      simp
    rw [himage, himage]
    exact ⟨hmoves.seqMap_self, hmoves.seqMap t⟩

/-- A token of sequence 0 that sequence 1 shares. -/
def sharedOps : List (KvOp byteModel 4) :=
  [.decode (decodeCall [(consecutive 0 0 1, .success)]), .seqCp 0 1 (-1) (-1)]

def sharedExec : Option (KvCache byteModel 4) :=
  Transition.exec kvStep (emptyCache 4 four_lt) sharedOps

theorem seqOps_independent_shared : ∃ c, sharedExec = some c ∧
    (c.seqAdd 0 0 (-1) 5).seqMap 1 = c.apartMap 0 1 ∪
      {e | ∃ e₀ ∈ c.sharedMap 0 1, e₀.added 0 (-1) 5 = some e} := by
  have hsome : sharedExec.isSome := by decide
  obtain ⟨c, hc⟩ := Option.isSome_iff_exists.1 hsome
  have hlaw := seqOps_independent c (show (1 : Int) ≠ 0 by decide) 0 (-1)
  exact ⟨c, hc, (hlaw.2.2.2.1 5).2⟩

/-- The token of sequence 1 is at position 0, and at 5 after `seq_add` on sequence 0. -/
theorem not_independenceLaw : ¬ IndependenceLaw := by
  intro h
  have hexec : sharedExec.any fun c => (∀ i < 4, 1 ∈ (c.cells i).seqId → (c.cells i).pos = 0) ∧
      1 ∈ ((c.seqAdd 0 0 (-1) 5).cells 0).seqId ∧ ((c.seqAdd 0 0 (-1) 5).cells 0).pos = 5 := by
    decide
  cases hx : sharedExec with
  | none => simp [hx] at hexec
  | some c =>
    simp only [hx, Option.any_some, decide_eq_true_eq] at hexec
    obtain ⟨hbefore, hmem, hpos⟩ := hexec
    have hreach : KvReached byteModel 4 c :=
      ⟨_, sharedOps, ⟨_, rfl⟩, Transition.run_of_exec hx⟩
    have hsame := (h byteModel 4 c hreach 0 1 (by decide) 0 (-1)).2.2.1 5
    have hentry : (c.seqAdd 0 0 (-1) 5).seqEntry 0 ∈ c.seqMap 1 := by
      rw [← hsame]
      exact ⟨0, by decide, hmem, rfl⟩
    obtain ⟨i, hi, hid, he⟩ := hentry
    have hzero : (c.seqEntry i).pos = 0 := hbefore i hi hid
    have hfive : ((c.seqAdd 0 0 (-1) 5).seqEntry 0).pos = 5 := hpos
    rw [he, hfive] at hzero
    exact absurd hzero (by decide)

end LamaServer
