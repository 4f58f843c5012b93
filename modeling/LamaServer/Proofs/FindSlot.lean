import LamaServer.Proofs.KvAccount

/-!
# Finding a slot

The search tests every start of a window once: up to the end from the head on, then from the first
cell. It counts what it has passed, so it ends; and since the head is in the cache
(`Accounted.head_le`) the differences of the source do not wrap.
-/

namespace LamaServer

/-- The runs of the loop of `find_slot`, from a head and a count of tested cells to the head they
end with and whether they found a slot. -/
inductive SlotSearch (cells : Nat → KvCell) (size n : Nat) : Nat → Nat → Nat × Bool → Prop where
  | wrap {head nTested : Nat} {r : Nat × Bool} (hend : size < head + n)
      (h : SlotSearch cells size n 0 (nTested + (size - head)) r) :
      SlotSearch cells size n head nTested r
  | found {head nTested : Nat} (hend : head + n ≤ size)
      (hfree : ∀ i < n, (cells (head + i)).pos < 0) :
      SlotSearch cells size n head nTested (head, true)
  | full {head nTested i : Nat} (hend : head + n ≤ size) (hi : i < n)
      (hfree : ∀ j < i, (cells (head + j)).pos < 0) (hocc : 0 ≤ (cells (head + i)).pos)
      (htested : size ≤ nTested + (i + 1)) :
      SlotSearch cells size n head nTested (head + (i + 1), false)
  | next {head nTested i : Nat} {r : Nat × Bool} (hend : head + n ≤ size) (hi : i < n)
      (hfree : ∀ j < i, (cells (head + j)).pos < 0) (hocc : 0 ≤ (cells (head + i)).pos)
      (htested : nTested + (i + 1) < size)
      (h : SlotSearch cells size n (head + (i + 1)) (nTested + (i + 1)) r) :
      SlotSearch cells size n head nTested r

/-- Whether the next round goes back to the first cell. -/
def wraps (size n head : Nat) : Nat := if size < head + n then 1 else 0

/-- The loop ends: every second round at the latest tests a cell. -/
theorem slotSearch_searchSlot {cells : Nat → KvCell} {size n : Nat} (hn : n ≤ size) :
    ∀ {r head nTested : Nat}, 2 * (size - nTested) + wraps size n head + 1 ≤ r →
      SlotSearch cells size n head nTested (searchSlot cells size n r head nTested)
  | 0, head, nTested, hr => by omega
  | r + 1, head, nTested, hr => by
    unfold searchSlot
    unfold wraps at hr
    split_ifs at hr ⊢ with hend
    · refine .wrap hend (slotSearch_searchSlot hn ?_)
      rw [wraps, if_neg (by omega)]
      omega
    · cases hf : (List.range n).find? fun i => 0 ≤ (cells (head + i)).pos with
      | none =>
        refine .found (not_lt.1 hend) fun i hi => ?_
        simpa using List.find?_eq_none.1 hf i (List.mem_range.2 hi)
      | some i =>
        obtain ⟨hocc, hi, hfree⟩ := List.find?_range_eq_some.1 hf
        simp only [decide_eq_true_eq] at hocc
        have hi := List.mem_range.1 hi
        have hfree : ∀ j < i, (cells (head + j)).pos < 0 := fun j hj => by
          simpa using hfree j hj
        dsimp only
        split_ifs with htested
        · exact .full (not_lt.1 hend) hi hfree hocc htested
        · refine .next (not_lt.1 hend) hi hfree hocc (not_le.1 htested)
            (slotSearch_searchSlot hn ?_)
          unfold wraps
          split_ifs <;> omega

namespace KvCache

variable {m : KvParams} {size : Nat}

/-- The head that the search begins with. -/
def startHead (c : KvCache m size) (ub : Ubatch) : Nat :=
  if (c.used + 2 * ub.nTokens) % 2 ^ 32 < c.head then 0 else c.head

/-- The tokens of a batch have been given the cells from the new head on. -/
structure PlacedAt (c c' : KvCache m size) (ub : Ubatch) : Prop where
  inside : c'.head + ub.nTokens ≤ size
  free : ∀ k < ub.nTokens, (c.cells (c'.head + k)).pos < 0
  pos : ∀ k < ub.nTokens, (c'.cells (c'.head + k)).pos = ub.pos k
  seqId : ∀ k < ub.nTokens, (c'.cells (c'.head + k)).seqId =
    (c.cells (c'.head + k)).seqId ∪ (ub.seqId (k / ub.nSeqTokens)).toFinset
  other : ∀ i, ¬(c'.head ≤ i ∧ i < c'.head + ub.nTokens) → c'.cells i = c.cells i

/-- Where a cell without a position has no sequence, a cell gets those of its token and no others. -/
theorem PlacedAt.seqId_eq {c c' : KvCache m size} {ub : Ubatch} (h : PlacedAt c c' ub)
    (hempty : ∀ i, (c.cells i).pos < 0 → (c.cells i).seqId = ∅) {k : Nat} (hk : k < ub.nTokens) :
    (c'.cells (c'.head + k)).seqId = (ub.seqId (k / ub.nSeqTokens)).toFinset := by
  rw [h.seqId k hk, hempty _ (h.free k hk), Finset.empty_union]

theorem placedAt_place (c : KvCache m size) (ub : Ubatch) {head : Nat}
    (hinside : head + ub.nTokens ≤ size)
    (hfree : ∀ i, head ≤ i → i < head + ub.nTokens → (c.cells i).pos < 0) :
    PlacedAt c (c.place ub head) ub := by
  have hcell : ∀ k < ub.nTokens, (c.place ub head).cells (head + k) =
      { c.cells (head + k) with
        pos := ub.pos k
        seqId := (c.cells (head + k)).seqId ∪ (ub.seqId (k / ub.nSeqTokens)).toFinset } := by
    intro k hk
    rw [place_cells_of_mem (by omega), Nat.add_sub_cancel_left]
  refine ⟨hinside, fun k hk => hfree _ (Nat.le_add_right _ _) ?_, fun k hk => ?_, fun k hk => ?_,
    fun i hi => place_cells_of_notMem hi⟩
  · exact Nat.add_lt_add_left hk _
  · exact congrArg KvCell.pos (hcell k hk)
  · exact congrArg KvCell.seqId (hcell k hk)

theorem findSlot_eq_searchSlot (c : KvCache m size) {ub : Ubatch} (hn : ub.nTokens ≤ size) :
    ((c.findSlot ub).1.head, (c.findSlot ub).2) =
      searchSlot c.cells size ub.nTokens (2 * size + 2) (c.startHead ub) 0 := by
  have hfind : c.findSlot ub =
      let found := searchSlot c.cells size ub.nTokens (2 * size + 2) (c.startHead ub) 0
      if found.2 then (c.place ub found.1, true) else ({ c with head := found.1 }, false) := by
    unfold findSlot
    exact if_neg (by omega)
  rw [hfind]
  dsimp only
  split_ifs with hfound
  · exact Prod.ext rfl hfound.symm
  · exact Prod.ext rfl (by simpa using hfound)

/-- In a cache whose cells are accounted for a slot has the sequences of its tokens. -/
theorem Accounted.seqId_findSlot {c : KvCache m size} (h : c.Accounted) {ub : Ubatch}
    (hfound : (c.findSlot ub).2 = true) {k : Nat} (hk : k < ub.nTokens) :
    ((c.findSlot ub).1.cells ((c.findSlot ub).1.head + k)).seqId =
      (ub.seqId (k / ub.nSeqTokens)).toFinset := by
  rcases findSlot_cases c ub with ⟨head, hs, hinside, hfree⟩ | ⟨head, hs⟩
  · rw [hs]
    refine (placedAt_place c ub hinside hfree).seqId_eq (fun i hi => ?_) hk
    by_contra hne
    exact absurd ((h.balanced i).2 hne) (not_le.2 hi)
  · simp [hs] at hfound

end KvCache

end LamaServer
