import LamaServer.GraphAlloc
import Mathlib.Data.List.TakeWhile
import Mathlib.Tactic.SplitIfs

/-!
# The dynamic allocator keeps its blocks apart

What it hands out comes from the free blocks, and what it is handed back is free again. The order of
the blocks does not matter for it, nor does a block that is empty.
-/

namespace LamaServer

open FreeList

theorem le_alignedOffset {offset alignment : ℕ} : offset ≤ alignedOffset offset alignment :=
  Nat.le_add_right ..

namespace DynTallocr

variable {alloc alloc' : DynTallocr} {size offset alignment i j : ℕ} {blocks bs' : List Block}

theorem bestFit_eq_some {best : Option ℕ × ℕ} (h : (bestFit size blocks i best).1 = some j) :
    best.1 = some j ∨ ∃ k b, j = i + k ∧ blocks[k]? = some b ∧ size ≤ b.size := by
  induction blocks generalizing i best with
  | nil => exact .inl h
  | cons b bs ih =>
    rcases ih h with hb | ⟨k, b', rfl, hk, hb'⟩
    · split_ifs at hb with hfit
      · obtain rfl := Option.some.inj hb
        exact .inr ⟨0, b, rfl, rfl, hfit.1⟩
      · exact .inl hb
    · exact .inr ⟨k + 1, b', by omega, by simpa using hk, hb'⟩

theorem findBlock_eq_some (h : alloc.findBlock size = some i) :
    ∃ b, alloc.freeBlocks[i]? = some b ∧ size ≤ b.size := by
  unfold findBlock at h
  split at h
  · rename_i j hj
    obtain rfl := Option.some.inj h
    rcases bestFit_eq_some hj with hb | ⟨k, b, rfl, hk, hb⟩
    · simp at hb
    · rw [Nat.zero_add]
      rw [List.getElem?_dropLast] at hk
      split_ifs at hk
      exact ⟨b, hk, hb⟩
  · split at h
    · rename_i b hb
      split_ifs at h with hs
      obtain rfl := Option.some.inj h
      rw [List.getLast?_eq_getElem?] at hb
      exact ⟨b, hb, hs⟩
    · simp at h

/-- What is allocated was free, and is not any more. -/
theorem allocate_spec (h : alloc.allocate alignment size = some (offset, alloc'))
    (ha : Apart alloc.freeBlocks) :
    Takes alloc.freeBlocks (Block.mk offset (alignedOffset size alignment)).span
      alloc'.freeBlocks ∧
    alloc'.maxSize = max alloc.maxSize (offset + alignedOffset size alignment) := by
  simp only [allocate, Option.bind_eq_bind, Option.bind_eq_some_iff, Option.some.injEq,
    Prod.mk.injEq] at h
  obtain ⟨i, hi, b, hb, rfl, rfl⟩ := h
  obtain ⟨b', hb', hs⟩ := findBlock_eq_some hi
  obtain rfl : b = b' := Option.some.inj (hb.symm.trans hb')
  refine ⟨?_, rfl⟩
  obtain ⟨hlt, rfl⟩ := List.getElem?_eq_some_iff.1 hb
  have hsplit : alloc.freeBlocks =
      alloc.freeBlocks.take i ++ alloc.freeBlocks[i] :: alloc.freeBlocks.drop (i + 1) := by
    rw [List.getElem_cons_drop, List.take_append_drop]
  have ht := Takes.carve (hsplit ▸ ha) hs
  rw [← hsplit] at ht
  dsimp only
  split_ifs with hz
  · rw [List.eraseIdx_eq_take_drop_succ]
    exact ht.erase hz
  · rw [List.set_eq_take_append_cons_drop, if_pos hlt]
    exact ht

theorem mergeBlock_spec {before : List Block}
    (h : mergeBlock offset size before blocks = some bs') (ha : Apart (before ++ blocks))
    (hd : Disjoint (Block.mk offset size).span (cover (before ++ blocks))) :
    Gives (before ++ blocks) (Block.mk offset size).span bs' := by
  induction blocks generalizing before with
  | nil => simp [mergeBlock] at h
  | cons b rest ih =>
    rw [mergeBlock.eq_def] at h
    dsimp only at h
    split_ifs at h with hend hstart
    · have hb : (Block.mk b.offset (b.size + size)).span =
          b.span ∪ (Block.mk offset size).span := by
        rw [Block.span_append, hend]
      rcases rest with _ | ⟨next, rest⟩
      · obtain rfl := Option.some.inj h
        exact Gives.absorb [b] ha hd (by simpa using hb)
      · dsimp only at h
        split_ifs at h with hnext
        · obtain rfl := Option.some.inj h
          refine Gives.absorb [b, next] ha hd ?_
          rw [Block.span_append, hnext, hb]
          simp only [cover_cons, cover_nil, Set.union_empty]
          exact Set.union_right_comm ..
        · obtain rfl := Option.some.inj h
          exact Gives.absorb [b] ha hd (by simpa using hb)
    · have hb : (Block.mk offset (b.size + size)).span =
          b.span ∪ (Block.mk offset size).span := by
        rw [Nat.add_comm b.size, Block.span_append, hstart, Set.union_comm]
      rcases hp : before.getLast? with _ | p <;> rw [hp] at h <;> dsimp only at h
      · obtain rfl := Option.some.inj h
        exact Gives.absorb [b] ha hd (by simpa using hb)
      · split_ifs at h with hprev
        · obtain rfl := Option.some.inj h
          have hlast : before = before.dropLast ++ [p] :=
            (List.dropLast_append_getLast? p hp).symm
          have hall : before ++ b :: rest = before.dropLast ++ ([p, b] ++ rest) := by
            conv_lhs => rw [hlast]
            simp
          rw [hall] at ha hd ⊢
          refine Gives.absorb [p, b] ha hd ?_
          rw [Block.span_append, hprev, hb]
          simp only [cover_cons, cover_nil, Set.union_empty, Set.union_assoc]
        · obtain rfl := Option.some.inj h
          exact Gives.absorb [b] ha hd (by simpa using hb)
    · rw [List.append_cons] at ha hd ⊢
      exact ih h ha hd

/-- What is freed is free. -/
theorem freeTensor_spec (h : alloc.freeTensor alignment offset size = some alloc')
    (ha : Apart alloc.freeBlocks)
    (hd : Disjoint (Block.mk offset (alignedOffset size alignment)).span
      (cover alloc.freeBlocks)) :
    Gives alloc.freeBlocks (Block.mk offset (alignedOffset size alignment)).span
      alloc'.freeBlocks ∧ alloc'.maxSize = alloc.maxSize := by
  unfold freeTensor at h
  dsimp only at h
  split at h
  · rename_i bs hm
    obtain rfl := Option.some.inj h
    exact ⟨mergeBlock_spec hm ha hd, rfl⟩
  · split_ifs at h
    obtain rfl := Option.some.inj h
    refine ⟨?_, rfl⟩
    have hall := List.takeWhile_append_dropWhile (p := (·.offset < offset)) (l := alloc.freeBlocks)
    rw [← hall] at ha hd
    have hg := Gives.insert ha hd
    rw [hall] at hg
    exact hg

/-! ## The blocks in order -/

/-- The list without the first addresses of a block stays in order. -/
theorem allocate_gapped (h : alloc.allocate alignment size = some (offset, alloc'))
    (hg : Gapped alloc.freeBlocks) : Gapped alloc'.freeBlocks ∧
    (∃ b ∈ alloc.freeBlocks, b.offset = offset) ∧ ∀ b ∈ alloc'.freeBlocks,
      b ∈ alloc.freeBlocks ∨ b.offset = offset + alignedOffset size alignment := by
  simp only [allocate, Option.bind_eq_bind, Option.bind_eq_some_iff, Option.some.injEq,
    Prod.mk.injEq] at h
  obtain ⟨i, hi, b, hb, rfl, rfl⟩ := h
  obtain ⟨b', hb', hs⟩ := findBlock_eq_some hi
  obtain rfl : b = b' := Option.some.inj (hb.symm.trans hb')
  have hmem := List.mem_of_getElem? hb
  obtain ⟨hlt, rfl⟩ := List.getElem?_eq_some_iff.1 hb
  have hsplit : alloc.freeBlocks =
      alloc.freeBlocks.take i ++ alloc.freeBlocks[i] :: alloc.freeBlocks.drop (i + 1) := by
    rw [List.getElem_cons_drop, List.take_append_drop]
  rw [hsplit] at hg
  dsimp only
  split_ifs with hz
  · rw [List.eraseIdx_eq_take_drop_succ]
    refine ⟨hg.erase, ⟨_, hmem, rfl⟩, fun c hc => .inl ?_⟩
    rw [hsplit]
    exact List.mem_append.2 ((List.mem_append.1 hc).imp_right (List.mem_cons_of_mem _))
  · rw [List.set_eq_take_append_cons_drop, if_pos hlt]
    refine ⟨hg.carve (by omega), ⟨_, hmem, rfl⟩, fun c hc => ?_⟩
    rcases List.mem_append.1 hc with hc | hc
    · exact .inl (List.mem_of_mem_take hc)
    · rcases List.mem_cons.1 hc with rfl | hc
      · exact .inr rfl
      · exact .inl (List.mem_of_mem_drop hc)

/-- A block that comes back is merged with those that it meets. -/
theorem mergeBlock_gapped {before : List Block}
    (h : mergeBlock offset size before blocks = some bs') (hg : Gapped (before ++ blocks))
    (hd : ∀ b ∈ before ++ blocks, b.offset + b.size ≤ offset ∨ offset + size ≤ b.offset)
    (hbefore : ∀ b ∈ before, b.offset + b.size ≠ offset) : Gapped bs' := by
  induction blocks generalizing before with
  | nil => simp [mergeBlock] at h
  | cons b rest ih =>
    obtain ⟨-, hgb, hlt⟩ := gapped_append.1 hg
    obtain ⟨hpos, hrest, -⟩ := gapped_cons.1 hgb
    have hltb := fun x hx => hlt x hx b (List.mem_cons_self ..)
    rw [mergeBlock.eq_def] at h
    dsimp only at h
    split_ifs at h with hend hstart
    · rcases rest with _ | ⟨next, rest⟩
      · obtain rfl := Option.some.inj h
        exact Gapped.replace [b] hg (Nat.add_pos_left hpos _) hltb
          (List.forall_mem_nil _)
      · obtain ⟨hnext, hnrest⟩ := List.forall_mem_cons.1 hrest
        obtain ⟨hnpos, hafter, -⟩ := gapped_cons.1 (gapped_cons.1 hgb).2.2
        dsimp only at h
        split_ifs at h with hmeets
        · obtain rfl := Option.some.inj h
          refine Gapped.replace [b, next] hg (Nat.add_pos_right _ hnpos) hltb
            fun y hy => ?_
          have := hafter y hy
          dsimp only
          omega
        · obtain rfl := Option.some.inj h
          have hapart := hd next (by simp)
          refine Gapped.replace [b] hg (Nat.add_pos_left hpos _) hltb
            (List.forall_mem_cons.2 ⟨?_, fun y hy => ?_⟩)
          · dsimp only
            omega
          · have := hafter y hy
            dsimp only
            omega
    · -- what is before it ends before the offset
      have hbef (x : Block) (hx : x ∈ before) : x.offset + x.size < offset := by
        have hapart := hd x (List.mem_append_left _ hx)
        have := hltb x hx
        have := hbefore x hx
        omega
      have hone : Gapped (before ++ ⟨offset, b.size + size⟩ :: rest) := by
        refine Gapped.replace [b] hg (Nat.add_pos_left hpos _) hbef fun y hy => ?_
        have := hrest y hy
        dsimp only
        omega
      rcases hp : before.getLast? with _ | p <;> rw [hp] at h <;> dsimp only at h
      · obtain rfl := Option.some.inj h
        exact hone
      · split_ifs at h with hprev
        · exact (hbefore p (List.mem_of_getLast? hp) hprev).elim
        · obtain rfl := Option.some.inj h
          exact hone
    · rw [List.append_cons] at hg hd
      refine ih h hg hd fun x hx => ?_
      rcases List.mem_append.1 hx with hx | hx
      · exact hbefore x hx
      · rw [List.mem_singleton.1 hx]
        exact hend

theorem mergeBlock_offset {before : List Block}
    (h : mergeBlock offset size before blocks = some bs') : ∀ b ∈ bs', b.offset = offset ∨
      ∃ c ∈ before ++ blocks, c.offset = b.offset := by
  induction blocks generalizing before with
  | nil => simp [mergeBlock] at h
  | cons b rest ih =>
    have hreplace (xs ys : List Block) (c : Block) (hxs : xs ⊆ before ++ b :: rest)
        (hys : ys ⊆ before ++ b :: rest)
        (hc : c.offset = offset ∨ ∃ d ∈ before ++ b :: rest, d.offset = c.offset) :
        ∀ d ∈ xs ++ c :: ys, d.offset = offset ∨
          ∃ e ∈ before ++ b :: rest, e.offset = d.offset := fun d hd => by
      rcases List.mem_append.1 hd with hd | hd
      · exact .inr ⟨d, hxs hd, rfl⟩
      · rcases List.mem_cons.1 hd with rfl | hd
        · exact hc
        · exact .inr ⟨d, hys hd, rfl⟩
    have hb : b ∈ before ++ b :: rest := List.mem_append_right _ (List.mem_cons_self ..)
    have hbefore : before ⊆ before ++ b :: rest := List.subset_append_left _ _
    have hrest : rest ⊆ before ++ b :: rest :=
      List.Subset.trans (List.subset_cons_self b rest) (List.subset_append_right _ _)
    rw [mergeBlock.eq_def] at h
    dsimp only at h
    split_ifs at h with hend hstart
    · rcases rest with _ | ⟨next, rest⟩
      · obtain rfl := Option.some.inj h
        exact hreplace _ _ _ hbefore (List.nil_subset _) (.inr ⟨b, hb, rfl⟩)
      · dsimp only at h
        split_ifs at h
        · obtain rfl := Option.some.inj h
          exact hreplace _ _ _ hbefore (List.Subset.trans (List.subset_cons_self next rest) hrest)
            (.inr ⟨b, hb, rfl⟩)
        · obtain rfl := Option.some.inj h
          exact hreplace _ _ _ hbefore hrest (.inr ⟨b, hb, rfl⟩)
    · rcases hp : before.getLast? with _ | p <;> rw [hp] at h <;> dsimp only at h
      · obtain rfl := Option.some.inj h
        exact hreplace _ _ _ hbefore hrest (.inl rfl)
      · split_ifs at h
        · obtain rfl := Option.some.inj h
          exact hreplace _ _ _ (List.Subset.trans (List.dropLast_subset before) hbefore)
            hrest
            (.inr ⟨p, hbefore (List.mem_of_getLast? hp), rfl⟩)
        · obtain rfl := Option.some.inj h
          exact hreplace _ _ _ hbefore hrest (.inl rfl)
    · rw [List.append_cons]
      exact ih h

theorem mergeBlock_eq_none {before : List Block} (h : mergeBlock offset size before blocks = none) :
    ∀ b ∈ blocks, b.offset + b.size ≠ offset ∧ offset + size ≠ b.offset := by
  induction blocks generalizing before with
  | nil => exact List.forall_mem_nil _
  | cons b rest ih =>
    rw [mergeBlock.eq_def] at h
    dsimp only at h
    split_ifs at h with hend hstart
    · rcases rest with _ | ⟨next, rest⟩
      · cases h
      · dsimp only at h
        split_ifs at h
    · rcases hp : before.getLast? with _ | p <;> rw [hp] at h <;> dsimp only at h
      · cases h
      · split_ifs at h
    · exact List.forall_mem_cons.2 ⟨⟨hend, hstart⟩, ih h⟩

/-- The list with a block that comes back stays in order. -/
theorem freeTensor_gapped (h : alloc.freeTensor alignment offset size = some alloc')
    (hg : Gapped alloc.freeBlocks) (hsize : 0 < alignedOffset size alignment)
    (hd : Disjoint (Block.mk offset (alignedOffset size alignment)).span
      (cover alloc.freeBlocks)) :
    Gapped alloc'.freeBlocks ∧ ∀ b ∈ alloc'.freeBlocks, b.offset = offset ∨
      ∃ c ∈ alloc.freeBlocks, c.offset = b.offset := by
  have hapart : ∀ b ∈ alloc.freeBlocks, b.offset + b.size ≤ offset ∨
      offset + alignedOffset size alignment ≤ b.offset := fun b hb =>
    ((Block.disjoint_iff hsize (hg.pos b hb)).1 (disjoint_cover.1 hd b hb)).symm
  unfold freeTensor at h
  dsimp only at h
  split at h
  · rename_i bs hm
    obtain rfl := Option.some.inj h
    exact ⟨mergeBlock_gapped hm hg hapart (List.forall_mem_nil _), mergeBlock_offset hm⟩
  · rename_i hm
    split_ifs at h
    obtain rfl := Option.some.inj h
    have hmeets := mergeBlock_eq_none hm
    have hall := List.takeWhile_append_dropWhile (p := (·.offset < offset)) (l := alloc.freeBlocks)
    have hbefore (b : Block) (hb : b ∈ alloc.freeBlocks.takeWhile (·.offset < offset)) :
        b ∈ alloc.freeBlocks ∧ b.offset < offset :=
      ⟨List.takeWhile_subset _ hb, by simpa using List.mem_takeWhile_imp hb⟩
    have hafter (b : Block) (hb : b ∈ alloc.freeBlocks.dropWhile (·.offset < offset)) :
        b ∈ alloc.freeBlocks ∧ offset ≤ b.offset := by
      refine ⟨List.dropWhile_subset _ hb, ?_⟩
      have hgd := (gapped_append.1 (hall.symm ▸ hg)).2.1
      have hhead := List.head?_dropWhile_not (fun b : Block => decide (b.offset < offset))
        alloc.freeBlocks
      rcases hdrop : alloc.freeBlocks.dropWhile (·.offset < offset) with _ | ⟨c, rest⟩
      · rw [hdrop] at hb
        cases hb
      · rw [hdrop] at hb hhead hgd
        have hc : offset ≤ c.offset := by simpa using hhead
        rcases List.mem_cons.1 hb with rfl | hb
        · exact hc
        · have := (gapped_cons.1 hgd).2.1 b hb
          omega
    refine ⟨Gapped.replace [] (hall.symm ▸ hg) hsize (fun b hb => ?_) fun b hb => ?_,
      fun b hb => ?_⟩
    · obtain ⟨hmem, hlt⟩ := hbefore b hb
      have := hapart b hmem
      have := (hmeets b hmem).1
      dsimp only
      omega
    · obtain ⟨hmem, hle⟩ := hafter b hb
      have := hapart b hmem
      have := hg.pos b hmem
      have := (hmeets b hmem).2
      dsimp only
      omega
    · rcases List.mem_append.1 hb with hb | hb
      · exact .inr ⟨b, (hbefore b hb).1, rfl⟩
      · rcases List.mem_cons.1 hb with rfl | hb
        · exact .inl rfl
        · exact .inr ⟨b, (hafter b hb).1, rfl⟩

end DynTallocr

end LamaServer
