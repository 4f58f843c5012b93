import LamaServer.DefragGraph
import LamaServer.Proofs.DefragRounds

/-!
# Defragmentation is a compaction

The copies of the graph carry the rows of the cells that move and no others, none of them writes
what another one reads, and so their order does not matter.
-/

namespace LamaServer

open Index (firstBelow)

/-! ## The copies of the graph -/

open BlockCopy (Carries Independent applyAll)

section Groups

variable {nKv : Nat} {ids : Nat → Nat}

/-- The groups carry the rows of the cells that move, and no others. -/
theorem carries_copyGroups (hlt : ∀ i, Defrag.Moved nKv ids i → i < nKv ∧ ids i < i) :
    ∀ {r i : Nat}, nKv ≤ i + r → ∀ a d, Carries (copyGroups nKv ids r i) a d ↔
      i ≤ a ∧ Defrag.Moved nKv ids a ∧ ids a = d
  | 0, i, hr, a, d => by
    refine ⟨fun ⟨_, hg, _⟩ => absurd hg (by simp [copyGroups]), fun ⟨hi, hm, _⟩ => ?_⟩
    have := (hlt a hm).1
    omega
  | r + 1, i, hr, a, d => by
    rw [copyGroups]
    split_ifs with hend hstay
    · refine ⟨fun ⟨_, hg, _⟩ => absurd hg (by simp), fun ⟨hi, hm, _⟩ => ?_⟩
      have := (hlt a hm).1
      omega
    · rw [carries_copyGroups hlt (by omega)]
      have hi : ∀ a, Defrag.Moved nKv ids a → a ≠ i := by
        rintro a hm rfl
        exact not_or.2 hm hstay
      refine and_congr_left fun ⟨hm, _⟩ => ?_
      have := hi a hm
      omega
    · have hmi : Defrag.Moved nKv ids i := not_or.1 hstay
      generalize hnm : (firstBelow (nKv - i) fun j => ids (i + j) ≠ ids i + j) = nm
      have hle : nm ≤ nKv - i := hnm ▸ Index.firstBelow_le
      have hrun : ∀ k < nm, ids (i + k) = ids i + k := fun k hk => by
        simpa using Index.not_of_lt_firstBelow (p := fun j => ids (i + j) ≠ ids i + j) (hnm ▸ hk)
      have hpos : 0 < nm := by
        by_contra h0
        have hz : (firstBelow (nKv - i) fun j => ids (i + j) ≠ ids i + j) = 0 := by omega
        have := Index.firstBelow_spec (n := nKv - i) (p := fun j => ids (i + j) ≠ ids i + j)
          (by omega)
        rw [hz] at this
        simp at this
      have hmoved : ∀ k < nm, Defrag.Moved nKv ids (i + k) := fun k hk => by
        have := hlt i hmi
        rw [Defrag.Moved, hrun k hk]
        omega
      rw [BlockCopy.carries_cons, carries_copyGroups hlt (by omega)]
      constructor
      · rintro (⟨k, hk, rfl, rfl⟩ | ⟨hi, hm⟩)
        · exact ⟨Nat.le_add_right i k, hmoved k hk, hrun k hk⟩
        · exact ⟨by omega, hm⟩
      · rintro ⟨hi, hm, rfl⟩
        by_cases hin : a < i + nm
        · obtain ⟨k, rfl⟩ := Nat.exists_eq_add_of_le hi
          exact .inl ⟨k, show k < nm by omega, rfl, (hrun k (by omega))⟩
        · exact .inr ⟨by omega, hm, rfl⟩

theorem carries_groups (hlt : ∀ i, Defrag.Moved nKv ids i → i < nKv ∧ ids i < i) {a d : Nat} :
    Carries (copyGroups nKv ids nKv 0) a d ↔ Defrag.Moved nKv ids a ∧ ids a = d := by
  simpa using carries_copyGroups hlt (i := 0) (by omega) a d

end Groups

section Nodes

variable {m : KvParams} {size nKv : Nat} {ids : Nat → Nat} {nodes : List (CopyNode m)}

/-- The block a node copies in the K or V tensor of a layer. -/
def CopyNode.block (il : Fin m.nLayer) (ofV : Bool) (n : CopyNode m) : Option BlockCopy :=
  if n.layer = il ∧ n.ofV = ofV then some n.copy else none

theorem runNodes_k : ∀ (nodes : List (CopyNode m)) (c : KvCache m size) (il : Fin m.nLayer),
    (runNodes nodes c).k il = applyAll (nodes.filterMap (CopyNode.block il false)) (c.k il)
  | [], _, _ => rfl
  | n :: nodes, c, il => by
    have hstep : runNodes (n :: nodes) c = runNodes nodes (n.run c) := rfl
    rw [hstep, runNodes_k nodes, List.filterMap_cons]
    rcases n with ⟨layer, _ | _, g⟩
    · by_cases hl : layer = il
      · subst hl
        simp [CopyNode.run, CopyNode.block, applyAll]
      · simp [CopyNode.run, CopyNode.block, hl, Function.update_of_ne (Ne.symm hl)]
    · simp [CopyNode.run, CopyNode.block]

theorem runNodes_v : ∀ (nodes : List (CopyNode m)) (c : KvCache m size) (il : Fin m.nLayer)
    (j : Fin (m.vRows il)),
    (runNodes nodes c).v il j = applyAll (nodes.filterMap (CopyNode.block il true)) (c.v il j)
  | [], _, _, _ => rfl
  | n :: nodes, c, il, j => by
    have hstep : runNodes (n :: nodes) c = runNodes nodes (n.run c) := rfl
    rw [hstep, runNodes_v nodes, List.filterMap_cons]
    rcases n with ⟨layer, _ | _, g⟩
    · simp [CopyNode.run, CopyNode.block]
    · by_cases hl : layer = il
      · subst hl
        simp [CopyNode.run, CopyNode.block, applyAll]
      · simp [CopyNode.run, CopyNode.block, hl, Function.update_of_ne (Ne.symm hl)]

theorem runNodes_cells : ∀ (nodes : List (CopyNode m)) (c : KvCache m size),
    (runNodes nodes c).cells = c.cells
  | [], _ => rfl
  | n :: nodes, c => by
    have hstep : runNodes (n :: nodes) c = runNodes nodes (n.run c) := rfl
    rw [hstep, runNodes_cells nodes, CopyNode.run]
    split_ifs <;> rfl

/-- Each tensor gets every group, whatever the order of the nodes. -/
theorem mem_block (h : nodes.Perm (buildGraphDefrag m nKv ids)) (il : Fin m.nLayer) (ofV : Bool)
    (g : BlockCopy) :
    g ∈ nodes.filterMap (CopyNode.block il ofV) ↔ g ∈ copyGroups nKv ids nKv 0 := by
  have hnode : ∀ n, n ∈ nodes ↔ n.copy ∈ copyGroups nKv ids nKv 0 := by
    rintro ⟨layer, b, g'⟩
    rw [h.mem_iff, buildGraphDefrag]
    cases b <;> simp
  simp only [List.mem_filterMap, CopyNode.block, hnode, Option.ite_none_right_eq_some,
    Option.some.injEq]
  constructor
  · rintro ⟨n, hn, -, rfl⟩
    exact hn
  · exact fun hg => ⟨⟨il, ofV, g⟩, hg, ⟨rfl, rfl⟩, rfl⟩

end Nodes

/-! ## The whole defragmentation -/

namespace KvCache

variable {m : KvParams} {size nKv maxMoves : Nat} {c : KvCache m size} {s : Defrag}
  {nodes : List (CopyNode m)}

/-- The counter `used` is accurate, and a cell in use has a position. -/
structure Counted (c : KvCache m size) : Prop where
  outside : ∀ i, size ≤ i → (c.cells i).seqId = ∅
  used : c.used = Nat.count (fun i => (c.cells i).seqId ≠ ∅) size
  placed : ∀ i, (c.cells i).seqId ≠ ∅ → 0 ≤ (c.cells i).pos

/-- `n_kv` is an end of the cells in use. -/
structure UsedBelow (c : KvCache m size) (nKv : Nat) : Prop where
  le : nKv ≤ size
  below : ∀ i, (c.cells i).seqId ≠ ∅ → i < nKv

/-- `defrag_prepare` for any `n_kv` and `max_moves`, in at most `r` rounds. -/
def defragRounds (c : KvCache m size) (nKv maxMoves r : Nat) : Option Defrag :=
  Defrag.loop nKv c.nUsed maxMoves r 0 { cells := c.cells, ids := fun _ => nKv, head := c.head }

theorem defragPrepare_eq (c : KvCache m size) :
    c.defragPrepare = c.defragRounds (cellMax c.cells size) m.maxMoves c.nUsed := rfl

/-- The cache before its rows are copied. -/
def withDefrag (c : KvCache m size) (s : Defrag) : KvCache m size :=
  { c with cells := s.cells, head := s.head, doDefrag := false }

@[simp] theorem withDefrag_cells (c : KvCache m size) (s : Defrag) :
    (c.withDefrag s).cells = s.cells := rfl

/-- What a defragmentation keeps. -/
structure Compacts (c : KvCache m size) (nKv maxMoves : Nat) (s : Defrag) : Prop where
  inj : ∀ i j, Defrag.Moved nKv s.ids i → Defrag.Moved nKv s.ids j → s.ids i = s.ids j → i = j
  source : ∀ i, Defrag.Moved nKv s.ids i → (c.cells i).seqId ≠ ∅
  dest : ∀ i, Defrag.Moved nKv s.ids i → (c.cells (s.ids i)).seqId = ∅
  apart : ∀ i j, Defrag.Moved nKv s.ids i → Defrag.Moved nKv s.ids j → s.ids i ≠ j
  together : ∀ nodes, nodes.Perm (buildGraphDefrag m nKv s.ids) → ∀ i, Defrag.Moved nKv s.ids i →
    (runNodes nodes (c.withDefrag s)).content (s.ids i) = c.content i
  contents : ∀ nodes, nodes.Perm (buildGraphDefrag m nKv s.ids) →
    (runNodes nodes (c.withDefrag s)).live.val.map (runNodes nodes (c.withDefrag s)).content =
      c.live.val.map c.content
  packed : s.nMoves ≠ maxMoves → ∀ i, (s.cells i).seqId ≠ ∅ ↔ i < c.nUsed

theorem Accounted.counted (h : c.Accounted) : c.Counted where
  outside := h.outside
  used := by rw [h.used_eq, h.occupied_eq]
  placed i hi := (h.balanced i).2 hi

theorem lt_cellMax {cells : Nat → KvCell} {i : Nat} (hne : (cells i).seqId ≠ ∅)
    (hpos : 0 ≤ (cells i).pos) : ∀ {n : Nat}, i < n → i < cellMax cells n
  | n + 1, hi => by
    rw [cellMax]
    split_ifs with hn
    · exact hi
    · refine lt_cellMax hne hpos (lt_of_le_of_ne (Nat.lt_succ_iff.1 hi) ?_)
      rintro rfl
      exact hn ⟨hpos, hne⟩

theorem Counted.lt_size (h : c.Counted) {i : Nat} (hne : (c.cells i).seqId ≠ ∅) : i < size :=
  not_le.1 fun hi => hne (h.outside i hi)

theorem Counted.usedBelow_cellMax (h : c.Counted) : c.UsedBelow (cellMax c.cells size) where
  le := cellMax_le c.cells size
  below i hne := lt_cellMax hne (h.placed i hne) (h.lt_size hne)

theorem Counted.count_eq (h : c.Counted) (hkv : c.UsedBelow nKv) :
    Nat.count (fun i => (c.cells i).seqId ≠ ∅) nKv = c.nUsed := by
  have hall := Index.count_of_below hkv.le hkv.below
  have hle : Nat.count (fun i => (c.cells i).seqId ≠ ∅) size ≤ size := Nat.count_le _
  have hlt := c.size_lt
  rw [nUsed, h.used, ← hall]
  omega

theorem Counted.round (h : c.Counted) (hkv : c.UsedBelow nKv) :
    Defrag.Round nKv c.nUsed c.cells 0
      { cells := c.cells, ids := fun _ => nKv, head := c.head } where
  inv := .start c.head
  apart := ⟨fun _ hm => absurd rfl hm.2, fun _ hm => absurd rfl hm.2⟩
  filled i hi := absurd hi (Nat.not_lt_zero i)
  stay _ hi hid := absurd hid hi.ne'
  count := h.count_eq hkv

section Final

variable (hfin : Defrag.Final nKv c.nUsed maxMoves c.cells s)

include hfin

theorem final_lt : ∀ i, Defrag.Moved nKv s.ids i → i < nKv ∧ s.ids i < i :=
  hfin.inv.choose_spec.lt

theorem final_inj : ∀ i j, Defrag.Moved nKv s.ids i → Defrag.Moved nKv s.ids j →
    s.ids i = s.ids j → i = j :=
  hfin.inv.choose_spec.inj

theorem final_ne : ∀ i j, Defrag.Moved nKv s.ids i → Defrag.Moved nKv s.ids j → s.ids i ≠ j := by
  intro i j hi hj hij
  have := (hfin.apart.dest i hi).1
  have := (hfin.apart.source j hj).1
  omega

theorem groups_independent : Independent (copyGroups nKv s.ids nKv 0) where
  apart hi hi' := by
    obtain ⟨hm, rfl⟩ := (carries_groups (final_lt hfin)).1 hi
    exact final_ne hfin _ _ hm ((carries_groups (final_lt hfin)).1 hi').1
  single hi hi' := by
    obtain ⟨hm, hd⟩ := (carries_groups (final_lt hfin)).1 hi
    obtain ⟨hm', hd'⟩ := (carries_groups (final_lt hfin)).1 hi'
    exact final_inj hfin _ _ hm hm' (hd.trans hd'.symm)

/-- The rows that the copies of one tensor leave, in any order. -/
theorem applyAll_groups {α : Type} {gs : List BlockCopy}
    (hgs : ∀ g, g ∈ gs ↔ g ∈ copyGroups nKv s.ids nKv 0) (rows : Nat → α) :
    (∀ i, Defrag.Moved nKv s.ids i → applyAll gs rows (s.ids i) = rows i) ∧
      ∀ d, (∀ i, Defrag.Moved nKv s.ids i → s.ids i ≠ d) → applyAll gs rows d = rows d := by
  have hind := groups_independent hfin
  obtain ⟨hcopied, hkept⟩ := BlockCopy.applyAll_spec rows hind
  rw [BlockCopy.applyAll_congr hind (BlockCopy.carries_of_mem_iff hgs)]
  refine ⟨fun i hi => hcopied i _ ((carries_groups (final_lt hfin)).2 ⟨hi, rfl⟩), fun d hd => ?_⟩
  refine hkept d fun i hi => ?_
  obtain ⟨hm, hid⟩ := (carries_groups (final_lt hfin)).1 hi
  exact hd i hm hid

theorem content_moved (hp : nodes.Perm (buildGraphDefrag m nKv s.ids)) {i : Nat}
    (hi : Defrag.Moved nKv s.ids i) :
    (runNodes nodes (c.withDefrag s)).content (s.ids i) = c.content i := by
  obtain ⟨f, hinv⟩ := hfin.inv
  have hcell : (runNodes nodes (c.withDefrag s)).cells (s.ids i) = c.cells i := by
    rw [runNodes_cells]
    exact hinv.moved i hi
  have hk : ∀ il, (runNodes nodes (c.withDefrag s)).k il (s.ids i) = c.k il i := fun il => by
    rw [runNodes_k]
    exact (applyAll_groups hfin (mem_block hp il false) _).1 i hi
  have hv : ∀ il j, (runNodes nodes (c.withDefrag s)).v il j (s.ids i) = c.v il j i := fun il j => by
    rw [runNodes_v]
    exact (applyAll_groups hfin (mem_block hp il true) _).1 i hi
  simp only [content, hcell, hk, hv]

theorem content_kept (hp : nodes.Perm (buildGraphDefrag m nKv s.ids)) {d : Nat}
    (hd : ∀ i, Defrag.Moved nKv s.ids i → s.ids i ≠ d) (hm : ¬ Defrag.Moved nKv s.ids d) :
    (runNodes nodes (c.withDefrag s)).content d = c.content d := by
  obtain ⟨f, hinv⟩ := hfin.inv
  have hcell : (runNodes nodes (c.withDefrag s)).cells d = c.cells d := by
    rw [runNodes_cells]
    exact hinv.kept d hd hm
  have hk : ∀ il, (runNodes nodes (c.withDefrag s)).k il d = c.k il d := fun il => by
    rw [runNodes_k]
    exact (applyAll_groups hfin (mem_block hp il false) _).2 d hd
  have hv : ∀ il j, (runNodes nodes (c.withDefrag s)).v il j d = c.v il j d := fun il j => by
    rw [runNodes_v]
    exact (applyAll_groups hfin (mem_block hp il true) _).2 d hd
  simp only [content, hcell, hk, hv]

/-- The cells in use after the copies are those before it, each at its new place. -/
theorem live_contents (h : c.Counted)
    (hp : nodes.Perm (buildGraphDefrag m nKv s.ids)) :
    (runNodes nodes (c.withDefrag s)).live.val.map (runNodes nodes (c.withDefrag s)).content =
      c.live.val.map c.content := by
  classical
  obtain ⟨f, hinv⟩ := hfin.inv
  have hlive : ∀ i, i ∈ c.live ↔ (c.cells i).seqId ≠ ∅ := fun i => by
    simpa [live] using h.lt_size
  let place : Nat → Nat := fun i => if Defrag.Moved nKv s.ids i then s.ids i else i
  have hnodest : ∀ d, (c.cells d).seqId ≠ ∅ → ∀ i, Defrag.Moved nKv s.ids i → s.ids i ≠ d :=
    fun d hd i hi hid => hd (hid ▸ (hfin.apart.dest i hi).2)
  have hinj : Set.InjOn place c.live := by
    intro i hi j hj hij
    have hi := (hlive i).1 hi
    have hj := (hlive j).1 hj
    dsimp only [place] at hij
    split_ifs at hij with hmi hmj hmj
    · exact final_inj hfin i j hmi hmj hij
    · exact absurd hij (hnodest j hj i hmi)
    · exact absurd hij.symm (hnodest i hi j hmj)
    · exact hij
  have hcontent : ∀ i ∈ c.live,
      (runNodes nodes (c.withDefrag s)).content (place i) = c.content i := by
    intro i hi
    dsimp only [place]
    split_ifs with hm
    · exact content_moved hfin hp hm
    · exact content_kept hfin hp (hnodest i ((hlive i).1 hi)) hm
  have himage : (runNodes nodes (c.withDefrag s)).live = c.live.image place := by
    ext d
    simp only [live, runNodes_cells, withDefrag_cells, Finset.mem_filter, Finset.mem_range, Finset.mem_image]
    constructor
    · rintro ⟨hd, hne⟩
      by_cases hdst : ∃ i, Defrag.Moved nKv s.ids i ∧ s.ids i = d
      · obtain ⟨i, hm, hid⟩ := hdst
        have hsrc := (hfin.apart.source i hm).2
        exact ⟨i, ⟨h.lt_size hsrc, hsrc⟩, by simp [place, hm, hid]⟩
      · have hdst : ∀ i, Defrag.Moved nKv s.ids i → s.ids i ≠ d := fun i hm hid => hdst ⟨i, hm, hid⟩
        have hm : ¬ Defrag.Moved nKv s.ids d := fun hm => hne (by
          rw [hinv.left d hdst hm])
        refine ⟨d, ⟨hd, ?_⟩, by simp [place, hm]⟩
        rw [← hinv.kept d hdst hm]
        exact hne
    · rintro ⟨i, ⟨hi, hne⟩, rfl⟩
      dsimp only [place]
      split_ifs with hm
      · rw [hinv.moved i hm]
        exact ⟨(final_lt hfin i hm).2.trans hi, hne⟩
      · rw [hinv.kept i (hnodest i hne) hm]
        exact ⟨hi, hne⟩
  rw [himage, Finset.image_val_of_injOn hinj, Multiset.map_map]
  exact Multiset.map_congr rfl hcontent

theorem final_packed (h : c.Counted) (hkv : c.UsedBelow nKv) (hmoves : s.nMoves ≠ maxMoves)
    (i : Nat) : (s.cells i).seqId ≠ ∅ ↔ i < c.nUsed := by
  obtain ⟨f, hinv⟩ := hfin.inv
  have hlow := hfin.filled.resolve_left hmoves
  refine ⟨fun hne => ?_, hlow i⟩
  by_contra hi
  have hle : c.nUsed ≤ nKv := by
    rw [← h.count_eq hkv]
    exact Nat.count_le _
  by_cases hkvi : i < nKv
  · -- then there would be one cell in use too many
    have hcount := hfin.count
    have hsucc : Nat.count (fun i => (s.cells i).seqId ≠ ∅) (i + 1) ≤
        Nat.count (fun i => (s.cells i).seqId ≠ ∅) nKv := Nat.count_monotone _ hkvi
    have hmono : Nat.count (fun i => (s.cells i).seqId ≠ ∅) c.nUsed ≤
        Nat.count (fun i => (s.cells i).seqId ≠ ∅) i := Nat.count_monotone _ (not_lt.1 hi)
    rw [Nat.count_of_forall hlow] at hmono
    rw [Nat.count_succ, if_pos hne] at hsucc
    rw [Defrag.nonEmpty] at hcount
    omega
  · have hdst : ∀ j, Defrag.Moved nKv s.ids j → s.ids j ≠ i := fun j hj => by
      have := (hfin.apart.dest j hj).1
      omega
    have hm : ¬ Defrag.Moved nKv s.ids i := fun hm => hkvi (final_lt hfin i hm).1
    rw [hinv.kept i hdst hm] at hne
    exact hkvi (hkv.below i hne)

/-- Copying cell by cell from the lowest index on is one order of the copies. -/
theorem moveRows_eq {α : Type} {gs : List BlockCopy}
    (hgs : ∀ g, g ∈ gs ↔ g ∈ copyGroups nKv s.ids nKv 0) (rows : Nat → α) :
    (if s.nMoves = 0 then rows else moveRows nKv s.ids rows) = applyAll gs rows := by
  obtain ⟨f, hinv⟩ := hfin.inv
  obtain ⟨hcopied, hkept⟩ := applyAll_groups hfin hgs rows
  obtain ⟨hmoved, hleft⟩ := foldl_moveRows hinv.lt hinv.inj rows nKv
  funext d
  by_cases hd : ∃ i, Defrag.Moved nKv s.ids i ∧ s.ids i = d
  · obtain ⟨i, hi, rfl⟩ := hd
    rw [hcopied i hi, if_neg (hinv.counted i hi)]
    exact hmoved i (hinv.lt i hi).1 hi
  · have hd : ∀ i, Defrag.Moved nKv s.ids i → s.ids i ≠ d := fun i hi hid => hd ⟨i, hi, hid⟩
    rw [hkept d hd]
    split_ifs
    · rfl
    · exact hleft d fun i _ hi => hd i hi

end Final

theorem Counted.final (h : c.Counted) (hkv : c.UsedBelow nKv) (maxMoves : Nat) :
    ∃ s, (∀ r, c.nUsed ≤ r → c.defragRounds nKv maxMoves r = some s) ∧
      Defrag.Final nKv c.nUsed maxMoves c.cells s := by
  have hle : c.nUsed ≤ nKv := by
    rw [← h.count_eq hkv]
    exact Nat.count_le _
  obtain ⟨s, hs, hfin⟩ := (h.round hkv).loop maxMoves hle (Nat.zero_add c.nUsed).ge
  exact ⟨s, fun r hr => hs r (by omega), hfin⟩

/-- `update` leaves what the nodes of the graph leave, in any order. -/
theorem applyDefrag_nodes (h : c.Counted) (hdo : c.doDefrag) (hs : c.defragPrepare = some s)
    (hp : nodes.Perm (buildGraphDefrag m (cellMax c.cells size) s.ids)) :
    ∃ c', c.applyDefrag = some c' ∧ c'.content = (runNodes nodes (c.withDefrag s)).content := by
  obtain ⟨s', hs', hfin⟩ := h.final h.usedBelow_cellMax m.maxMoves
  rw [defragPrepare_eq, hs' c.nUsed le_rfl] at hs
  obtain rfl := Option.some.inj hs
  refine ⟨_, by rw [applyDefrag, if_pos hdo, defragPrepare_eq, hs' c.nUsed le_rfl]; rfl, ?_⟩
  funext i
  have hcells := congrFun (runNodes_cells nodes (c.withDefrag s')) i
  have hk : ∀ il, (runNodes nodes (c.withDefrag s')).k il =
      if s'.nMoves = 0 then c.k il else moveRows (cellMax c.cells size) s'.ids (c.k il) := fun il => by
    rw [runNodes_k, moveRows_eq hfin (mem_block hp il false)]
    rfl
  have hv : ∀ il j, (runNodes nodes (c.withDefrag s')).v il j =
      if s'.nMoves = 0 then c.v il j
      else moveRows (cellMax c.cells size) s'.ids (c.v il j) := fun il j => by
    rw [runNodes_v, moveRows_eq hfin (mem_block hp il true)]
    rfl
  simp only [content, hcells, hk, hv]
  split_ifs <;> rfl

/-- Defragmentation ends, whatever the bound on the moves, and keeps every cell in use. -/
theorem defrag_compacts (h : c.Counted) : c.UsedBelow (cellMax c.cells size) ∧
    ∀ nKv maxMoves, c.UsedBelow nKv →
      ∃ s, (∀ r, c.nUsed ≤ r → c.defragRounds nKv maxMoves r = some s) ∧
        c.Compacts nKv maxMoves s := by
  refine ⟨h.usedBelow_cellMax, fun nKv maxMoves hkv => ?_⟩
  obtain ⟨s, hs, hfin⟩ := h.final hkv maxMoves
  exact ⟨s, hs,
    { inj := final_inj hfin
      source := fun i hi => (hfin.apart.source i hi).2
      dest := fun i hi => (hfin.apart.dest i hi).2
      apart := final_ne hfin
      together := fun nodes hp i hi => content_moved hfin hp hi
      contents := fun nodes hp => live_contents hfin h hp
      packed := final_packed hfin h hkv }⟩

/-- The content of a cell. -/
def byteRow (b : UInt8) : Format.Block 1 := ⟨[b], rfl⟩

/-- An empty cell below one in use. -/
def oneHole : KvCache byteModel 2 where
  size_lt := by decide
  used := 1
  cells i := if i = 1 then { pos := 0, seqId := {0} } else {}
  k _ i := if i = 1 then byteRow 7 else byteRow 5

theorem oneHole_counted : oneHole.Counted where
  outside i hi := by simp [oneHole, show i ≠ 1 by omega]
  used := by decide
  placed := by
    intro i hi
    by_cases h1 : i = 1
    · simp [oneHole, h1]
    · simp [oneHole, h1] at hi

theorem oneHole_usedBelow : oneHole.UsedBelow 2 where
  le := le_rfl
  below _ hi := oneHole_counted.lt_size hi

theorem defrag_compacts_oneHole : ∃ s, oneHole.defragPrepare = some s ∧
    oneHole.Compacts (cellMax oneHole.cells 2) byteModel.maxMoves s := by
  obtain ⟨hbelow, hcompacts⟩ := defrag_compacts oneHole_counted
  obtain ⟨s, hs, hc⟩ := hcompacts _ byteModel.maxMoves hbelow
  exact ⟨s, hs oneHole.nUsed le_rfl, hc⟩

/-- What would hold if the rows of empty cells were kept, too. -/
def CompactionLaw : Prop :=
  ∀ (m : KvParams) (size : Nat) (c : KvCache m size), c.Counted →
    ∀ nKv maxMoves, c.UsedBelow nKv →
      ∃ s, (∀ r, c.nUsed ≤ r → c.defragRounds nKv maxMoves r = some s) ∧
        c.Compacts nKv maxMoves s ∧
        ∀ nodes, nodes.Perm (buildGraphDefrag m nKv s.ids) →
          (Multiset.range size).map (runNodes nodes (c.withDefrag s)).content =
            (Multiset.range size).map c.content

/-- The row of the cell in use is there twice, and the stale row of the hole is gone. -/
theorem not_compactionLaw : ¬ CompactionLaw := by
  intro hlaw
  obtain ⟨s, hs, -, hall⟩ := hlaw byteModel 2 oneHole oneHole_counted 2 8 oneHole_usedBelow
  have hs1 := hs 1 (by decide)
  have hrows := congrArg (Multiset.map fun x => (x.2.2.1 ⟨0, by decide⟩).1)
    (hall (buildGraphDefrag byteModel 2 s.ids) (.refl _))
  obtain rfl := Option.some.inj hs1
  revert hrows
  decide

end KvCache

end LamaServer
