import LamaServer.Proofs.KvSequences
import LamaServer.Prompt

/-!
# What a prompt keeps

A truncated prompt is shorter than the context: the blocks are counted from the second on, and what
is left after the last of them is less than one more. Reusing chunks keeps every position below
the head in the prompt with the entries that a position of the cache with the same token had.
-/

namespace LamaServer

namespace Slot

/-- The bounds leave room for two tokens in a block. -/
theorem clampKeep_bounds (slot : Slot) (hctx : 8 ≤ slot.nCtx) (hpos : 0 ≤ slot.nPromptTokens) :
    0 ≤ slot.clampKeep.params.nKeep ∧ slot.clampKeep.params.nKeep + 4 ≤ slot.nCtx := by
  unfold clampKeep
  dsimp only
  split_ifs <;> omega

/-- What `n_keep` and the blocks come to, over the integers. -/
theorem erasedBlocks_spec {nCtx nPrompt nKeep : Int} (hleft : nKeep + 4 ≤ nCtx)
    (hlong : nCtx ≤ nPrompt) : ∃ blocks : Nat,
      (nPrompt - nKeep - (nCtx - nKeep).tdiv 2).tdiv ((nCtx - nKeep).tdiv 2) = blocks ∧
      0 < (nCtx - nKeep).tdiv 2 ∧
      nKeep + blocks * (nCtx - nKeep).tdiv 2 ≤ nPrompt ∧
      nPrompt - blocks * (nCtx - nKeep).tdiv 2 < nCtx := by
  have hhalf : (nCtx - nKeep).tdiv 2 = (nCtx - nKeep) / 2 := Int.tdiv_eq_ediv_of_nonneg (by omega)
  generalize hB : (nCtx - nKeep).tdiv 2 = B at *
  have hBpos : 0 < B := by omega
  have hrest : 0 ≤ nPrompt - nKeep - B := by omega
  have hdiv := Int.mul_ediv_add_emod (nPrompt - nKeep - B) B
  have hmod := Int.emod_lt_of_pos (nPrompt - nKeep - B) hBpos
  have hmod' := Int.emod_nonneg (nPrompt - nKeep - B) hBpos.ne'
  have hblocks : 0 ≤ (nPrompt - nKeep - B) / B := Int.ediv_nonneg hrest hBpos.le
  refine ⟨((nPrompt - nKeep - B) / B).toNat, ?_, hBpos, ?_, ?_⟩
  · rw [Int.tdiv_eq_ediv_of_nonneg hrest, Int.toNat_of_nonneg hblocks]
  · rw [Int.toNat_of_nonneg hblocks, mul_comm]
    omega
  · rw [Int.toNat_of_nonneg hblocks, mul_comm]
    omega

end Slot

/-! ## Reusing chunks of the cache -/

variable {m : KvParams} {size : Nat}

namespace KvCache

variable {kv kv' : KvCache m size} {id : Int} {p j : Nat}

/-- Cell `j` is an entry of a sequence at position `p`. -/
def EntryAt (kv : KvCache m size) (id : Int) (p j : Nat) : Prop :=
  j < size ∧ id ∈ (kv.cells j).seqId ∧ (kv.cells j).pos = p

/-- Position `p` has one entry, which was computed for `tok`; `computed` tells for which token the
rows of a cell were computed. -/
def ComputedAt (kv : KvCache m size) (id : Int) (computed : Nat → Token) (p : Nat) (tok : Token) :
    Prop :=
  ∃ j, kv.EntryAt id p j ∧ computed j = tok ∧ ∀ j', kv.EntryAt id p j' → j' = j

/-- The rows are the same, and what is left of a sequence was moved by what it owes. -/
structure Shifted (id : Int) (kv kv' : KvCache m size) : Prop where
  k : kv'.k = kv.k
  v : kv'.v = kv.v
  rot : kv'.rot = kv.rot
  cells : ∀ j, id ∈ (kv'.cells j).seqId → id ∈ (kv.cells j).seqId ∧
    (kv'.cells j).pos - (kv'.cells j).delta = (kv.cells j).pos - (kv.cells j).delta

@[refl] theorem Shifted.refl (id : Int) (kv : KvCache m size) : Shifted id kv kv :=
  ⟨rfl, rfl, rfl, fun _ h => ⟨h, rfl⟩⟩

theorem Shifted.trans {kv₁ kv₂ kv₃ : KvCache m size} (h : Shifted id kv₁ kv₂)
    (h' : Shifted id kv₂ kv₃) : Shifted id kv₁ kv₃ where
  k := h'.k.trans h.k
  v := h'.v.trans h.v
  rot := h'.rot.trans h.rot
  cells j hj := by
    obtain ⟨hj2, hpos2⟩ := h'.cells j hj
    obtain ⟨hj1, hpos1⟩ := h.cells j hj2
    exact ⟨hj1, hpos2.trans hpos1⟩

theorem seqRm_shifted (kv : KvCache m size) (id p0 p1 : Int) (hid : 0 ≤ id) :
    Shifted id kv (kv.seqRm id p0 p1) where
  k := rfl
  v := rfl
  rot := rfl
  cells j hj := by
    obtain ⟨hpos, hdelta⟩ := rm_cell hj
    refine ⟨?_, congrArg₂ _ hpos hdelta⟩
    change id ∈ ((kv.cells j).rm id p0 p1).cell.seqId at hj
    rw [rm_seqId] at hj
    split_ifs at hj with hr
    · simp [KvCell.without, not_lt.2 hid] at hj
    · exact hj

theorem seqAdd_shifted (kv : KvCache m size) (id p0 p1 delta : Int) :
    Shifted id kv (kv.seqAdd id p0 p1 delta) where
  k := (kv.seqAdd_rows id p0 p1 delta).1
  v := (kv.seqAdd_rows id p0 p1 delta).2
  rot := by
    unfold KvCache.seqAdd
    split_ifs <;> rfl
  cells j hj := by
    rw [seqAdd_cells] at hj ⊢
    unfold KvCell.add at hj ⊢
    split_ifs at hj ⊢ with hhit hneg
    · simp at hj
    · exact ⟨hj, by simp⟩
    · exact ⟨hj, rfl⟩

/-- Removing a range takes away its entries and no others. -/
theorem seqRm_entryAt (hid : 0 ≤ id) {a b : Nat} :
    (kv.seqRm id a b).EntryAt id p j ↔ kv.EntryAt id p j ∧ ¬(a ≤ p ∧ p < b) := by
  have hstart : rangeStart (a : Int) = a := if_neg (by omega)
  have hend : rangeEnd (b : Int) = b := if_neg (by omega)
  change _ ∧ id ∈ ((kv.cells j).rm id a b).cell.seqId ∧ ((kv.cells j).rm id a b).cell.pos = p ↔ _
  constructor
  · rintro ⟨hj, hmem, hpos⟩
    rw [(rm_cell hmem).1] at hpos
    rw [rm_seqId] at hmem
    split_ifs at hmem with hr
    · simp [KvCell.without, not_lt.2 hid] at hmem
    · refine ⟨⟨hj, hmem, hpos⟩, fun h => hr ?_⟩
      rw [KvCell.inRange, hstart, hend, hpos]
      omega
  · rintro ⟨⟨hj, hmem, hpos⟩, hout⟩
    have hr : ¬(kv.cells j).inRange a b := by
      rw [KvCell.inRange, hstart, hend, hpos]
      omega
    have hmem' : id ∈ ((kv.cells j).rm id a b).cell.seqId := by rwa [rm_seqId, if_neg hr]
    exact ⟨hj, hmem', (rm_cell hmem').1.trans hpos⟩

/-- Shifting `n` positions from `a` on down to `b` moves their entries and no others. -/
theorem seqAdd_entryAt {a b n : Nat} :
    (kv.seqAdd id a (a + n : Nat) (b - a : Int)).EntryAt id p j ↔
      (b ≤ p ∧ p < b + n ∧ kv.EntryAt id (a + (p - b)) j) ∨
      (¬(a ≤ p ∧ p < a + n) ∧ kv.EntryAt id p j) := by
  have hstart : rangeStart (a : Int) = a := if_neg (by omega)
  have hend : rangeEnd ((a + n : Nat) : Int) = (a + n : Nat) := if_neg (by omega)
  unfold EntryAt
  rw [seqAdd_cells]
  unfold KvCell.add
  split_ifs with hhit hneg
  · have := hhit.2.1
    rw [hstart] at this
    omega
  · have h1 := hhit.2.1
    have h2 := hhit.2.2
    rw [hstart] at h1
    rw [hend] at h2
    have := hhit.1
    simp only [this, true_and]
    omega
  · have hout : id ∈ (kv.cells j).seqId → ¬((a : Int) ≤ (kv.cells j).pos ∧
        (kv.cells j).pos < (a + n : Nat)) := fun hmem h =>
      hhit ⟨hmem, by rw [KvCell.inRange, hstart, hend]; exact h⟩
    change _ ∧ id ∈ (kv.cells j).seqId ∧ (kv.cells j).pos = p ↔ _
    constructor
    · rintro ⟨hj, hmem, hpos⟩
      have := hout hmem
      exact .inr ⟨by omega, hj, hmem, hpos⟩
    · rintro (⟨h1, h2, hj, hmem, hpos⟩ | ⟨-, h⟩)
      · have := hout hmem
        omega
      · exact h

end KvCache

@[simp] theorem length_moveTokens (headC headP : Nat) (tokens : List Token) : ∀ n : Nat,
    (moveTokens headC headP n tokens).length = tokens.length
  | 0 => rfl
  | n + 1 => by
    have ih := length_moveTokens headC headP tokens n
    unfold moveTokens at ih ⊢
    rw [List.range_succ, List.foldl_append, List.foldl_cons, List.foldl_nil]
    split
    · rw [List.length_set, ih]
    · exact ih

/-- The tokens below and above those that are moved stay. -/
theorem getElem?_moveTokens {headC headP : Nat} (h : headP ≤ headC) (tokens : List Token) :
    ∀ {n : Nat}, headC + n ≤ tokens.length → ∀ i,
      (moveTokens headC headP n tokens)[i]? =
        if headP ≤ i ∧ i < headP + n then tokens[headC + (i - headP)]? else tokens[i]?
  | 0, _, i => by
    rw [if_neg (by omega)]
    rfl
  | n + 1, hn, i => by
    have ih := getElem?_moveTokens h tokens (n := n) (by omega)
    -- the token that is read was not written before
    have hlast : (moveTokens headC headP n tokens)[headC + n]? = tokens[headC + n]? := by
      rw [ih, if_neg (by omega)]
    have hlen := length_moveTokens headC headP tokens n
    unfold moveTokens at ih hlast hlen ⊢
    rw [List.range_succ, List.foldl_append, List.foldl_cons, List.foldl_nil, hlast]
    obtain ⟨tok, htok⟩ : ∃ tok, tokens[headC + n]? = some tok :=
      ⟨_, List.getElem?_eq_getElem (by omega)⟩
    rw [htok]
    dsimp only
    by_cases hi : i = headP + n
    · subst hi
      rw [List.getElem?_set_self (by omega), if_pos (by omega), Nat.add_sub_cancel_left, htok]
    · rw [List.getElem?_set_ne (by omega), ih]
      by_cases hin : headP ≤ i ∧ i < headP + n
      · rw [if_pos hin, if_pos (by omega)]
      · rw [if_neg hin, if_neg (by omega)]

theorem getCommonPrefix_le : ∀ (as bs : List Token),
    getCommonPrefix as bs ≤ as.length ∧ getCommonPrefix as bs ≤ bs.length
  | [], bs => by simp [getCommonPrefix]
  | a :: as, [] => by simp [getCommonPrefix]
  | a :: as, b :: bs => by
    have ih := getCommonPrefix_le as bs
    simp only [getCommonPrefix, List.length_cons]
    split_ifs <;> omega

theorem getElem?_getCommonPrefix : ∀ (as bs : List Token) (i : Nat),
    i < getCommonPrefix as bs → as[i]? = bs[i]?
  | [], _, i, h => by simp [getCommonPrefix] at h
  | a :: as, [], i, h => by simp [getCommonPrefix] at h
  | a :: as, b :: bs, i, h => by
    simp only [getCommonPrefix] at h
    split_ifs at h with hab
    · rcases i with _ | i
      · simp [hab]
      · simpa using getElem?_getCommonPrefix as bs i (by omega)
    · omega

/-! The loop keeps, of the positions below the head in the prompt, the tokens of the prompt with
the entries of some position of the cache, and from the head in the cache on everything. -/

namespace Reuse

variable {env : PromptEnv} {id : Int} {prompt cache₀ : List Token} {kv₀ : KvCache m size}

/-- Position `p` has the entries that position `q` had in the cache at the start. -/
def Stems (kv₀ kv : KvCache m size) (id : Int) (q p : Nat) : Prop :=
  ∀ j, kv.EntryAt id p j ↔ kv₀.EntryAt id q j

structure Inv (id : Int) (prompt cache₀ : List Token) (kv₀ : KvCache m size) (s : Reuse m size) :
    Prop where
  heads : s.headP ≤ s.headC
  inPrompt : s.headP ≤ prompt.length
  nPast : s.nPast = s.headP
  length : s.cacheTokens.length = cache₀.length
  shifted : KvCache.Shifted id kv₀ s.kv
  reused : ∀ p < s.headP, s.cacheTokens[p]? = prompt[p]? ∧
    ∃ q, cache₀[q]? = prompt[p]? ∧ Stems kv₀ s.kv id q p
  rest : ∀ p, s.headC ≤ p → s.cacheTokens[p]? = cache₀[p]? ∧ Stems kv₀ s.kv id p p

variable {s : Reuse m size}

theorem Inv.step (h : Inv id prompt cache₀ kv₀ s) (env : PromptEnv) (hid : 0 ≤ id)
    (hc : s.headC ≤ s.cacheTokens.length) : Inv id prompt cache₀ kv₀ (s.step env id prompt) := by
  unfold Reuse.step
  obtain ⟨hcache, hprompt⟩ := getCommonPrefix_le (s.cacheTokens.drop s.headC) (prompt.drop s.headP)
  have hmatch := getElem?_getCommonPrefix (s.cacheTokens.drop s.headC) (prompt.drop s.headP)
  generalize getCommonPrefix (s.cacheTokens.drop s.headC) (prompt.drop s.headP) = n at *
  simp only [List.length_drop, List.getElem?_drop] at hcache hprompt hmatch
  have hheads := h.heads
  have hin := h.inPrompt
  dsimp only
  by_cases hreuse : env.nCacheReuse ≤ n
  · rw [if_pos hreuse]
    have hmoved := getElem?_moveTokens hheads s.cacheTokens (n := n) (by omega)
    have hentries : ∀ p j, ((s.kv.seqRm id s.headP s.headC).seqAdd id s.headC
        (s.headC + n : Nat) (s.headP - s.headC)).EntryAt id p j ↔
        (s.headP ≤ p ∧ p < s.headP + n ∧ s.kv.EntryAt id (s.headC + (p - s.headP)) j) ∨
        (¬(s.headP ≤ p ∧ p < s.headC + n) ∧ s.kv.EntryAt id p j) := by
      intro p j
      rw [KvCache.seqAdd_entryAt, KvCache.seqRm_entryAt hid, KvCache.seqRm_entryAt hid]
      have hout : ¬(s.headP ≤ s.headC + (p - s.headP) ∧ s.headC + (p - s.headP) < s.headC) := by
        omega
      rw [and_iff_left hout]
      refine or_congr_right ⟨fun ⟨h1, h2, h3⟩ => ⟨by omega, h2⟩, fun ⟨h1, h2⟩ => ?_⟩
      exact ⟨by omega, h2, by omega⟩
    refine ⟨?_, ?_, ?_, ?_, ?_, fun p hp => ?_, fun p hp => ?_⟩
    · show s.headP + n ≤ s.headC + n
      omega
    · show s.headP + n ≤ prompt.length
      omega
    · show s.nPast + n = (s.headP + n : Nat)
      rw [h.nPast]
      push_cast
      rfl
    · exact (length_moveTokens _ _ _ _).trans h.length
    · exact (h.shifted.trans (KvCache.seqRm_shifted _ _ _ _ hid)).trans
        (KvCache.seqAdd_shifted _ _ _ _ _)
    · have hp : p < s.headP + n := hp
      by_cases hold : p < s.headP
      · obtain ⟨htok, q, hq, hstems⟩ := h.reused p hold
        refine ⟨(hmoved p).trans ?_, q, hq, fun j => (hentries p j).trans ?_⟩
        · rw [if_neg (by omega)]
          exact htok
        · rw [← hstems j, or_iff_right (by omega), and_iff_right (by omega)]
      · -- a token of the chunk: it comes from as far behind the head in the cache
        obtain ⟨hq, hstems⟩ := h.rest (s.headC + (p - s.headP)) (by omega)
        have htok := hmatch (p - s.headP) (by omega)
        rw [Nat.add_sub_cancel' (by omega)] at htok
        refine ⟨(hmoved p).trans ?_, _, hq.symm.trans htok, fun j => (hentries p j).trans ?_⟩
        · rw [if_pos (by omega)]
          exact htok
        · rw [← hstems j, or_iff_left (by omega), and_iff_right (by omega), and_iff_right hp]
    · have hp : s.headC + n ≤ p := hp
      obtain ⟨htok, hstems⟩ := h.rest p (by omega)
      refine ⟨(hmoved p).trans ?_, fun j => (hentries p j).trans ?_⟩
      · rw [if_neg (by omega)]
        exact htok
      · rw [← hstems j, or_iff_right (by omega), and_iff_right (by omega)]
  · rw [if_neg hreuse]
    exact { h with
      heads := by
        show s.headP ≤ s.headC + 1
        omega
      rest := fun p hp => h.rest p (by
        have : s.headC + 1 ≤ p := hp
        omega) }

/-- Every round moves the head in the cache on, and not past the end. -/
theorem step_heads (id : Int) (prompt : List Token) (hreuse : 0 < env.nCacheReuse)
    (hc : s.headC < s.cacheTokens.length) :
    s.headC < (s.step env id prompt).headC ∧
    (s.step env id prompt).headC ≤ s.cacheTokens.length ∧
    s.headP ≤ (s.step env id prompt).headP := by
  have hle := (getCommonPrefix_le (s.cacheTokens.drop s.headC) (prompt.drop s.headP)).1
  rw [List.length_drop] at hle
  unfold Reuse.step
  dsimp only
  split_ifs with h
  · dsimp only
    omega
  · dsimp only
    omega

theorem Inv.loop (hreuse : 0 < env.nCacheReuse) (hid : 0 ≤ id) : ∀ {r : Nat} {s : Reuse m size},
    Inv id prompt cache₀ kv₀ s → s.headC ≤ s.cacheTokens.length →
    s.cacheTokens.length < s.headC + r →
    ∃ s', s.loop env id prompt r = some s' ∧ Inv id prompt cache₀ kv₀ s' ∧ s.headP ≤ s'.headP
  | 0, s, _, hle, hr => by omega
  | r + 1, s, h, hle, hr => by
    unfold Reuse.loop
    by_cases hgo : s.headC < s.cacheTokens.length ∧ s.headP < prompt.length
    · rw [if_pos hgo]
      have h' := h.step env hid hle
      obtain ⟨hlt, hle', hhead⟩ := step_heads id prompt hreuse hgo.1
      have hlen : (s.step env id prompt).cacheTokens.length = s.cacheTokens.length :=
        h'.length.trans h.length.symm
      obtain ⟨s', hs', hinv, hhead'⟩ := Inv.loop (r := r) hreuse hid h' (by omega) (by omega)
      exact ⟨s', hs', hinv, hhead.trans hhead'⟩
    · rw [if_neg hgo]
      exact ⟨s, rfl, h, le_rfl⟩

/-- Tokens are reused with what was computed for them: the loop ends, and below the new `n_past` the
cache holds the tokens of the prompt, each with the entries that a token like it had at the start.
So if every position had one entry, computed for its token, then every reused one has. -/
theorem loop_exact (env : PromptEnv) (hreuse : 0 < env.nCacheReuse) (slotId nPast : Nat)
    (cacheTokens prompt : List Token) (kv : KvCache m size)
    (hcache : nPast ≤ cacheTokens.length) (hprompt : nPast ≤ prompt.length)
    (hcommon : cacheTokens.take nPast = prompt.take nPast) :
    ∃ (s : Reuse m size) (nReused : Nat),
      (⟨nPast, nPast, nPast, cacheTokens, kv⟩ : Reuse m size).loop env slotId prompt
        (cacheTokens.length + 1) = some s ∧
      s.nPast = nReused ∧ nPast ≤ nReused ∧ nReused ≤ prompt.length ∧
      KvCache.Shifted slotId kv s.kv ∧
      (∀ i < nReused, s.cacheTokens[i]? = prompt[i]? ∧
        ∃ q, cacheTokens[q]? = prompt[i]? ∧ Stems kv s.kv slotId q i) ∧
      ∀ computed : Nat → Token,
        (∀ i, ∀ tok ∈ cacheTokens[i]?, kv.ComputedAt slotId computed i tok) →
        ∀ i < nReused, ∀ tok ∈ prompt[i]?, s.kv.ComputedAt slotId computed i tok := by
  have hsame : ∀ p < nPast, cacheTokens[p]? = prompt[p]? := by
    intro p hp
    have := congrArg (·[p]?) hcommon
    simpa only [List.getElem?_take, if_pos hp] using this
  have hstart : Inv (slotId : Int) prompt cacheTokens kv
      ⟨nPast, nPast, nPast, cacheTokens, kv⟩ :=
    ⟨le_rfl, hprompt, rfl, rfl, .refl _ _, fun p hp => ⟨hsame p hp, p, hsame p hp, fun _ => .rfl⟩,
      fun p _ => ⟨rfl, fun _ => .rfl⟩⟩
  obtain ⟨s, hs, h, hhead⟩ := hstart.loop (r := cacheTokens.length + 1) hreuse
    (Int.natCast_nonneg _) hcache (by dsimp only; omega)
  refine ⟨s, s.headP, hs, h.nPast, hhead, h.inPrompt, h.shifted, h.reused, ?_⟩
  intro computed hcomputed i hi tok htok
  obtain ⟨-, q, hq, hstems⟩ := h.reused i hi
  obtain ⟨j, hj, htok', huniq⟩ := hcomputed q tok (hq.trans htok)
  exact ⟨j, (hstems j).2 hj, htok', fun j' hj' => huniq j' ((hstems j').1 hj')⟩

/-- Four tokens in the cache, of which the prompt leaves out the second. -/
theorem loop_exact_gap :
    let kv : KvCache byteModel 8 := { emptyCache 8 (by decide) with
      cells := fun i => if i < 4 then { pos := i, seqId := {0} } else {} }
    ∃ (s : Reuse byteModel 8) (nReused : Nat),
      (⟨1, 1, 1, [5, 6, 7, 8], kv⟩ : Reuse byteModel 8).loop
        ⟨false, true, 2, 512, by simp, by simp⟩ (0 : Nat) [5, 7, 8, 9] 5 = some s ∧
      s.nPast = nReused ∧ 1 ≤ nReused ∧ nReused ≤ 4 ∧
      ∀ i < nReused, s.cacheTokens[i]? = [5, 7, 8, 9][i]? := by
  intro kv
  obtain ⟨s, nReused, hs, hn, hle, hle', -, htokens, -⟩ :=
    loop_exact ⟨false, true, 2, 512, by simp, by simp⟩ (by decide) 0 1 [5, 6, 7, 8] [5, 7, 8, 9] kv
      (by decide) (by decide) rfl
  exact ⟨s, nReused, hs, hn, hle, hle', fun i hi => (htokens i hi).1⟩

end Reuse

end LamaServer
