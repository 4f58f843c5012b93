import LamaServer.MulMat
import LamaServer.Proofs.ThreadPool
import Mathlib.Tactic.Ring

/-!
# A matrix multiplication is complete

The chunks cut the result into rectangles, a chunk is cut into tiles of 16 rows and 16 columns, and
in a tile the products of one or two rows and columns are computed at once. So each element of the
result is stored once, at its address (`perm_chunks`), and in the same way each block of `src1` is
converted. With what the threads of a pool compute, the result of the graph is the product, in
whatever order the threads take their steps and their stores take effect (`mulMat_of_finished`).
-/

namespace LamaServer

open Tiles (stride storeAll mem_stride storeAll_eq storeAll_of_notMem)
open Transition (Reachable)

namespace MulMat

variable (m : MulMat) {F : Type} {n k c : ℕ}

/-- The element of the result in row `r0` of the column with number `r1`. -/
def element (vecDot : ℕ → ℕ → F) (r0 r1 : ℕ) : ℕ × F :=
  let (i1, i2, i3) := m.split r1
  (m.dstCol i1 i2 i3 + nb0 * r0, vecDot (m.src0Row i2 i3 + r0 * m.nb01) (m.src1Col i1 i2 i3))

variable {m}

theorem split_eq (ir1 : ℕ) :
    m.split ir1 = (ir1 % m.ne1, ir1 / m.ne1 % m.ne2, ir1 / m.ne1 / m.ne2) := by
  have hmod : ir1 - ir1 / (m.ne2 * m.ne1) * m.ne2 * m.ne1 = ir1 % (m.ne1 * m.ne2) := by
    rw [Nat.mul_assoc, Nat.mul_comm m.ne2, Nat.mod_eq_sub_mul_div, Nat.mul_comm (m.ne1 * m.ne2)]
  have hdiv : ir1 % (m.ne1 * m.ne2) / m.ne1 = ir1 / m.ne1 % m.ne2 :=
    Nat.mod_mul_right_div_self ..
  unfold split
  simp only
  rw [hmod, hdiv, Nat.mul_comm m.ne2, ← Nat.div_div_eq_div_mul, ← hdiv, Nat.mul_comm _ m.ne1,
    ← Nat.mod_eq_sub_mul_div, Nat.mod_mul_right_mod]

/-- Columns of one pair are neighbours in one matrix. -/
theorem split_add (hne1 : n ∣ m.ne1) {ir1 : ℕ} (hir1 : n ∣ ir1) (hc : c < n) :
    m.split (ir1 + c) = ((m.split ir1).1 + c, (m.split ir1).2) := by
  obtain ⟨a, ha⟩ := hne1
  obtain ⟨b, rfl⟩ := hir1
  have hn : 0 < n := by omega
  have hdiv : (n * b + c) / n = b := by
    rw [Nat.mul_add_div hn, Nat.div_eq_of_lt hc, Nat.add_zero]
  have hmod : (n * b + c) % n = c := by
    rw [Nat.mul_add_mod, Nat.mod_eq_of_lt hc]
  rw [split_eq, split_eq, ha, Nat.mod_mul, hdiv, hmod, ← Nat.div_div_eq_div_mul, hdiv,
    Nat.mul_mod_mul_left, Nat.mul_div_mul_left _ _ hn, Nat.add_comm c]

theorem dstCol_add (i1 i2 i3 c : ℕ) : m.dstCol (i1 + c) i2 i3 = m.dstCol i1 i2 i3 + c * m.nb1 := by
  unfold dstCol
  rw [Nat.add_mul]
  omega

theorem src1Col_add (i1 i2 i3 c : ℕ) :
    m.src1Col (i1 + c) i2 i3 = m.src1Col i1 i2 i3 + c * m.src1ColStride := by
  unfold src1Col src1ColStride
  split_ifs
  · rw [← Nat.add_mul]
    congr 1
    omega
  · rw [Nat.add_mul]
    omega

/-- The products of a tile, behind the loop over its rows. -/
theorem storeAll_vecDotRows (vecDot : ℕ → ℕ → F) (tmp : ℕ → F) {iir0 stop x y bx by' : ℕ}
    (hstop : stop ≤ iir0 + 16) (hdvd : n ∣ stop - iir0) (hc : c < n)
    (hk : k < stop - iir0) :
    storeAll ((stride iir0 stop n).flatMap fun ir0 => vecDotRows vecDot (ir0 - iir0)
        (if 1 < n then 16 else 0) (x + ir0 * bx) (if 1 < n then bx else 0) y
        (if 1 < n then by' else 0) n) tmp (c * 16 + k) =
      vecDot (x + (iir0 + k) * bx) (y + c * by') := by
  have hpos : 0 < n := by omega
  have hsmall : ∀ v r : ℕ, r < n → r * (if 1 < n then v else 0) = r * v := fun v r hr => by
    split_ifs
    · rfl
    · rw [show r = 0 by omega, Nat.zero_mul, Nat.zero_mul]
  obtain ⟨m', hm'⟩ := hdvd
  have hwithin : ∀ q, iir0 + q * n < stop → q * n + n ≤ stop - iir0 := fun q hq => by
    have hlt : q < m' := by
      by_contra hge
      have := Nat.mul_le_mul_left n (not_lt.1 hge)
      rw [Nat.mul_comm n q] at this
      omega
    have := Nat.mul_le_mul_left n (Nat.succ_le_of_lt hlt)
    rw [Nat.mul_succ, Nat.mul_comm n q] at this
    omega
  refine storeAll_eq ?_ fun w hw haddr => ?_
  · rw [List.mem_flatMap]
    refine ⟨iir0 + k / n * n, (mem_stride hpos).2 ⟨?_, k / n, rfl⟩, ?_⟩
    · have := Nat.div_mul_le_self k n
      omega
    · simp only [vecDotRows, List.mem_flatMap, List.mem_map, List.mem_range]
      refine ⟨c, hc, k % n, Nat.mod_lt _ hpos, ?_⟩
      rw [hsmall _ _ hc, hsmall _ _ (Nat.mod_lt _ hpos), hsmall _ _ hc, Nat.add_assoc x,
        ← Nat.add_mul]
      have := Nat.div_add_mod' k n
      rw [show iir0 + k / n * n + k % n = iir0 + k by omega,
        show iir0 + k / n * n - iir0 + k % n + c * 16 = c * 16 + k by omega]
  · simp only [vecDotRows, List.mem_flatMap, List.mem_map, List.mem_range] at hw
    obtain ⟨ir0, hir0, c', hc', r, hr, rfl⟩ := hw
    obtain ⟨hlt, q, rfl⟩ := (mem_stride hpos).1 hir0
    have hq := hwithin q hlt
    rw [hsmall _ _ hc'] at haddr
    simp only at haddr
    have heq : c' = c ∧ q * n + r = k := by omega
    simp only [hsmall bx r hr, hsmall by' c' hc']
    rw [heq.1, Nat.add_assoc x, ← Nat.add_mul, show iir0 + q * n + r = iir0 + k by omega]

/-- A row of a tile. -/
theorem oneRow_eq (vecDot : ℕ → ℕ → F) (tmp : ℕ → F) {ir0End iir0 ir1 : ℕ}
    (hne1 : n ∣ m.ne1) (hir1 : n ∣ ir1) (hdvd : n ∣ min (iir0 + 16) ir0End - iir0) :
    m.oneRow vecDot tmp n ir0End iir0 ir1 = (List.range' ir1 n).flatMap fun r1 =>
      (List.range' iir0 (min (iir0 + 16) ir0End - iir0)).map fun r0 => m.element vecDot r0 r1 := by
  have hstep : ∀ c, c * m.nb1 / nb0 = c * m.ne0 := fun c => by
    unfold nb1 nb0
    rw [Nat.mul_left_comm, Nat.mul_div_cancel_left _ (by decide)]
  unfold oneRow
  simp only
  rw [List.range'_eq_map_range (s := ir1), List.flatMap_map]
  refine List.flatMap_congr fun c hc => ?_
  have hc : c < n := List.mem_range.1 hc
  rw [List.range'_eq_map_range, List.map_map]
  refine List.map_congr_left fun k hk => ?_
  have hk := List.mem_range.1 hk
  rw [storeAll_vecDotRows vecDot tmp (min_le_left _ _) hdvd hc hk]
  simp only [Function.comp, element, split_add hne1 hir1 hc, dstCol_add, src1Col_add, hstep]
  congr 1
  unfold nb1 nb0
  ring

/-- A chunk is cut into tiles. -/
theorem oneChunk_perm (vecDot : ℕ → ℕ → F) (tmp : ℕ → F) {a0 b0 a1 b1 : ℕ} (hn : n = 1 ∨ n = 2)
    (hne1 : n ∣ m.ne1) (ha1 : n ∣ a1) (h0 : n ∣ b0 - a0) (h1 : n ∣ b1 - a1) :
    (m.oneChunk vecDot tmp n a0 b0 a1 b1).Perm ((List.range' a1 (b1 - a1)).flatMap fun r1 =>
      (List.range' a0 (b0 - a0)).map fun r0 => m.element vecDot r0 r1) := by
  have hpos : 0 < n := by omega
  unfold oneChunk
  split_ifs with hempty
  · rcases hempty with h | h
    · simp [Nat.sub_eq_zero_of_le h]
    · simp [Nat.sub_eq_zero_of_le h]
  · have htile : ∀ t0 ∈ stride a0 b0 16, n ∣ min (t0 + 16) b0 - t0 := fun t0 ht0 => by
      obtain ⟨-, q, rfl⟩ := (mem_stride (by decide)).1 ht0
      rcases hn with rfl | rfl <;> omega
    have hcolumn : ∀ t1 ∈ stride a1 b1 16, n ∣ t1 ∧ n ∣ min (t1 + 16) b1 - t1 := fun t1 ht1 => by
      obtain ⟨-, q, rfl⟩ := (mem_stride (by decide)).1 ht1
      rcases hn with rfl | rfl <;> omega
    have hrow : ∀ r1, (List.range' a0 (b0 - a0)).map (fun r0 => m.element vecDot r0 r1) =
        (stride a0 b0 16).flatMap fun t0 =>
          (List.range' t0 (min (t0 + 16) b0 - t0)).map fun r0 => m.element vecDot r0 r1 :=
      fun r1 => by rw [← Tiles.flatMap_stride (by decide : 0 < 16), List.map_flatMap]
    rw [← Tiles.flatMap_stride (by decide : 0 < 16) a1 b1, List.flatMap_assoc]
    refine List.Perm.flatMap_left _ fun t1 ht1 => ?_
    obtain ⟨ht1n, ht1d⟩ := hcolumn t1 ht1
    simp only [hrow]
    refine List.Perm.trans (List.Perm.of_eq ?_) (Tiles.perm_flatMap_comm _ _ _)
    refine List.flatMap_congr fun t0 ht0 => ?_
    rw [← Tiles.flatMap_stride_of_dvd hpos ht1d, List.flatMap_assoc]
    refine List.flatMap_congr fun ir1 hir1 => ?_
    obtain ⟨-, q, rfl⟩ := (mem_stride hpos).1 hir1
    exact oneRow_eq vecDot tmp hne1 (Nat.dvd_add ht1n (Nat.dvd_mul_left n q)) (htile t0 ht0)

theorem nchunk_pos : 0 < m.nchunk0 ∧ 0 < m.nchunk1 := by
  have hnth := m.nth_pos
  unfold nchunk0 nchunk1 chunks
  simp only
  split_ifs with h hlt
  · exact ⟨hnth, Nat.one_pos⟩
  · exact ⟨Nat.one_pos, hnth⟩
  · rw [not_or] at h
    have hle := (Nat.mul_pos hnth (by decide)).trans_le (not_lt.1 h.1)
    have hmul := Nat.mul_ne_zero_iff.1 hle.ne'
    exact ⟨Nat.pos_of_ne_zero hmul.1, Nat.pos_of_ne_zero hmul.2⟩

theorem le_dr_mul {N n : ℕ} (hn : 0 < n) : N ≤ (N + n - 1) / n * n := by
  have := Nat.div_add_mod' (N + n - 1) n
  have := Nat.mod_lt (N + n - 1) hn
  omega

/-- Two columns are only taken at once from one matrix, and two rows from one chunk. -/
theorem numRowsPerVecDot_spec (a0 q : ℕ) :
    let a1 := m.dr1 * q
    let b0 := min (a0 + m.dr0) m.nr0
    let b1 := min (a1 + m.dr1) m.nr1
    let n := m.numRowsPerVecDot a0 b0 a1 b1
    (n = 1 ∨ n = 2) ∧ n ∣ m.ne1 ∧ n ∣ a1 ∧ n ∣ b0 - a0 ∧ n ∣ b1 - a1 := by
  simp only
  unfold numRowsPerVecDot
  split_ifs with h
  · simp
  · simp only [not_or, not_not] at h
    obtain ⟨-, hne1, h0, h1⟩ := h
    rcases m.vecDotNumRows_eq with hn | hn <;> rw [hn]
    · simp
    · have hdvd : 2 ∣ m.ne1 := by omega
      have hnr1 : 2 ∣ m.nr1 := Dvd.dvd.mul_right (Dvd.dvd.mul_right hdvd _) _
      have ha1 : 2 ∣ m.dr1 * q := by
        by_cases hlast : m.dr1 * q + m.dr1 ≤ m.nr1
        · exact Dvd.dvd.mul_right (by omega) _
        · omega
      exact ⟨.inr rfl, hdvd, ha1, by omega, by omega⟩

/-- The stores of all chunks are those of the elements of the result, each of them once. -/
theorem perm_chunks (vecDot : ℕ → ℕ → F) (tmp : ℕ → ℕ → F) :
    ((List.range m.nchunk).flatMap fun c => m.chunk vecDot (tmp c) c).Perm
      ((List.range' 0 m.nr1).flatMap fun r1 =>
        (List.range' 0 m.nr0).map fun r0 => m.element vecDot r0 r1) := by
  obtain ⟨h0, h1⟩ := m.nchunk_pos
  have hchunk : ∀ c, (m.chunk vecDot (tmp c) c).Perm
      ((List.range' (m.dr1 * (c / m.nchunk0))
          (min (m.dr1 * (c / m.nchunk0) + m.dr1) m.nr1 - m.dr1 * (c / m.nchunk0))).flatMap fun r1 =>
        (List.range' (m.dr0 * (c % m.nchunk0))
          (min (m.dr0 * (c % m.nchunk0) + m.dr0) m.nr0 - m.dr0 * (c % m.nchunk0))).map fun r0 =>
            m.element vecDot r0 r1) := fun c => by
    obtain ⟨hn, hne1, ha1, hb0, hb1⟩ :=
      m.numRowsPerVecDot_spec (m.dr0 * (c % m.nchunk0)) (c / m.nchunk0)
    exact oneChunk_perm vecDot (tmp c) hn hne1 ha1 hb0 hb1
  refine (List.Perm.flatMap_left _ fun c _ => hchunk c).trans ?_
  rw [nchunk, Tiles.flatMap_range_mul m.nchunk0 m.nchunk1 fun p q =>
    (List.range' (m.dr1 * q) (min (m.dr1 * q + m.dr1) m.nr1 - m.dr1 * q)).flatMap fun r1 =>
      (List.range' (m.dr0 * p) (min (m.dr0 * p + m.dr0) m.nr0 - m.dr0 * p)).map fun r0 =>
        m.element vecDot r0 r1]
  have hrange0 := Tiles.flatMap_chunks (d := m.dr0) (le_dr_mul h0)
  have hrange1 := Tiles.flatMap_chunks (d := m.dr1) (le_dr_mul h1)
  rw [← hrange0, ← hrange1, List.flatMap_assoc]
  refine List.Perm.flatMap_left _ fun q _ => (Tiles.perm_flatMap_comm _ _ _).trans ?_
  refine List.Perm.of_eq (List.flatMap_congr fun r1 _ => ?_)
  rw [List.map_flatMap]

theorem radix_inj {a a' b b' : ℕ} (ha : a < n) (ha' : a' < n) (h : a + n * b = a' + n * b') :
    a = a' ∧ b = b' := by
  have hn : 0 < n := by omega
  have hmod := congrArg (· % n) h
  have hdiv := congrArg (· / n) h
  simp only [Nat.add_mul_mod_self_left, Nat.mod_eq_of_lt ha, Nat.mod_eq_of_lt ha'] at hmod
  simp only [Nat.add_mul_div_left _ _ hn, Nat.div_eq_of_lt ha, Nat.div_eq_of_lt ha',
    Nat.zero_add] at hdiv
  exact ⟨hmod, hdiv⟩

theorem split_number {i1 i2 : ℕ} (h1 : i1 < m.ne1) (h2 : i2 < m.ne2) (i3 : ℕ) :
    m.split (i1 + m.ne1 * (i2 + m.ne2 * i3)) = (i1, i2, i3) := by
  rw [split_eq, Nat.add_mul_mod_self_left, Nat.mod_eq_of_lt h1,
    Nat.add_mul_div_left _ _ (by omega), Nat.div_eq_of_lt h1, Nat.zero_add,
    Nat.add_mul_mod_self_left, Nat.mod_eq_of_lt h2, Nat.add_mul_div_left _ _ (by omega),
    Nat.div_eq_of_lt h2, Nat.zero_add]

theorem number_lt {i1 i2 i3 : ℕ} (h1 : i1 < m.ne1) (h2 : i2 < m.ne2) (h3 : i3 < m.ne3) :
    i1 + m.ne1 * (i2 + m.ne2 * i3) < m.nr1 := by
  have hmatrix : i2 + m.ne2 * i3 < m.ne2 * m.ne3 := by
    have := Nat.mul_le_mul_left m.ne2 (Nat.succ_le_of_lt h3)
    rw [Nat.mul_succ] at this
    omega
  have := Nat.mul_le_mul_left m.ne1 (Nat.succ_le_of_lt hmatrix)
  rw [Nat.mul_succ] at this
  unfold nr1
  rw [Nat.mul_assoc]
  omega

/-- The elements of the result lie one behind the other. -/
theorem fst_element (vecDot : ℕ → ℕ → F) (r0 r1 : ℕ) :
    (m.element vecDot r0 r1).1 = nb0 * (r0 + m.ne0 * r1) := by
  have hr1 : r1 = r1 % m.ne1 + m.ne1 * (r1 / m.ne1 % m.ne2 + m.ne2 * (r1 / m.ne1 / m.ne2)) := by
    rw [Nat.mod_add_div, Nat.mod_add_div]
  unfold element
  rw [split_eq]
  simp only [dstCol, nb3, nb2, nb1]
  calc _ = nb0 * (r0 + m.ne0 * (r1 % m.ne1 + m.ne1 * (r1 / m.ne1 % m.ne2 +
          m.ne2 * (r1 / m.ne1 / m.ne2)))) := by ring
    _ = nb0 * (r0 + m.ne0 * r1) := by rw [← hr1]

theorem mem_elements {vecDot : ℕ → ℕ → F} {w : ℕ × F} :
    w ∈ ((List.range' 0 m.nr1).flatMap fun r1 =>
        (List.range' 0 m.nr0).map fun r0 => m.element vecDot r0 r1) ↔
      ∃ r1 < m.nr1, ∃ r0 < m.ne0, m.element vecDot r0 r1 = w := by
  simp only [← List.range_eq_range', List.mem_flatMap, List.mem_map, List.mem_range]
  rfl

/-- The result is the product when the stores of all chunks have taken effect. -/
theorem storeAll_chunks (vecDot : ℕ → ℕ → F) (tmp : ℕ → ℕ → F) {stores : List (ℕ × F)}
    (hstores : stores.Perm ((List.range m.nchunk).flatMap fun c => m.chunk vecDot (tmp c) c))
    (dst : ℕ → F) :
    (∀ i0 i1 i2 i3, i0 < m.ne0 → i1 < m.ne1 → i2 < m.ne2 → i3 < m.ne3 →
      storeAll stores dst (m.dstCol i1 i2 i3 + nb0 * i0) =
        vecDot (m.src0Row i2 i3 + i0 * m.nb01) (m.src1Col i1 i2 i3)) ∧
    ∀ addr, nb0 * (m.ne0 * m.nr1) ≤ addr → storeAll stores dst addr = dst addr := by
  have hmem : ∀ w, w ∈ stores ↔ ∃ r1 < m.nr1, ∃ r0 < m.ne0, m.element vecDot r0 r1 = w :=
    fun w => ((hstores.trans (perm_chunks vecDot tmp)).mem_iff).trans mem_elements
  refine ⟨fun i0 i1 i2 i3 h0 h1 h2 h3 => ?_, fun addr haddr => ?_⟩
  · have hsplit := split_number h1 h2 i3
    have hlt := number_lt h1 h2 h3
    set r1 := i1 + m.ne1 * (i2 + m.ne2 * i3)
    have helement : m.element vecDot i0 r1 = (m.dstCol i1 i2 i3 + nb0 * i0,
        vecDot (m.src0Row i2 i3 + i0 * m.nb01) (m.src1Col i1 i2 i3)) := by
      unfold element
      rw [hsplit]
    have hstore : storeAll stores dst (m.element vecDot i0 r1).1 = (m.element vecDot i0 r1).2 := by
      refine storeAll_eq ((hmem _).2 ⟨r1, hlt, i0, h0, rfl⟩) fun w hw heq => ?_
      obtain ⟨r1', -, r0', h0', rfl⟩ := (hmem w).1 hw
      rw [fst_element, fst_element] at heq
      obtain ⟨h0', h1'⟩ := radix_inj h0' h0 (Nat.mul_left_cancel (by decide : 0 < nb0) heq)
      rw [h0', h1']
    rwa [helement] at hstore
  · refine storeAll_of_notMem fun w hw heq => ?_
    obtain ⟨r1, h1, r0, h0, rfl⟩ := (hmem w).1 hw
    rw [fst_element] at heq
    have := Nat.mul_le_mul_left m.ne0 (Nat.succ_le_of_lt h1)
    rw [Nat.mul_succ] at this
    have := Nat.mul_lt_mul_of_pos_left (by omega : r0 + m.ne0 * r1 < m.ne0 * m.nr1)
      (by decide : 0 < nb0)
    omega

/-- How many blocks a row of `src1` has. -/
def blocks (m : MulMat) : ℕ := m.ne10 / m.blckSize

theorem rowSize_eq : m.rowSize = m.typeSize * m.blocks := by
  unfold rowSize blocks
  rw [Nat.mul_div_assoc _ m.blckSize_dvd]

theorem blockStart_eq (ith : ℕ) : m.blockStart ith = ith * m.blocks / m.nth := by
  unfold blockStart blocks
  rw [Nat.mul_div_assoc _ m.blckSize_dvd]

theorem monotone_blockStart : Monotone m.blockStart := fun i i' h => by
  rw [blockStart_eq, blockStart_eq]
  exact Nat.div_le_div_right (Nat.mul_le_mul_right _ h)

theorem blockStart_nth : m.blockStart m.nth = m.blocks := by
  rw [blockStart_eq, Nat.mul_div_cancel_left _ m.nth_pos]

/-- Where a block of a row of `wdata` is. -/
def wdataBlock (m : MulMat) (i11 i12 i13 block : ℕ) : ℕ :=
  (i11 + i12 * m.ne1 + i13 * m.ne2 * m.ne1) * m.rowSize + block * m.typeSize

theorem mem_convert (hconv : m.converts = true) {fromFloat : ℕ → F} {ith : ℕ} {w : ℕ × F} :
    w ∈ m.convert fromFloat ith ↔ ∃ i13 < m.ne3, ∃ i12 < m.ne2, ∃ i11 < m.ne1, ∃ block,
      m.blockStart ith ≤ block ∧ block < m.blockStart (ith + 1) ∧
        (m.wdataBlock i11 i12 i13 block, fromFloat (m.src1Block i11 i12 i13 block)) = w := by
  unfold convert
  rw [if_pos hconv]
  simp only [List.mem_flatMap, List.mem_range, List.mem_map]
  refine exists_congr fun i13 => and_congr_right fun _ => exists_congr fun i12 =>
    and_congr_right fun _ => exists_congr fun i11 => and_congr_right fun _ => ?_
  have hblock : ∀ t, i13 * (m.rowSize * m.ne1 * m.ne2) + i12 * (m.rowSize * m.ne1) +
      i11 * m.rowSize + m.blockStart ith * m.typeSize + t * m.typeSize =
        m.wdataBlock i11 i12 i13 (m.blockStart ith + t) ∧
      i13 * m.nb13 + i12 * m.nb12 + i11 * m.nb11 + m.blockStart ith * m.blckSize * 4 +
        t * (m.blckSize * 4) = m.src1Block i11 i12 i13 (m.blockStart ith + t) := fun t => by
    unfold wdataBlock src1Block
    constructor <;> ring
  simp only [hblock]
  constructor
  · rintro ⟨t, ht, rfl⟩
    exact ⟨_, Nat.le_add_right _ _, by omega, rfl⟩
  · rintro ⟨block, hle, hlt, rfl⟩
    exact ⟨block - m.blockStart ith, by omega, by rw [Nat.add_sub_cancel' hle]⟩

/-- Each block of `src1` is converted when all threads have converted their parts. -/
theorem storeAll_convert (hconv : m.converts = true) (fromFloat : ℕ → F) {stores : List (ℕ × F)}
    (hstores : stores.Perm ((List.range m.nth).flatMap (m.convert fromFloat))) (wdata : ℕ → F)
    {i11 i12 i13 block : ℕ} (h1 : i11 < m.ne1) (h2 : i12 < m.ne2) (h3 : i13 < m.ne3)
    (hb : block < m.blocks) :
    storeAll stores wdata (m.src1Col i11 i12 i13 + block * m.typeSize) =
      fromFloat (m.src1Block i11 i12 i13 block) := by
  have hcol : m.src1Col i11 i12 i13 + block * m.typeSize = m.wdataBlock i11 i12 i13 block := by
    simp [src1Col, hconv, wdataBlock]
  have hmem : ∀ w, w ∈ stores ↔ ∃ ith < m.nth, w ∈ m.convert fromFloat ith := fun w => by
    rw [hstores.mem_iff, List.mem_flatMap]
    simp only [List.mem_range]
  have haddr : ∀ i11 i12 i13 block, m.wdataBlock i11 i12 i13 block =
      m.typeSize * (block + m.blocks * (i11 + m.ne1 * (i12 + m.ne2 * i13))) :=
    fun i11 i12 i13 block => by
      unfold wdataBlock
      rw [rowSize_eq]
      ring
  rw [hcol]
  refine storeAll_eq ((hmem _).2 ?_) fun w hw heq => ?_
  · have hcuts := Tiles.flatMap_cuts m.monotone_blockStart m.nth
    have hin : block ∈ List.range' (m.blockStart 0) (m.blockStart m.nth - m.blockStart 0) := by
      rw [blockStart_nth, blockStart_eq 0, Nat.zero_mul, Nat.zero_div]
      simpa using hb
    rw [← hcuts, List.mem_flatMap] at hin
    obtain ⟨ith, hith, hin⟩ := hin
    rw [List.mem_range'_1] at hin
    exact ⟨ith, List.mem_range.1 hith,
      (mem_convert hconv).2 ⟨i13, h3, i12, h2, i11, h1, block, hin.1, by omega, rfl⟩⟩
  · obtain ⟨ith, hith, hw⟩ := (hmem w).1 hw
    obtain ⟨j13, -, j12, g2, j11, g1, b, -, hlt, rfl⟩ := (mem_convert hconv).1 hw
    have hlast : m.blockStart (ith + 1) ≤ m.blocks :=
      (monotone_blockStart (Nat.succ_le_of_lt hith)).trans_eq blockStart_nth
    simp only at heq
    rw [haddr, haddr] at heq
    obtain ⟨hblock, hrow⟩ := radix_inj (by omega) hb (Nat.mul_left_cancel m.typeSize_pos heq)
    obtain ⟨h11, hmatrix⟩ := radix_inj g1 h1 hrow
    obtain ⟨h12, h13⟩ := radix_inj g2 h2 hmatrix
    rw [hblock, h11, h12, h13]

/-- The items of a phase of a node in front of the abort, when all threads are finished. -/
theorem itemsOf_perm {nth : ℕ} {nodes : List CpuNode} {p : ThreadPool nth} {passed : BitVec 32}
    {chunk0 i j : ℕ} (ph : CpuPhase) (hnth : 0 < nth)
    (h : Reachable (· = ThreadPool.start nth passed chunk0) (ThreadPool.Step nodes) p)
    (hfin : ∀ i, p.threads i = ⟨.finished, .out⟩) (habort : p.aborted = true → i < p.abort)
    (hph : (ThreadPool.phasesAt nodes i)[j]? = some ph) :
    (ThreadPool.itemsOf p.computed i j).Perm (List.range (ph.items nth)) := by
  obtain ⟨round, gen, start, status, hr⟩ := ThreadPool.rounds_of_reachable hnth h
  obtain ⟨K, -, hK, hmem⟩ := hr.computed_of_finished hnth hfin
  have hi : i < K := by
    have hlt := ThreadPool.lt_of_phasesAt hph
    split_ifs at hK with ha
    · have := habort ha
      omega
    · omega
  have hnodup : (ThreadPool.itemsOf p.computed i j).Nodup := by
    refine List.Nodup.map_on ?_ (hr.items.1.filter _)
    rintro ⟨_, _, _⟩ hx ⟨_, _, _⟩ hy rfl
    simp only [List.mem_filter, decide_eq_true_eq] at hx hy
    obtain ⟨-, rfl, rfl⟩ := hx
    obtain ⟨-, rfl, rfl⟩ := hy
    rfl
  rw [List.perm_ext_iff_of_nodup hnodup List.nodup_range]
  intro c
  rw [ThreadPool.mem_itemsOf, hmem, List.mem_range]
  constructor
  · rintro ⟨⟨ph', hph', hc⟩, -⟩
    rw [hph] at hph'
    exact Option.some.inj hph' ▸ hc
  · exact fun hc => ⟨⟨ph, hph, hc⟩, hi⟩

/-- When the threads of a pool have computed a graph with a matrix multiplication, `src1` is
converted block by block and the result is the product, whatever the order in which the threads
take their steps and in which the stores of a phase take effect. -/
theorem mulMat_of_finished (m : MulMat) (vecDot : ℕ → ℕ → F) (fromFloat : ℕ → F)
    (tmp : ℕ → ℕ → F) {nodes : List CpuNode} {i : ℕ} (hi : nodes[i]? = some (.mulMat m.nchunk))
    {passed : BitVec 32} {chunk0 : ℕ} {p : ThreadPool m.nth}
    (h : Reachable (· = ThreadPool.start m.nth passed chunk0) (ThreadPool.Step nodes) p)
    (hfin : ∀ i, p.threads i = ⟨.finished, .out⟩) (habort : p.aborted = true → i < p.abort) :
    (m.converts = true → ∀ stores wdata,
      stores.Perm ((ThreadPool.itemsOf p.computed i 0).flatMap (m.convert fromFloat)) →
      ∀ i11 i12 i13 block, i11 < m.ne1 → i12 < m.ne2 → i13 < m.ne3 → block < m.ne10 / m.blckSize →
        storeAll stores wdata (m.src1Col i11 i12 i13 + block * m.typeSize) =
          fromFloat (m.src1Block i11 i12 i13 block)) ∧
    ∀ stores dst,
      stores.Perm ((ThreadPool.itemsOf p.computed i 1).flatMap fun c => m.chunk vecDot (tmp c) c) →
      (∀ i0 i1 i2 i3, i0 < m.ne0 → i1 < m.ne1 → i2 < m.ne2 → i3 < m.ne3 →
        storeAll stores dst (m.dstCol i1 i2 i3 + nb0 * i0) =
          vecDot (m.src0Row i2 i3 + i0 * m.nb01) (m.src1Col i1 i2 i3)) ∧
      ∀ addr, nb0 * (m.ne0 * m.nr1) ≤ addr → storeAll stores dst addr = dst addr := by
  have hphases : ThreadPool.phasesAt nodes i = [.convert, .chunks m.nchunk] := by
    unfold ThreadPool.phasesAt
    rw [List.getD_eq_getElem?_getD, hi]
    rfl
  have hconvert : (ThreadPool.itemsOf p.computed i 0).Perm (List.range m.nth) :=
    itemsOf_perm .convert m.nth_pos h hfin habort (by rw [hphases]; rfl)
  have hchunks : (ThreadPool.itemsOf p.computed i 1).Perm (List.range m.nchunk) :=
    itemsOf_perm (.chunks m.nchunk) m.nth_pos h hfin habort (by rw [hphases]; rfl)
  refine ⟨fun hconv stores wdata hstores i11 i12 i13 block h1 h2 h3 hb => ?_,
    fun stores dst hstores => ?_⟩
  · exact storeAll_convert hconv fromFloat (hstores.trans (hconvert.flatMap_right _)) wdata h1 h2 h3
      hb
  · exact storeAll_chunks vecDot tmp (hstores.trans (hchunks.flatMap_right _)) dst

/-- A result of four rows and two columns, in pairs of which the products are taken. -/
def fourByTwo : MulMat where
  ne0 := 4
  ne1 := 2
  ne2 := 1
  ne3 := 1
  ne02 := 1
  ne03 := 1
  ne10 := 64
  nb01 := 68
  nb02 := 272
  nb03 := 272
  nb11 := 256
  nb12 := 512
  nb13 := 512
  src1Cont := true
  converts := true
  blckSize := 32
  typeSize := 34
  vecDotNumRows := 2
  nth := 2
  isNuma := false
  nth_pos := Nat.two_pos
  vecDotNumRows_eq := .inr rfl
  blckSize_pos := by decide
  typeSize_pos := by decide
  blckSize_dvd := by decide

/-- Two threads multiply it. -/
theorem mulMat_of_finished_fourByTwo :
    ∃ p : ThreadPool fourByTwo.nth,
      Reachable (· = ThreadPool.start 2 7 0) (ThreadPool.Step [.mulMat 2]) p ∧
      p.computed = [⟨0, 0, 0⟩, ⟨0, 0, 1⟩, ⟨0, 1, 0⟩, ⟨0, 1, 1⟩] ∧
      storeAll ((ThreadPool.itemsOf p.computed 0 1).flatMap
          fun c => fourByTwo.chunk (1000 * · + ·) (fun _ => 0) c) (fun _ => 0) 28 =
        1000 * (3 * 68) + 68 := by
  have hrun : ∃ p, Transition.exec (fun p t => p.step [.mulMat 2] t.1 t.2)
      (ThreadPool.start 2 7 0) ([0, 1, 0, 1, 1, 0, 0, 0, 0, 0, 1, 0, 1, 1, 1, 1, 0, 1, 0, 0,
        0, 0, 1].map (·, false)) = some p ∧
      p.computed = [⟨0, 0, 0⟩, ⟨0, 0, 1⟩, ⟨0, 1, 0⟩, ⟨0, 1, 1⟩] ∧
      p.aborted = false ∧ ∀ i, p.threads i = ⟨.finished, .out⟩ := by
    exact ⟨_, rfl, by decide, rfl, Fin.forall_fin_two.2 ⟨rfl, rfl⟩⟩
  obtain ⟨p, hexec, hcomputed, habort, hfin⟩ := hrun
  have hreach : Reachable (· = ThreadPool.start 2 7 0) (ThreadPool.Step [.mulMat 2]) p :=
    ⟨_, _, rfl, Transition.run_of_exec hexec⟩
  have hmul := (mulMat_of_finished fourByTwo (1000 * · + ·) id (fun _ _ => 0) (i := 0) rfl hreach hfin
    (by simp [habort])).2 _ (fun _ => 0) (List.Perm.refl _)
  exact ⟨p, hreach, hcomputed, hmul.1 3 1 0 0 (by decide) (by decide) (by decide) (by decide)⟩

end MulMat

end LamaServer
