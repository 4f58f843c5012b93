import LamaServer.Proofs.Mmap
import LamaServer.Proofs.ModelRequests

/-!
# The data of a model stays mapped

Loading counts the bytes of the tensors, and unmaps what no tensor was left in when the count meets
the total. It meets it behind the last context and not before, so what is unmapped is not read and
not used any more (`loadTensors_keepsMapped`).
-/

namespace LamaServer

open Fragments (Ordered covered)
open Except (Ends)
open LoaderStop (IsRuntimeError)

/-! ## One tensor -/

/-- The range from the first start to the last end, or `(size, 0)` of none. -/
def hull (size : ℕ) (ranges : List (ℕ × ℕ)) : ℕ × ℕ :=
  ranges.foldl (fun used r => (min used.1 r.1, max used.2 r.2)) (size, 0)

section Hull

variable (size : ℕ) {ranges : List (ℕ × ℕ)}

theorem hull_concat (r : ℕ × ℕ) : hull size (ranges ++ [r]) =
    (min (hull size ranges).1 r.1, max (hull size ranges).2 r.2) := by
  simp [hull]

theorem hull_bounds {r : ℕ × ℕ} (hr : r ∈ ranges) :
    (hull size ranges).1 ≤ r.1 ∧ r.2 ≤ (hull size ranges).2 := by
  induction ranges using List.reverseRecOn with
  | nil => cases hr
  | append_singleton ranges r' ih =>
    rw [hull_concat]
    rcases List.mem_append.1 hr with hr | hr
    · have := ih hr
      dsimp only
      omega
    · obtain rfl := List.mem_singleton.1 hr
      dsimp only
      omega

theorem hull_le (ranges : List (ℕ × ℕ)) : (hull size ranges).1 ≤ size := by
  induction ranges using List.reverseRecOn with
  | nil => exact le_rfl
  | append_singleton ranges r ih =>
    rw [hull_concat]
    exact (min_le_left _ _).trans ih

/-- The end is that of a range. -/
theorem exists_hull_end (h : ranges ≠ []) : ∃ r ∈ ranges, (hull size ranges).2 = r.2 := by
  induction ranges using List.reverseRecOn with
  | nil => exact absurd rfl h
  | append_singleton ranges r ih =>
    rw [hull_concat]
    rcases ranges.eq_nil_or_concat with rfl | ⟨_, _, hne⟩
    · exact ⟨r, by simp, by simp [hull]⟩
    · obtain ⟨r', hr', heq⟩ := ih (by simp [hne])
      rcases max_choice (hull size ranges).2 r.2 with hmax | hmax
      · exact ⟨r', List.mem_append_left _ hr', hmax.trans heq⟩
      · exact ⟨r, by simp, hmax⟩

/-- The start is that of a range that does not start behind `size`. -/
theorem exists_hull_start (h : ranges ≠ []) (hle : ∀ r ∈ ranges, r.1 ≤ size) :
    ∃ r ∈ ranges, (hull size ranges).1 = r.1 := by
  induction ranges using List.reverseRecOn with
  | nil => exact absurd rfl h
  | append_singleton ranges r ih =>
    rw [hull_concat]
    rcases ranges.eq_nil_or_concat with rfl | ⟨_, _, hne⟩
    · exact ⟨r, by simp, by simpa [hull] using hle r (by simp)⟩
    · obtain ⟨r', hr', heq⟩ := ih (by simp [hne]) fun r hr => hle r (List.mem_append_left _ hr)
      rcases min_choice (hull size ranges).1 r.1 with hmin | hmin
      · exact ⟨r', List.mem_append_left _ hr', hmin.trans heq⟩
      · exact ⟨r, by simp, hmin⟩

end Hull

/-- The bytes of the file of an index where the data of a tensor was left. -/
def ModelTensor.placed (idx : ℕ) (t : ModelTensor) : Option (ℕ × ℕ) :=
  match t.data with
  | .mapped i offs => if i = idx then some (offs, offs + t.nbytes.toNat) else none
  | _ => none

namespace ModelLoader

/-- A loader with its files mapped. -/
structure Mapped (base : ModelLoader) : Prop where
  sound : WeightsSound base.files base.weightsMap
  useMmap : base.useMmap = true
  mappings : base.mappings = fun idx => LlamaMmap.ofFile (base.fileSize idx)
  mmapsUsed : base.mmapsUsed = fun idx => (base.fileSize idx, 0)
  munmaps : base.munmaps = fun _ => []
  sizeDone : base.sizeDone = 0

/-- The loader after the data of some tensors was loaded. -/
def after (base : ModelLoader) (loaded : List ModelTensor) : ModelLoader :=
  { base with
    mmapsUsed := fun idx => hull (base.fileSize idx) (loaded.filterMap (·.placed idx))
    sizeDone := UInt64.ofNat (ctxBytes loaded) }

/-- A tensor of a weight, with memory or with a buffer over the part of the mapping it is in. -/
def Ready (base : ModelLoader) (bufs : ℕ → Option ModelBuffer) (t : ModelTensor) : Prop :=
  ∃ w, base.getWeight t.name = some w ∧ t.nbytes = w.nbytes ∧ 0 < w.nbytes.toNat ∧
    (t.data = .buffer ∨ t.data = .null ∧ ∃ first last, bufs w.idx = some (.fromHostPtr first last) ∧
      first ≤ w.offs.toNat ∧ w.offs.toNat + w.nbytes.toNat ≤ last)

/-- Where a tensor was left is in the file. -/
def Inside (base : ModelLoader) (t : ModelTensor) : Prop :=
  ∀ idx, ∀ r ∈ t.placed idx, idx < base.files.length ∧ r.1 < r.2 ∧ r.2 ≤ base.fileSize idx

variable {base : ModelLoader} {loaded : List ModelTensor} {bufs : ℕ → Option ModelBuffer}
  {t : ModelTensor} {w : TensorWeight}

theorem Mapped.after_nil (h : base.Mapped) : base.after [] = base := by
  unfold after
  simp only [List.filterMap_nil, hull, List.foldl_nil, ctxBytes, List.map_nil, List.sum_nil]
  rw [← h.mmapsUsed, show UInt64.ofNat 0 = base.sizeDone from h.sizeDone.symm]

theorem Mapped.within (h : base.Mapped) (hw : base.getWeight t.name = some w) :
    w.idx < base.files.length ∧ w.offs.toNat + w.nbytes.toNat ≤ base.fileSize w.idx ∧
      (w.offs + w.nbytes).toNat = w.offs.toNat + w.nbytes.toNat := by
  obtain ⟨file, hfile, hle⟩ := h.sound.within w (getWeight_spec hw).1
  rw [Option.mem_def] at hfile
  have hlt := file.size.toNat_lt
  refine ⟨(List.getElem?_eq_some_iff.1 hfile).1, by simpa [fileSize, hfile] using hle, ?_⟩
  rw [UInt64.toNat_add]
  omega

/-- What loading a tensor does. -/
theorem loadTensor_spec (loaded : List ModelTensor) (h : base.Mapped) (ht : base.Ready bufs t)
    (hw : base.getWeight t.name = some w) :
    ∃ t', (base.after loaded).loadTensor bufs w t = .ok (base.after (loaded ++ [t']), t') ∧
      t'.nbytes = t.nbytes ∧ t'.data ≠ .null ∧ base.Inside t' := by
  obtain ⟨w', hw', hbytes, hpos, hdata⟩ := ht
  obtain rfl : w' = w := Option.some.inj (hw'.symm.trans hw)
  obtain ⟨hidx, hsize, hadd⟩ := h.within hw
  have hdone : ∀ t' : ModelTensor, t'.nbytes = t.nbytes →
      UInt64.ofNat (ctxBytes loaded) + t.nbytes = UInt64.ofNat (ctxBytes (loaded ++ [t'])) :=
    fun t' ht' => by rw [ctxBytes_concat, UInt64.ofNat_add, ht', UInt64.ofNat_toNat]
  have hmmap : (base.after loaded).useMmap = true := h.useMmap
  unfold loadTensor
  simp only [hmmap, if_true]
  rcases hdata with hdata | ⟨hdata, first, last, hbuf, hfirst, hlast⟩
  · have hplaced : ∀ idx, t.placed idx = none := fun idx => by simp [ModelTensor.placed, hdata]
    have hreadable : (base.after loaded).Readable w'.idx w'.offs.toNat t.nbytes.toNat := by
      refine .inr ⟨(0, base.fileSize w'.idx), ?_, Nat.zero_le _, by rw [hbytes]; exact hsize⟩
      simp [after, h.mappings, LlamaMmap.ofFile]
    refine ⟨t, ?_, rfl, by simp [hdata], by simp [Inside, hplaced]⟩
    have hafter : { base.after loaded with
        sizeDone := (base.after loaded).sizeDone + t.nbytes } = base.after (loaded ++ [t]) := by
      simp [after, hdone t rfl, hplaced]
    rw [hdata]
    rcases bufs w'.idx with _ | buf
    all_goals
      simp only [if_pos hreadable]
      exact congrArg (fun ml => Except.ok (ml, t)) hafter
  · let t' : ModelTensor := { t with data := .mapped w'.idx w'.offs.toNat }
    have hplaced : ∀ idx, t'.placed idx =
        if w'.idx = idx then some (w'.offs.toNat, w'.offs.toNat + t.nbytes.toNat) else none :=
      fun idx => rfl
    refine ⟨t', ?_, rfl, by simp [t'], fun idx r hr => ?_⟩
    · have hfit : first ≤ w'.offs.toNat ∧ w'.offs.toNat + t.nbytes.toNat ≤ last :=
        ⟨hfirst, by rw [hbytes]; exact hlast⟩
      rw [hdata, hbuf]
      simp only [if_pos hfit]
      refine congrArg (fun ml => Except.ok (ml, t')) ?_
      have hused : Function.update (base.after loaded).mmapsUsed w'.idx
          (min ((base.after loaded).mmapsUsed w'.idx).1 w'.offs.toNat,
            max ((base.after loaded).mmapsUsed w'.idx).2 (w'.offs + t.nbytes).toNat) =
          (base.after (loaded ++ [t'])).mmapsUsed := by
        funext idx
        by_cases hi : w'.idx = idx
        · subst hi
          rw [Function.update_self, hbytes, hadd]
          simp [after, hplaced, hull_concat, hbytes]
        · rw [Function.update_of_ne (Ne.symm hi)]
          simp [after, hplaced, hi]
      rw [hused]
      simp [after, hdone t' rfl, h.useMmap]
    · rw [hplaced] at hr
      split_ifs at hr with hidx'
      · obtain rfl := Option.some.inj hr
        rw [hbytes, ← hidx']
        exact ⟨hidx, Nat.lt_add_of_pos_right hpos, hsize⟩
      · cases hr

theorem Ready.inside (ht : base.Ready bufs t) : base.Inside t := by
  obtain ⟨w, -, -, -, hdata⟩ := ht
  have hnone : ∀ idx, t.placed idx = none := fun idx => by
    rcases hdata with hdata | hdata <;> simp [ModelTensor.placed, hdata]
  simp [Inside, hnone]

/-! ## One context -/

/-- What a context became of which some tensors were loaded, or all. -/
structure Loads (base : ModelLoader) (loaded ctx : List ModelTensor) (go : Bool)
    (ctx' : List ModelTensor) (ml : ModelLoader) : Prop where
  inside : ∀ t ∈ ctx', base.Inside t
  some : ∃ l, ml = base.after (loaded ++ l)
  all : go = true → ml = base.after (loaded ++ ctx') ∧ ctxBytes ctx' = ctxBytes ctx ∧
    ∀ t ∈ ctx', t.data ≠ .null

theorem loadTensors_spec (h : base.Mapped) (cb : LoadCallbacks) :
    ∀ {ctx : List ModelTensor} (loaded : List ModelTensor), (∀ t ∈ ctx, base.Ready bufs t) →
      Ends IsRuntimeError (fun r => base.Loads loaded ctx r.1 r.2.2 r.2.1)
        (loadTensors cb bufs (base.after loaded) ctx)
  | [], loaded, _ => ⟨by simp, ⟨[], by simp⟩, fun _ => by simp⟩
  | cur :: rest, loaded, hready => by
    obtain ⟨hcur, hrest⟩ := List.forall_mem_cons.1 hready
    obtain ⟨w, hw, -⟩ := id hcur
    unfold loadTensors
    rw [show (base.after loaded).getWeight cur.name = Option.some w from hw]
    refine Ends.ite (fun _ => ?_) fun _ => ?_
    · obtain ⟨cur', hload, hbytes, hnull, hinside⟩ := loadTensor_spec loaded h hcur hw
      rw [hload]
      refine (loadTensors_spec h cb (loaded ++ [cur']) hrest).bind fun r hr => ?_
      obtain ⟨go, ml, ctx'⟩ := r
      refine ⟨List.forall_mem_cons.2 ⟨hinside, hr.inside⟩, ?_, fun hgo => ?_⟩
      · obtain ⟨l, hl⟩ := hr.some
        exact ⟨cur' :: l, by simpa using hl⟩
      · obtain ⟨hml, hsum, hdata⟩ := hr.all hgo
        refine ⟨by simpa using hml, ?_, List.forall_mem_cons.2 ⟨hnull, hdata⟩⟩
        simp only [ctxBytes, List.map_cons, List.sum_cons, hbytes] at hsum ⊢
        rw [hsum]
    · refine ⟨fun t ht => (hready t ht).inside, ⟨[], by simp⟩, fun hgo => by cases hgo⟩

/-! ## What is unmapped -/

/-- The ranges in front of the tensors that were left in a file, and behind them. -/
def unused (base : ModelLoader) (loaded : List ModelTensor) (idx : ℕ) : List (ℕ × ℕ) :=
  let used := hull (base.fileSize idx) (loaded.filterMap (·.placed idx))
  (0, used.1) :: if used.2 ≠ 0 then [(used.2, base.fileSize idx)] else []

/-- The sizes of the files, for pages of `2 ^ k` bytes. -/
structure Sizes (base : ModelLoader) (k : ℕ) : Prop where
  pageSize : base.pageSize = 2 ^ k
  lt : k < 31
  pos : ∀ idx < base.files.length, 0 < base.fileSize idx
  le : ∀ idx < base.files.length, base.fileSize idx + 2 ^ k ≤ 2 ^ 64

/-- The ranges of each file were unmapped. -/
structure Cleaned (base : ModelLoader) (loaded : List ModelTensor) (ml : ModelLoader) : Prop where
  files : ml.files = base.files
  unmapped : ∀ idx < base.files.length,
    (LlamaMmap.ofFile (base.fileSize idx)).unmapFragments base.pageSize (base.unused loaded idx) =
      .ok (ml.munmaps idx, ml.mappings idx)

section Unused

variable {k idx : ℕ} {r : ℕ × ℕ}

theorem placed_bounds (hin : ∀ t ∈ loaded, base.Inside t)
    (hr : r ∈ loaded.filterMap (·.placed idx)) : r.1 < r.2 ∧ r.2 ≤ base.fileSize idx := by
  obtain ⟨t, ht, hr⟩ := List.mem_filterMap.1 hr
  exact (hin t ht idx r hr).2

theorem hull_end_le (idx : ℕ) (hin : ∀ t ∈ loaded, base.Inside t) :
    (hull (base.fileSize idx) (loaded.filterMap (·.placed idx))).2 ≤ base.fileSize idx := by
  rcases (loaded.filterMap (·.placed idx)).eq_nil_or_concat with h | ⟨_, _, h⟩
  · simp [h, hull]
  · obtain ⟨r, hr, heq⟩ := exists_hull_end (base.fileSize idx)
      (show loaded.filterMap (·.placed idx) ≠ [] by simp [h])
    rw [heq]
    exact (placed_bounds hin hr).2

theorem unused_bounds (h : base.Sizes k) (hidx : idx < base.files.length)
    (hin : ∀ t ∈ loaded, base.Inside t) (hr : r ∈ base.unused loaded idx) :
    r.1 + 2 ^ k ≤ 2 ^ 64 ∧ r.2 < 2 ^ 64 ∧ r.2 ≤ base.fileSize idx := by
  have hpage : 2 ^ k ≤ 2 ^ 31 := Nat.pow_le_pow_right (by omega) h.lt.le
  have hpos := Nat.two_pow_pos k
  have hle := h.le idx hidx
  have hstart := hull_le (base.fileSize idx) (loaded.filterMap (·.placed idx))
  have hend := hull_end_le idx hin
  unfold unused at hr
  rcases List.mem_cons.1 hr with rfl | hr
  · dsimp only
    omega
  · split_ifs at hr
    · obtain rfl := List.mem_singleton.1 hr
      dsimp only
      omega
    · cases hr

theorem unused_disjoint (hin : ∀ t ∈ loaded, base.Inside t) :
    (base.unused loaded idx).Pairwise fun r r' =>
      ∀ page, WholePage (2 ^ k) r page → ¬ WholePage (2 ^ k) r' page := by
  unfold unused
  refine List.pairwise_cons.2 ⟨fun r' hr' page hwhole hwhole' => ?_, ?_⟩
  · split_ifs at hr' with hne
    · obtain rfl := List.mem_singleton.1 hr'
      -- an end that is not zero is that of a tensor, which does not start behind it
      have hranges : loaded.filterMap (·.placed idx) ≠ [] := fun hnil => hne (by simp [hull, hnil])
      obtain ⟨r, hr, heq⟩ := exists_hull_end (base.fileSize idx) hranges
      have hstart := (hull_bounds (base.fileSize idx) hr).1
      have hle := (placed_bounds hin hr).1
      have hfirst := hwhole.2
      have hlast := hwhole'.1
      have hpos := Nat.two_pow_pos k
      dsimp only at hfirst hlast
      rw [Nat.succ_mul] at hfirst
      omega
    · cases hr'
  · split_ifs
    · exact List.pairwise_singleton _ _
    · exact .nil

/-- The bytes of a tensor are in no range. -/
theorem placed_notMem_unused {x : ℕ} (hr : r ∈ loaded.filterMap (·.placed idx))
    (hx : r.1 ≤ x ∧ x < r.2) :
    ∀ u ∈ base.unused loaded idx, ¬ WholePage (2 ^ k) u (x / 2 ^ k) := by
  intro u hu hwhole
  obtain ⟨hstart, hend⟩ := hull_bounds (base.fileSize idx) hr
  have hpos := Nat.two_pow_pos k
  have hfloor := Nat.div_mul_le_self x (2 ^ k)
  have hceil := Nat.lt_div_mul_add (a := x) hpos
  unfold unused at hu
  rcases List.mem_cons.1 hu with rfl | hu
  · have hlast := hwhole.2
    dsimp only at hlast
    rw [Nat.succ_mul] at hlast
    omega
  · split_ifs at hu
    · obtain rfl := List.mem_singleton.1 hu
      have hfirst := hwhole.1
      dsimp only at hfirst
      omega
    · cases hu

end Unused

/-- The files up to `n` were unmapped. -/
structure CleanedTo (base : ModelLoader) (loaded : List ModelTensor) (n : ℕ) (ml : ModelLoader) :
    Prop where
  files : ml.files = base.files
  pageSize : ml.pageSize = base.pageSize
  mmapsUsed : ml.mmapsUsed = (base.after loaded).mmapsUsed
  mapped : ∀ idx, n ≤ idx →
    ml.mappings idx = LlamaMmap.ofFile (base.fileSize idx) ∧ ml.munmaps idx = []
  unmapped : ∀ idx < n, (LlamaMmap.ofFile (base.fileSize idx)).unmapFragments base.pageSize
    (base.unused loaded idx) = .ok (ml.munmaps idx, ml.mappings idx)

theorem unmapUnused_spec {k n : ℕ} {ml : ModelLoader} (hsizes : base.Sizes k)
    (hin : ∀ t ∈ loaded, base.Inside t) (hn : n < base.files.length)
    (h : base.CleanedTo loaded n ml) :
    Ends IsRuntimeError (base.CleanedTo loaded (n + 1)) (ml.unmapUnused n) := by
  have hranges : ∀ r ∈ base.unused loaded n, r.1 + 2 ^ k ≤ 2 ^ 64 ∧ r.2 < 2 ^ 64 := fun r hr =>
    (unused_bounds hsizes hn hin hr).imp_right And.left
  obtain ⟨calls, mapping, hrun, -⟩ := LlamaMmap.unmapFragments_spec hsizes.lt hranges
    (LlamaMmap.paged_ofFile (2 ^ k) (hsizes.pos n hn))
  obtain ⟨hmapping, hcalls⟩ := h.mapped n le_rfl
  unfold unmapUnused
  rw [hmapping, h.pageSize, h.mmapsUsed, hcalls]
  have hrun' : (LlamaMmap.ofFile (base.fileSize n)).unmapFragments base.pageSize
      ((0, ((base.after loaded).mmapsUsed n).1) :: if ((base.after loaded).mmapsUsed n).2 ≠ 0 then
        [(((base.after loaded).mmapsUsed n).2, (LlamaMmap.ofFile (base.fileSize n)).size)] else []) =
      .ok (calls, mapping) := by
    rw [hsizes.pageSize]
    exact hrun
  dsimp only
  rw [hrun']
  refine ⟨h.files, rfl, rfl, fun idx hidx => ?_, fun idx hidx => ?_⟩
  · have hne : idx ≠ n := by omega
    simp only [Function.update_of_ne hne]
    exact h.mapped idx (by omega)
  · rcases Nat.lt_succ_iff_lt_or_eq.1 hidx with hlt | rfl
    · simp only [Function.update_of_ne hlt.ne]
      exact h.unmapped idx hlt
    · simpa [hsizes.pageSize] using hrun

theorem cleanUp_spec {k : ℕ} (h : base.Mapped) (hsizes : base.Sizes k)
    (hin : ∀ t ∈ loaded, base.Inside t) :
    Ends IsRuntimeError (base.Cleaned loaded) (base.after loaded).cleanUp := by
  have hfiles : ∀ n ≤ base.files.length, Ends IsRuntimeError (base.CleanedTo loaded n)
      ((List.range n).foldlM unmapUnused (base.after loaded)) := fun n hn => by
    induction n with
    | zero =>
      exact ⟨rfl, rfl, rfl, fun idx _ => by simp [after, h.mappings, h.munmaps],
        fun _ h => by omega⟩
    | succ n ih =>
      rw [List.range_succ, List.foldlM_append]
      refine (ih (by omega)).bind fun ml hml => ?_
      rw [List.foldlM_cons]
      exact (unmapUnused_spec hsizes hin hn hml).bind fun _ h => h
  exact (hfiles _ le_rfl).mono fun ml hml => ⟨hml.files, hml.unmapped⟩

/-- What loading a context ends with, when `rest` bytes are still to be loaded. -/
structure LoadsAll (base : ModelLoader) (loaded ctx : List ModelTensor) (rest : ℕ) (go : Bool)
    (ctx' : List ModelTensor) (ml : ModelLoader) : Prop where
  inside : ∀ t ∈ ctx', base.Inside t
  all : go = true → ctxBytes ctx' = ctxBytes ctx ∧ ∀ t ∈ ctx', t.data ≠ .null
  state : ((∃ l, ml = base.after (loaded ++ l)) ∧
      (go = true → 0 < rest ∧ ml = base.after (loaded ++ ctx'))) ∨
    rest = 0 ∧ base.Cleaned (loaded ++ ctx') ml

theorem loadAllData_spec {k rest : ℕ} (h : base.Mapped) (hsizes : base.Sizes k) (cb : LoadCallbacks)
    {ctx : List ModelTensor} (hready : ∀ t ∈ ctx, base.Ready bufs t)
    (hin : ∀ t ∈ loaded, base.Inside t)
    (htotal : base.sizeData = UInt64.ofNat (ctxBytes loaded + ctxBytes ctx + rest))
    (hlt : ctxBytes loaded + ctxBytes ctx + rest < 2 ^ 64) (hpos : 0 < ctxBytes ctx) :
    Ends IsRuntimeError (fun r => base.LoadsAll loaded ctx rest r.1 r.2.2 r.2.1)
      ((base.after loaded).loadAllData cb bufs ctx) := by
  unfold loadAllData
  have hdata : (base.after loaded).sizeData.toNat = ctxBytes loaded + ctxBytes ctx + rest := by
    change base.sizeData.toNat = _
    rw [htotal, UInt64.toNat_ofNat_of_lt' hlt]
  have hne : (base.after loaded).sizeData ≠ 0 := fun hzero => by
    rw [hzero] at hdata
    change 0 = _ at hdata
    omega
  refine Ends.ite (fun hzero => absurd hzero hne) fun _ => ?_
  refine (loadTensors_spec h cb loaded hready).bind fun r hr => ?_
  obtain ⟨go, ml, ctx'⟩ := r
  rcases go with _ | _
  · exact ⟨hr.inside, fun h => (by cases h), .inl ⟨hr.some, fun h => (by cases h)⟩⟩
  · obtain ⟨hml, hbytes, hnull⟩ := hr.all rfl
    dsimp only at hml hbytes
    subst hml
    refine Ends.ite (fun h => by cases h) fun _ => ?_
    refine Ends.ite (fun _ => ⟨_, rfl⟩) fun _ => ?_
    have hdone : (base.after (loaded ++ ctx')).sizeDone.toNat = ctxBytes loaded + ctxBytes ctx := by
      have hsum : ctxBytes (loaded ++ ctx') = ctxBytes loaded + ctxBytes ctx := by
        rw [← hbytes]
        simp [ctxBytes]
      change (UInt64.ofNat _).toNat = _
      rw [hsum, UInt64.toNat_ofNat_of_lt' (lt_of_le_of_lt (Nat.le_add_right _ _) hlt)]
    refine Ends.ite (fun hge => ?_) fun hlt => ?_
    · have hrest : rest = 0 := by
        rw [ge_iff_le, UInt64.le_iff_toNat_le, hdone] at hge
        change (base.after loaded).sizeData.toNat ≤ _ at hge
        omega
      have hinside : ∀ t ∈ loaded ++ ctx', base.Inside t := fun t ht =>
        (List.mem_append.1 ht).elim (hin t) (hr.inside t)
      rw [show (base.after (loaded ++ ctx')).useMmap = true from h.useMmap, if_pos rfl]
      refine (cleanUp_spec h hsizes hinside).bind fun ml hclean => ?_
      exact ⟨hr.inside, fun _ => ⟨hbytes, hnull⟩, .inr ⟨hrest, hclean⟩⟩
    · rw [ge_iff_le, UInt64.not_le, UInt64.lt_iff_toNat_lt, hdone] at hlt
      change _ < (base.after loaded).sizeData.toNat at hlt
      exact ⟨hr.inside, fun _ => ⟨hbytes, hnull⟩, .inl ⟨⟨ctx', rfl⟩, fun _ => ⟨by omega, rfl⟩⟩⟩

end ModelLoader

/-! ## The buffers -/

namespace ModelLoader

variable {base : ModelLoader} {t : ModelTensor} {w : TensorWeight}

/-- A tensor of a weight that is not loaded yet, and not empty. -/
def Weighted (base : ModelLoader) (t : ModelTensor) : Prop :=
  (∃ w, base.getWeight t.name = some w ∧ t.nbytes = w.nbytes ∧ 0 < w.nbytes.toNat) ∧
    (t.data = .null ∨ t.data = .buffer)

theorem Weighted.buffered (ht : base.Weighted t) (bufs : ℕ → Option ModelBuffer) :
    base.Weighted { t with data := .buffer } ∧ base.Ready bufs { t with data := .buffer } := by
  obtain ⟨⟨w, hw, hbytes, hpos⟩, -⟩ := ht
  exact ⟨⟨⟨w, hw, hbytes, hpos⟩, .inr rfl⟩, w, hw, hbytes, hpos, .inl rfl⟩

/-- The range covers the weights of the context that are in the file. -/
theorem getMappingRange_bounds {ctx : List ModelTensor} (h : base.Mapped) (ht : t ∈ ctx)
    (hw : base.getWeight t.name = some w) (hbytes : t.nbytes = w.nbytes) :
    (base.getMappingRange w.idx ctx).1 ≤ w.offs.toNat ∧
      w.offs.toNat + w.nbytes.toNat ≤ (base.getMappingRange w.idx ctx).2 := by
  let range (t : ModelTensor) : Option (ℕ × ℕ) := (base.getWeight t.name).bind fun weight =>
    if weight.idx ≠ w.idx then none else some (weight.offs.toNat, (weight.offs + t.nbytes).toNat)
  have hrange : base.getMappingRange w.idx ctx =
      hull (base.mappings w.idx).size (ctx.filterMap range) := by
    unfold getMappingRange hull
    rw [List.foldl_filterMap]
    congr 1
    funext used t
    rcases hget : base.getWeight t.name with _ | weight
    · simp [range, hget]
    · by_cases hidx : weight.idx = w.idx <;> simp [range, hget, hidx]
  have hmem : (w.offs.toNat, w.offs.toNat + w.nbytes.toNat) ∈ ctx.filterMap range :=
    List.mem_filterMap.2 ⟨t, ht, by
      simp only [range, hw, hbytes, (h.within hw).2.2, Option.bind_some, ne_eq, not_true_eq_false,
        if_false]⟩
  rw [hrange]
  exact hull_bounds _ hmem

end ModelLoader

namespace LoadState

open ModelLoader

variable {Buft : Type} [DecidableEq Buft] {base : ModelLoader} {s : LoadState Buft}

/-- The contexts that some memory was found for. -/
structure Buffered (base : ModelLoader) (s : LoadState Buft) (done : List Buft)
    (ctxBufs : List (Buft × (ℕ → Option ModelBuffer))) (s' : LoadState Buft) : Prop where
  ml : s'.ml = base
  bufts : ctxBufs.map (·.1) = done
  ready : ∀ p ∈ ctxBufs, ∀ t ∈ s'.ctx p.1, base.Ready p.2 t
  weighted : ∀ buft, ∀ t ∈ s'.ctx buft, base.Weighted t
  bytes : ∀ buft, (s'.ctx buft).map (·.nbytes) = (s.ctx buft).map (·.nbytes)

theorem createBuffers_spec {dev : Devices Buft} {buft : Buft} {done : List Buft}
    {ctxBufs : List (Buft × (ℕ → Option ModelBuffer))} {s' : LoadState Buft} (h : base.Mapped)
    (hs : Buffered base s done ctxBufs s') :
    Ends IsRuntimeError (fun r => Buffered base s (done ++ [buft]) (ctxBufs ++ [(buft, r.1)]) r.2)
      (s'.createBuffers dev buft) := by
  unfold createBuffers
  refine Ends.ite (fun _ => ⟨_, rfl⟩) fun _ => Ends.ite (fun _ => ?_) fun _ => ?_
  · refine ⟨hs.ml, by simp [hs.bufts], fun p hp t ht => ?_, hs.weighted, hs.bytes⟩
    rcases List.mem_append.1 hp with hp | hp
    · exact hs.ready p hp t ht
    · obtain rfl := List.mem_singleton.1 hp
      obtain ⟨⟨w, hw, hbytes, hpos⟩, hdata⟩ := hs.weighted buft t ht
      refine ⟨w, hw, hbytes, hpos, hdata.symm.imp_right fun hnull => ⟨hnull, ?_⟩⟩
      dsimp only at ht
      obtain ⟨hfirst, hlast⟩ := getMappingRange_bounds h ht hw hbytes
      refine ⟨_, _, ?_, hfirst, hlast⟩
      dsimp only
      rw [hs.ml, if_pos ⟨(h.within hw).1, by omega⟩]
  · have hctx : ∀ b, Function.update s'.ctx buft
        ((s'.ctx buft).map fun t => { t with data := .buffer }) b = s'.ctx b ∨
        b = buft ∧ Function.update s'.ctx buft ((s'.ctx buft).map fun t =>
          { t with data := .buffer }) b = (s'.ctx b).map fun t => { t with data := .buffer } :=
      fun b => by
        by_cases hb : b = buft
        · subst hb
          exact .inr ⟨rfl, Function.update_self ..⟩
        · exact .inl (Function.update_of_ne hb _ _)
    refine ⟨hs.ml, by simp [hs.bufts], fun p hp t ht => ?_, fun b t ht => ?_, fun b => ?_⟩
    · have hp : p ∈ ctxBufs ∨
          p = (buft, fun idx => if idx < s'.ml.files.length then some .own else none) :=
        (List.mem_append.1 hp).imp_right List.mem_singleton.1
      rcases hctx p.1 with heq | ⟨-, heq⟩ <;> dsimp only at ht <;> rw [heq] at ht
      · rcases hp with hp | rfl
        · exact hs.ready p hp t ht
        · rw [Function.update_self] at heq
          rw [← heq] at ht
          obtain ⟨t', ht', rfl⟩ := List.mem_map.1 ht
          exact ((hs.weighted buft t' ht').buffered _).2
      · obtain ⟨t', ht', rfl⟩ := List.mem_map.1 ht
        exact ((hs.weighted p.1 t' ht').buffered _).2
    · rcases hctx b with heq | ⟨-, heq⟩ <;> dsimp only at ht <;> rw [heq] at ht
      · exact hs.weighted b t ht
      · obtain ⟨t', ht', rfl⟩ := List.mem_map.1 ht
        exact ((hs.weighted b t' ht').buffered fun _ => none).1
    · rw [← hs.bytes b]
      rcases hctx b with heq | ⟨-, heq⟩ <;> dsimp only <;> rw [heq]
      simp

theorem createAllBuffers_spec {dev : Devices Buft} {ctxMap : List Buft} (h : base.Mapped)
    (hml : s.ml = base) (hweighted : ∀ buft, ∀ t ∈ s.ctx buft, base.Weighted t) :
    Ends IsRuntimeError
      (fun r => Buffered base s (ctxMap.filter fun buft => s.ctx buft ≠ []) r.1 r.2)
      (s.createAllBuffers dev ctxMap) := by
  unfold createAllBuffers
  refine Ends.foldlM_induction (P := fun done
    (r : List (Buft × (ℕ → Option ModelBuffer)) × LoadState Buft) => Buffered base s done r.1 r.2)
    ⟨hml, rfl, by simp, hweighted, fun _ => rfl⟩ fun done buft _ r hr => ?_
  obtain ⟨ctxBufs, s'⟩ := r
  refine (createBuffers_spec h hr).bind fun r hr => ?_
  exact Ends.ite (fun _ => ⟨_, rfl⟩) fun _ => hr

end LoadState

/-! ## All contexts -/

namespace LoadState

open ModelLoader

variable {Buft : Type} {base : ModelLoader} {s : LoadState Buft}

/-- What loading the contexts ends with: the mappings are as they were, or the unused ranges of all
tensors were unmapped. -/
structure Outcome (base : ModelLoader) (go : Bool) (s : LoadState Buft) : Prop where
  inside : ∀ buft, ∀ t ∈ s.ctx buft, base.Inside t
  all : go = true → ∀ buft, ∀ t ∈ s.ctx buft, t.data ≠ .null
  state : (s.ml.mappings = base.mappings ∧ s.ml.munmaps = base.munmaps ∧
      (go = true → ∀ buft, s.ctx buft = [])) ∨
    ∃ loaded, base.Cleaned loaded s.ml ∧ ∀ t, t ∈ loaded ↔ ∃ buft, t ∈ s.ctx buft

/-- What is known when some contexts are loaded and the others are not. -/
structure Loading (base : ModelLoader) (before : List Buft)
    (remaining : List (Buft × (ℕ → Option ModelBuffer))) (s : LoadState Buft) : Prop where
  ml : s.ml = base.after (before.flatMap s.ctx)
  loaded : ∀ buft ∈ before, ∀ t ∈ s.ctx buft, base.Inside t ∧ t.data ≠ .null
  ready : ∀ p ∈ remaining, (∀ t ∈ s.ctx p.1, base.Ready p.2 t) ∧ 0 < ctxBytes (s.ctx p.1)
  nodup : (before ++ remaining.map (·.1)).Nodup
  others : ∀ buft, buft ∉ before → buft ∉ remaining.map (·.1) → s.ctx buft = []
  sizeData : base.sizeData = UInt64.ofNat
    (ctxBytes (before.flatMap s.ctx) + totalBytes s.ctx (remaining.map (·.1)))
  lt : ctxBytes (before.flatMap s.ctx) + totalBytes s.ctx (remaining.map (·.1)) < 2 ^ 64

theorem totalBytes_pos {ctx : Buft → List ModelTensor}
    {remaining : List (Buft × (ℕ → Option ModelBuffer))}
    (h : ∀ p ∈ remaining, 0 < ctxBytes (ctx p.1))
    (hzero : totalBytes ctx (remaining.map (·.1)) = 0) :
    remaining = [] := by
  rcases remaining with _ | ⟨p, remaining⟩
  · rfl
  · have := h p List.mem_cons_self
    simp only [totalBytes, List.map_cons, List.sum_cons] at hzero
    omega

theorem loadContexts_spec [DecidableEq Buft] {k : ℕ} (h : base.Mapped) (hsizes : base.Sizes k)
    (cb : LoadCallbacks) :
    ∀ {remaining : List (Buft × (ℕ → Option ModelBuffer))} (before : List Buft)
      {s : LoadState Buft},
      Loading base before remaining s → (remaining = [] → before = []) →
      Ends IsRuntimeError (fun r => Outcome base r.1 r.2) (loadContexts cb s remaining)
  | [], before, s, hs, hnil => by
    obtain rfl := hnil rfl
    have hempty : ∀ buft, s.ctx buft = [] := fun buft => hs.others buft (by simp) (by simp)
    have hml := hs.ml
    exact ⟨by simp [hempty], by simp [hempty],
      .inl ⟨by rw [hml]; rfl, by rw [hml]; rfl, fun _ => hempty⟩⟩
  | (buft, bufs) :: rest, before, s, hs, _ => by
    obtain ⟨hready, hpos⟩ := hs.ready _ List.mem_cons_self
    have hin : ∀ t ∈ before.flatMap s.ctx, base.Inside t := fun t ht => by
      obtain ⟨b, hb, ht⟩ := List.mem_flatMap.1 ht
      exact (hs.loaded b hb t ht).1
    have hsum : ctxBytes (before.flatMap s.ctx) +
          totalBytes s.ctx (((buft, bufs) :: rest).map (·.1)) =
        ctxBytes (before.flatMap s.ctx) + ctxBytes (s.ctx buft) +
          totalBytes s.ctx (rest.map (·.1)) := by
      simp [totalBytes, Nat.add_assoc]
    unfold loadContexts
    rw [hs.ml]
    refine (loadAllData_spec h hsizes cb hready hin (by rw [← hsum]; exact hs.sizeData)
      (by rw [← hsum]; exact hs.lt) hpos).bind fun r hr => ?_
    obtain ⟨go, ml, ctx'⟩ := r
    obtain ⟨hbefore, hnodup, hdisjoint⟩ := List.nodup_append.1 hs.nodup
    obtain ⟨hnotin, hrest⟩ := List.nodup_cons.1 hnodup
    have hnew : ∀ b ∈ before, b ≠ buft := fun b hb => hdisjoint b hb buft List.mem_cons_self
    have hother : ∀ b, b ≠ buft → Function.update s.ctx buft ctx' b = s.ctx b := fun b hb =>
      Function.update_of_ne hb _ _
    have hself : Function.update s.ctx buft ctx' buft = ctx' := Function.update_self ..
    have hflat : before.flatMap (Function.update s.ctx buft ctx') = before.flatMap s.ctx :=
      List.flatMap_congr fun b hb => hother b (hnew b hb)
    have hinside : ∀ b, ∀ t ∈ Function.update s.ctx buft ctx' b, base.Inside t := fun b t ht => by
      by_cases hb : b = buft
      · subst hb
        rw [hself] at ht
        exact hr.inside t ht
      · rw [hother b hb] at ht
        by_cases hb1 : b ∈ before
        · exact (hs.loaded b hb1 t ht).1
        · by_cases hb2 : b ∈ rest.map (·.1)
          · obtain ⟨p, hp, rfl⟩ := List.mem_map.1 hb2
            exact ((hs.ready p (List.mem_cons_of_mem _ hp)).1 t ht).inside
          · rw [hs.others b hb1 (by simpa [hb] using hb2)] at ht
            cases ht
    have hpositive : ∀ p ∈ rest, 0 < ctxBytes (s.ctx p.1) := fun p hp =>
      (hs.ready p (List.mem_cons_of_mem _ hp)).2
    -- with nothing left, the contexts in front and this one have all tensors
    have hall : rest = [] → ∀ t, t ∈ before.flatMap s.ctx ++ ctx' ↔
        ∃ b, t ∈ Function.update s.ctx buft ctx' b := fun hnil t => by
      subst hnil
      rw [← hflat, List.mem_append, List.mem_flatMap]
      refine ⟨?_, ?_⟩
      · rintro (⟨b, -, ht⟩ | ht)
        · exact ⟨b, ht⟩
        · exact ⟨buft, by rwa [hself]⟩
      · rintro ⟨b, ht⟩
        by_cases hb : b = buft
        · subst hb
          rw [hself] at ht
          exact .inr ht
        · rw [hother b hb] at ht
          refine .inl ⟨b, by_contra fun hb1 => ?_, by rwa [hother b hb]⟩
          rw [hs.others b hb1 (by simpa using hb)] at ht
          cases ht
    have hnonnull : go = true → ∀ b ∈ before ++ [buft],
        ∀ t ∈ Function.update s.ctx buft ctx' b, t.data ≠ .null := fun hgo b hb t ht => by
      rcases List.mem_append.1 hb with hb | hb
      · rw [hother b (hnew b hb)] at ht
        exact (hs.loaded b hb t ht).2
      · obtain rfl := List.mem_singleton.1 hb
        rw [hself] at ht
        exact (hr.all hgo).2 t ht
    rcases go with _ | _
    · refine ⟨hinside, fun hgo => (by cases hgo), ?_⟩
      rcases hr.state with ⟨⟨l, hl⟩, -⟩ | ⟨hzero, hclean⟩
      · dsimp only at hl
        exact .inl ⟨by rw [hl]; rfl, by rw [hl]; rfl, fun hgo => (by cases hgo)⟩
      · exact .inr ⟨_, hclean, hall (totalBytes_pos hpositive hzero)⟩
    · rcases hr.state with ⟨-, hml⟩ | ⟨hzero, hclean⟩
      · obtain ⟨hmore, hml⟩ := hml rfl
        have hrestne : ∀ p ∈ rest, p.1 ≠ buft := fun p hp heq =>
          hnotin (List.mem_map.2 ⟨p, hp, heq⟩)
        have htotal : totalBytes (Function.update s.ctx buft ctx') (rest.map (·.1)) =
            totalBytes s.ctx (rest.map (·.1)) := by
          refine congrArg List.sum (List.map_congr_left fun b hb => ?_)
          obtain ⟨p, hp, rfl⟩ := List.mem_map.1 hb
          rw [hother p.1 (hrestne p hp)]
        have hflat' : (before ++ [buft]).flatMap (Function.update s.ctx buft ctx') =
            before.flatMap s.ctx ++ ctx' := by
          rw [List.flatMap_append, hflat, List.flatMap_singleton, hself]
        have hbytes : ctxBytes (before.flatMap s.ctx ++ ctx') + totalBytes s.ctx (rest.map (·.1)) =
            ctxBytes (before.flatMap s.ctx) +
              totalBytes s.ctx (((buft, bufs) :: rest).map (·.1)) := by
          rw [hsum, ← (hr.all rfl).1]
          simp [ctxBytes]
        refine loadContexts_spec h hsizes cb (before ++ [buft]) ⟨?_, ?_, ?_, ?_, ?_, ?_, ?_⟩
          fun hnil => ?_
        · rw [hflat']
          exact hml
        · refine fun b hb t ht => ⟨hinside b t ht, hnonnull rfl b hb t ht⟩
        · intro p hp
          dsimp only
          rw [hother p.1 (hrestne p hp)]
          exact hs.ready p (List.mem_cons_of_mem _ hp)
        · simpa using hs.nodup
        · intro b hb1 hb2
          rw [List.mem_append, not_or] at hb1
          have hb : b ≠ buft := by simpa using hb1.2
          dsimp only
          rw [hother b hb]
          exact hs.others b hb1.1 (by simpa [hb] using hb2)
        · rw [hflat', htotal, hbytes]
          exact hs.sizeData
        · rw [hflat', htotal, hbytes]
          exact hs.lt
        · subst hnil
          simp [totalBytes] at hmore
      · obtain rfl := totalBytes_pos hpositive hzero
        refine ⟨hinside, fun _ b t ht => ?_, .inr ⟨_, hclean, hall rfl⟩⟩
        refine hnonnull rfl b (by_contra fun hb => ?_) t ht
        rw [List.mem_append, not_or] at hb
        dsimp only at ht
        rw [hother b (by simpa using hb.2), hs.others b hb.1 (by simpa using hb.2)] at ht
        cases ht

/-- The mapping of a file whose unused ranges were unmapped. -/
theorem cleaned_file {k idx : ℕ} {loaded : List ModelTensor} {ml : ModelLoader}
    (hsizes : base.Sizes k) (hin : ∀ t ∈ loaded, base.Inside t) (hclean : base.Cleaned loaded ml)
    (hidx : idx < base.files.length) :
    (∀ x, x ∈ covered (ml.mappings idx).mappedFragments ↔ x < base.fileSize idx ∧
      ∀ u ∈ base.unused loaded idx, ¬ WholePage (2 ^ k) u (x / 2 ^ k)) ∧
    (∀ page, GivesBack (2 ^ k) (ml.munmaps idx) page ↔
      ∃ u ∈ base.unused loaded idx, WholePage (2 ^ k) u page) ∧
    LlamaMmap.Apart (2 ^ k) (ml.munmaps idx ++ (ml.mappings idx).destroy) ∧
    ∀ page, GivesBack (2 ^ k) (ml.munmaps idx ++ (ml.mappings idx).destroy) page ↔
      page * 2 ^ k < base.fileSize idx := by
  have hranges := fun r => unused_bounds (r := r) hsizes hidx hin
  obtain ⟨calls, mapping, hrun, hapart, -, hpages, hm, hcovered⟩ :=
    LlamaMmap.unmapFragments_spec hsizes.lt (fun r hr => (hranges r hr).imp_right And.left)
      (LlamaMmap.paged_ofFile (2 ^ k) (hsizes.pos idx hidx))
  have hunmapped := hclean.unmapped idx hidx
  rw [hsizes.pageSize, hrun, Except.ok.injEq, Prod.mk.injEq] at hunmapped
  obtain ⟨hcalls, hmapping⟩ := hunmapped
  rw [← hcalls, ← hmapping]
  have hbytes : ∀ x, x ∈ covered mapping.mappedFragments ↔ x < base.fileSize idx ∧
      ∀ u ∈ base.unused loaded idx, ¬ WholePage (2 ^ k) u (x / 2 ^ k) := fun x => by
    rw [hcovered]
    simp [LlamaMmap.ofFile]
  exact ⟨hbytes, hpages, LlamaMmap.accounts_of_apart (hapart (unused_disjoint hin))
    (fun r hr => (hranges r hr).2.2) hpages hm hbytes⟩

theorem initMappings_spec {k n : ℕ} {d : UInt64} {ml : ModelLoader} (hml : ml.Fresh)
    (hmmap : ml.useMmap = true) (hpage : ml.pageSize = 2 ^ k) (hk : k < 31)
    (hfiles : ∀ file ∈ ml.files, file.size.toNat + 2 ^ k ≤ 2 ^ 64) :
    Ends IsRuntimeError (fun base => base.Mapped ∧ base.Sizes k ∧
      base.sizeData = d + (ml.weightsMap.map (·.nbytes)).sum ∧ base.files = ml.files ∧
      base.weightsMap = ml.weightsMap)
      (initMappings { ml with nCreated := n, sizeData := d }) := by
  obtain ⟨hsound, heq⟩ := hml
  unfold initMappings
  refine Ends.ite (fun _ => ⟨_, rfl⟩) fun hzero => ?_
  have hsize : ∀ idx < ml.files.length, ∃ file ∈ ml.files, ml.fileSize idx = file.size.toNat :=
    fun idx hidx => ⟨ml.files[idx], List.getElem_mem hidx, by simp [fileSize, hidx]⟩
  rw [if_pos hmmap]
  refine ⟨⟨hsound, hmmap, rfl, rfl, ?_, ?_⟩,
    ⟨hpage, hk, fun idx hidx => ?_, fun idx hidx => ?_⟩, rfl, rfl, rfl⟩
  · rw [heq]
    rfl
  · rw [heq]
    rfl
  · obtain ⟨file, hfile, hsize⟩ := hsize idx hidx
    change 0 < ml.fileSize idx
    rw [hsize]
    refine Nat.pos_of_ne_zero fun h => hzero ⟨hmmap, file, hfile, ?_⟩
    exact UInt64.toNat_inj.1 h
  · obtain ⟨file, hfile, hsize⟩ := hsize idx hidx
    change ml.fileSize idx + _ ≤ _
    rw [hsize]
    exact hfiles file hfile

/-- What is left of the mappings when loading ends. -/
structure KeepsMapped (files : ℕ) (fileSize : ℕ → ℕ) (k : ℕ) (go : Bool) (s : LoadState Buft) :
    Prop where
  /-- The bytes of the tensors that were left in a file are mapped. -/
  data : ∀ idx buft, ∀ t ∈ s.ctx buft, ∀ r ∈ t.placed idx, ∀ x, r.1 ≤ x → x < r.2 →
    x ∈ covered (s.ml.mappings idx).mappedFragments
  /-- Loading and the destructor give back each page of a file, and none of them twice. -/
  pages : ∀ idx < files,
    LlamaMmap.Apart (2 ^ k) (s.ml.munmaps idx ++ (s.ml.mappings idx).destroy) ∧
      ∀ page, GivesBack (2 ^ k) (s.ml.munmaps idx ++ (s.ml.mappings idx).destroy) page ↔
        page * 2 ^ k < fileSize idx
  /-- When all is loaded, each tensor has its data, and the whole pages in front of the tensors that
  were left in a file, and behind them, are given back. -/
  loaded : go = true → (∀ buft, ∀ t ∈ s.ctx buft, t.data ≠ .null) ∧
    ((∃ buft, s.ctx buft ≠ []) → ∀ idx < files, ∀ page, (page + 1) * 2 ^ k ≤ fileSize idx →
      ((∀ buft, ∀ t ∈ s.ctx buft, ∀ r ∈ t.placed idx, (page + 1) * 2 ^ k ≤ r.1) ∨
        ∀ buft, ∀ t ∈ s.ctx buft, ∀ r ∈ t.placed idx, r.2 ≤ page * 2 ^ k) →
      GivesBack (2 ^ k) (s.ml.munmaps idx) page)

theorem Outcome.keepsMapped {k : ℕ} {go : Bool} (h : base.Mapped) (hsizes : base.Sizes k)
    (hs : Outcome base go s) : KeepsMapped base.files.length base.fileSize k go s := by
  rcases hs.state with ⟨hmappings, hmunmaps, hempty⟩ | ⟨loaded, hclean, hmem⟩
  · refine ⟨fun idx buft t ht r hr x hle hlt => ?_, fun idx hidx => ?_, fun hgo => ?_⟩
    · obtain ⟨-, -, hend⟩ := hs.inside buft t ht idx r hr
      rw [hmappings, h.mappings]
      exact ⟨(0, base.fileSize idx), by simp [LlamaMmap.ofFile], Nat.zero_le x,
        by dsimp only; omega⟩
    · rw [hmappings, hmunmaps, h.mappings, h.munmaps]
      have hm := LlamaMmap.paged_ofFile (2 ^ k) (hsizes.pos idx hidx)
      exact LlamaMmap.accounts_of_apart .nil
        (show ∀ r ∈ ([] : List (ℕ × ℕ)), _ by simp) (by simp [GivesBack]) hm
        (by simp [LlamaMmap.ofFile])
    · refine ⟨by simp [hempty hgo], ?_⟩
      rintro ⟨buft, hne⟩
      exact absurd (hempty hgo buft) hne
  · have hin : ∀ t ∈ loaded, base.Inside t := fun t ht => by
      obtain ⟨buft, ht⟩ := (hmem t).1 ht
      exact hs.inside buft t ht
    refine ⟨fun idx buft t ht r hr x hle hlt => ?_, fun idx hidx => ?_, fun hgo => ?_⟩
    · obtain ⟨hidx, -, hend⟩ := hs.inside buft t ht idx r hr
      have hr : r ∈ loaded.filterMap (·.placed idx) :=
        List.mem_filterMap.2 ⟨t, (hmem t).2 ⟨buft, ht⟩, hr⟩
      rw [(cleaned_file hsizes hin hclean hidx).1]
      exact ⟨by omega, placed_notMem_unused hr ⟨hle, hlt⟩⟩
    · exact (cleaned_file hsizes hin hclean hidx).2.2
    · refine ⟨hs.all hgo, fun _ idx hidx page hpage hout => ?_⟩
      rw [(cleaned_file hsizes hin hclean hidx).2.1]
      have hplaced : ∀ r ∈ loaded.filterMap (·.placed idx), ∃ buft, ∃ t ∈ s.ctx buft,
          r ∈ t.placed idx := fun r hr => by
        obtain ⟨t, ht, hr⟩ := List.mem_filterMap.1 hr
        obtain ⟨buft, ht⟩ := (hmem t).1 ht
        exact ⟨buft, t, ht, hr⟩
      by_cases hnil : loaded.filterMap (·.placed idx) = []
      · refine ⟨(0, base.fileSize idx), ?_, Nat.zero_le _, hpage⟩
        simp [unused, hnil, hull]
      · rcases hout with hout | hout
        · obtain ⟨r, hr, heq⟩ := exists_hull_start (base.fileSize idx) hnil fun r hr =>
            (placed_bounds hin hr).1.le.trans (placed_bounds hin hr).2
          obtain ⟨buft, t, ht, hrt⟩ := hplaced r hr
          refine ⟨_, List.mem_cons_self, Nat.zero_le _, ?_⟩
          rw [heq]
          exact hout buft t ht r hrt
        · obtain ⟨r, hr, heq⟩ := exists_hull_end (base.fileSize idx) hnil
          obtain ⟨buft, t, ht, hrt⟩ := hplaced r hr
          have hpos := (placed_bounds hin hr).1
          refine ⟨(r.2, base.fileSize idx), ?_, hout buft t ht r hrt, hpage⟩
          simp [unused, heq, Nat.ne_of_gt (Nat.zero_lt_of_lt hpos)]

theorem totalBytes_filter {ctx : Buft → List ModelTensor} {ctxMap : List Buft} :
    totalBytes ctx (ctxMap.filter fun buft => ctx buft ≠ []) = totalBytes ctx ctxMap := by
  induction ctxMap with
  | nil => rfl
  | cons buft ctxMap ih =>
    by_cases h : ctx buft = [] <;> simp [totalBytes, h, ctxBytes] at ih ⊢ <;> exact ih

/-- A file of two tensors. -/
def pairFile : ModelFile :=
  ⟨"pair.gguf", 29, 2, [⟨"a", [3], 3, 8⟩, ⟨"b", [2], 2, 16⟩], none, none, none⟩

def pairLoader : ModelLoader :=
  ofWeights [pairFile] [⟨"a", 0, 10, [3], 3⟩, ⟨"b", 0, 18, [2], 2⟩] true false (2 ^ 2)

/-- The first tensor goes to a buffer type that uses the mapping, the second to another. -/
def pairRequests : List (TensorRequest Bool) :=
  [⟨"a", [3], false, false, false, some true⟩, ⟨"b", [2], false, false, false, some false⟩]

end LoadState

end LamaServer
