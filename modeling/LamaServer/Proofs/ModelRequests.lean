import LamaServer.Lib.Except
import LamaServer.ModelLoader
import Mathlib.Algebra.BigOperators.Group.List.Basic
import Mathlib.Tactic.Abel

/-!
# The weights of a model and the requests for them

The weights of the files have names of their own and lie in their files. When each weight is made
once, the bytes of the tensors in the contexts are those that the loader counts on
(`Requested.total`).
-/

namespace LamaServer

open Except (Ends)

/-- Nothing but an exception of the loader. -/
def LoaderStop.IsRuntimeError (e : LoaderStop) : Prop := ∃ what, e = .runtimeError what

open LoaderStop (IsRuntimeError)

theorem ends_throw {α : Type} {Q : α → Prop} {what : String} :
    Ends IsRuntimeError Q (throw (.runtimeError what) : Except LoaderStop α) := ⟨what, rfl⟩

/-! ## The weights -/

/-- Each weight has a name of its own, and lies in its file. -/
structure WeightsSound (files : List ModelFile) (weights : List TensorWeight) : Prop where
  nodup : (weights.map (·.name)).Nodup
  within : ∀ w ∈ weights, ∃ file ∈ files[w.idx]?,
    w.offs.toNat + w.nbytes.toNat ≤ file.size.toNat

theorem WeightsSound.mono {files more : List ModelFile} {weights : List TensorWeight}
    (h : WeightsSound files weights) : WeightsSound (files ++ more) weights := by
  refine ⟨h.nodup, fun w hw => ?_⟩
  obtain ⟨file, hfile, hle⟩ := h.within w hw
  refine ⟨file, ?_, hle⟩
  rw [Option.mem_def] at hfile ⊢
  rw [List.getElem?_append_left (List.getElem?_eq_some_iff.1 hfile).1, hfile]

theorem ofTensor_spec (file : ModelFile) (idx : ℕ) (t : FileTensor) :
    Ends IsRuntimeError (fun w => w.name = t.name ∧ w.idx = idx ∧
      w.offs.toNat + w.nbytes.toNat ≤ file.size.toNat) (TensorWeight.ofTensor file idx t) := by
  unfold TensorWeight.ofTensor
  refine Ends.ite (fun _ => ⟨_, rfl⟩) fun h => ?_
  generalize file.dataOffset + t.offset = offs at h
  rw [not_or, UInt64.not_lt, gt_iff_lt, UInt64.not_lt, UInt64.le_iff_toNat_le,
    UInt64.le_iff_toNat_le, UInt64.toNat_add] at h
  have := offs.toNat_lt
  have := t.nbytes.toNat_lt
  exact ⟨rfl, rfl, by dsimp only; omega⟩

namespace ModelLoader

theorem saveTensors_spec {files : List ModelFile} {weights : List TensorWeight} {idx : ℕ}
    {file : ModelFile} (hfile : files[idx]? = some file) (h : WeightsSound files weights) :
    Ends IsRuntimeError (WeightsSound files) (saveTensors weights idx file) := by
  unfold saveTensors
  refine Ends.foldlM_induction (P := fun _ => WeightsSound files) h fun _ t _ weights h => ?_
  refine Ends.ite (fun _ => ⟨_, rfl⟩) fun hnew => ?_
  refine (ofTensor_spec file idx t).bind fun w hw => ?_
  obtain ⟨hname, hidx, hle⟩ := hw
  refine ⟨?_, fun w' hw' => ?_⟩
  · rw [List.map_append, List.nodup_append]
    simpa [h.nodup, hname] using hnew
  · rcases List.mem_append.1 hw' with hw' | hw'
    · exact h.within w' hw'
    · obtain rfl := List.mem_singleton.1 hw'
      exact ⟨file, by rw [hidx, hfile]; rfl, hle⟩

theorem checkSplitNo_spec (idx : ℕ) (file : ModelFile) :
    Ends IsRuntimeError (fun _ => True) (checkSplitNo idx file) := by
  unfold checkSplitNo
  split
  · exact ends_throw
  · exact Ends.ite (fun _ => ends_throw) fun _ => trivial

/-- A loader as the constructor leaves it. -/
structure Fresh (ml : ModelLoader) : Prop where
  sound : WeightsSound ml.files ml.weightsMap
  eq : ml = ofWeights ml.files ml.weightsMap ml.useMmap ml.checkTensors ml.pageSize

theorem ofFiles_spec (main : ModelFile) (splits : List ModelFile) (useMmap checkTensors : Bool)
    (pageSize : ℕ) :
    Ends IsRuntimeError (fun ml => ml.Fresh ∧ ml.useMmap = useMmap ∧ ml.pageSize = pageSize ∧
      ∀ file ∈ ml.files, file = main ∨ file ∈ splits)
      (ofFiles main splits useMmap checkTensors pageSize) := by
  unfold ofFiles
  have hnil : WeightsSound [main] [] := ⟨List.nodup_nil, by simp⟩
  refine (saveTensors_spec (show [main][0]? = some main from rfl) hnil).bind fun weights hw => ?_
  refine Ends.ite (fun _ => ⟨⟨hw, rfl⟩, rfl, rfl, by simp [ofWeights]⟩) fun _ => ?_
  rcases main.splitNo with _ | _ | n
  · exact ⟨_, rfl⟩
  · refine Ends.ite (fun _ => ⟨_, rfl⟩) fun _ => ?_
    refine Ends.bind (Q := WeightsSound (main :: splits.take (main.splitCount.getD 0 - 1))) ?_
      fun weights hw => ?_
    · refine Ends.foldlM_induction (P := fun _ => WeightsSound _) hw.mono
        fun _ c hc weights hw => ?_
      obtain ⟨file, idx⟩ := c
      rw [List.mk_mem_zipIdx_iff_le_and_getElem?_sub] at hc
      refine (checkSplitNo_spec idx file).bind fun _ _ => saveTensors_spec ?_ hw
      rw [← hc.2, ← Nat.sub_add_cancel hc.1]
      rfl
    · have hfiles : ∀ file ∈ main :: splits.take (main.splitCount.getD 0 - 1),
          file = main ∨ file ∈ splits := fun file h =>
        (List.mem_cons.1 h).imp_right fun h => List.mem_of_mem_take h
      rcases main.splitTensorsCount with _ | n
      · exact ⟨_, rfl⟩
      · exact Ends.ite (fun _ => ⟨_, rfl⟩) fun _ => ⟨⟨hw, rfl⟩, rfl, rfl, hfiles⟩
  · exact ⟨_, rfl⟩

end ModelLoader

/-! ## The requests -/

/-- The bytes of the weight of a name. -/
def ModelLoader.weightBytes (ml : ModelLoader) (name : String) : ℕ :=
  ((ml.getWeight name).map (·.nbytes.toNat)).getD 0

/-- The request makes a weight, or counts it as not used. -/
def TensorRequest.Makes {Buft : Type} (ml : ModelLoader) (r : TensorRequest Buft) : Prop :=
  (ml.getWeight r.name).isSome ∧ (r.unused ∨ ¬ r.duplicated)

instance {Buft : Type} (ml : ModelLoader) (r : TensorRequest Buft) : Decidable (r.Makes ml) :=
  inferInstanceAs (Decidable (_ ∧ _))

/-- The bytes of a context. -/
def ctxBytes (ctx : List ModelTensor) : ℕ := (ctx.map (·.nbytes.toNat)).sum

/-- The bytes of some contexts. -/
def totalBytes {Buft : Type} (ctx : Buft → List ModelTensor) (ctxMap : List Buft) : ℕ :=
  (ctxMap.map fun buft => ctxBytes (ctx buft)).sum

theorem ctxBytes_concat (ctx : List ModelTensor) (t : ModelTensor) :
    ctxBytes (ctx ++ [t]) = ctxBytes ctx + t.nbytes.toNat := by
  simp [ctxBytes]

namespace LoadState

variable {Buft : Type} {ctxMap : List Buft} {ml : ModelLoader} {done : List (TensorRequest Buft)}
  {s : LoadState Buft} {r : TensorRequest Buft}

theorem totalBytes_update [DecidableEq Buft] (ctx : Buft → List ModelTensor) {buft : Buft}
    (ts : List ModelTensor) (hnodup : ctxMap.Nodup) (hmem : buft ∈ ctxMap) :
    totalBytes (Function.update ctx buft ts) ctxMap + ctxBytes (ctx buft) =
      totalBytes ctx ctxMap + ctxBytes ts := by
  induction ctxMap with
  | nil => cases hmem
  | cons b bs ih =>
    obtain ⟨hb, hbs⟩ := List.nodup_cons.1 hnodup
    simp only [totalBytes, List.map_cons, List.sum_cons] at ih ⊢
    rcases List.mem_cons.1 hmem with rfl | hmem
    · have hrest : bs.map (fun b => ctxBytes (Function.update ctx buft ts b)) =
          bs.map fun b => ctxBytes (ctx b) :=
        List.map_congr_left fun b h => by
          rw [Function.update_of_ne]
          rintro rfl
          exact hb h
      rw [Function.update_self, hrest]
      omega
    · have hne : b ≠ buft := by
        rintro rfl
        exact hb hmem
      rw [Function.update_of_ne hne]
      have := ih hbs hmem
      omega

/-- The names of the weights that the requests made. -/
def made (ml : ModelLoader) (done : List (TensorRequest Buft)) : List String :=
  (done.filter fun r => r.Makes ml).map (·.name)

/-- Where the requests are after `done`. -/
structure Requested (ml : ModelLoader) (ctxMap : List Buft) (done : List (TensorRequest Buft))
    (s : LoadState Buft) : Prop where
  counters : ∃ n d, s.ml = { ml with nCreated := n, sizeData := d }
  tensors : ∀ buft, ∀ t ∈ s.ctx buft, t.data = .null ∧ buft ∈ ctxMap ∧
    ∃ w, ml.getWeight t.name = some w ∧ t.nbytes = w.nbytes
  nCreated : s.ml.nCreated = (made ml done).length
  sizeData : s.ml.sizeData + UInt64.ofNat ((made ml done).map ml.weightBytes).sum =
    UInt64.ofNat (totalBytes s.ctx ctxMap)
  total_le : totalBytes s.ctx ctxMap ≤ (done.map fun r => ml.weightBytes r.name).sum

theorem made_concat :
    made ml (done ++ [r]) = made ml done ++ if r.Makes ml then [r.name] else [] := by
  unfold made
  rw [List.filter_append, List.map_append]
  split_ifs with h <;> simp [h]

theorem Requested.skip (h : Requested ml ctxMap done s) (hr : ¬ r.Makes ml) :
    Requested ml ctxMap (done ++ [r]) s := by
  have hmade : made ml (done ++ [r]) = made ml done := by simp [made_concat, hr]
  refine ⟨h.counters, h.tensors, by rw [hmade, h.nCreated], by rw [hmade, h.sizeData], ?_⟩
  rw [List.map_append, List.sum_append]
  exact h.total_le.trans (Nat.le_add_right _ _)

theorem checkTensorDims_spec (ml : ModelLoader) (name : String) (ne : List ℤ) (required : Bool) :
    Ends IsRuntimeError (fun w => w = ml.getWeight name) (ml.checkTensorDims name ne required) := by
  unfold ModelLoader.checkTensorDims
  rcases ml.getWeight name with _ | cur
  · exact Ends.ite (fun _ => ends_throw) fun _ => rfl
  · exact Ends.ite (fun _ => rfl) fun _ => ends_throw

theorem create_spec [DecidableEq Buft] (hnodup : ctxMap.Nodup)
    (hbuft : ∀ buft ∈ r.buft, buft ∈ ctxMap) (h : Requested ml ctxMap done s) :
    Ends IsRuntimeError (Requested ml ctxMap (done ++ [r])) (s.create r) := by
  obtain ⟨sml, ctx⟩ := s
  obtain ⟨n, d, hml⟩ := h.counters
  dsimp only at hml
  subst hml
  have hget : ∀ name, ModelLoader.getWeight { ml with nCreated := n, sizeData := d } name =
      ml.getWeight name := fun _ => rfl
  unfold create
  rw [hget]
  rcases hweight : ml.getWeight r.name with _ | weight
  · refine Ends.ite (fun _ => h.skip ?_) fun _ => ends_throw
    simp [TensorRequest.Makes, hweight]
  · have hbytes : ml.weightBytes r.name = weight.nbytes.toNat := by
      simp [ModelLoader.weightBytes, hweight]
    refine Ends.ite (fun hunused => ?_) fun hunused => ?_
    · have hmakes : r.Makes ml := ⟨by simp [hweight], .inl hunused⟩
      refine ⟨⟨_, _, rfl⟩, h.tensors, ?_, ?_, ?_⟩
      · simpa [made_concat, hmakes] using h.nCreated
      · have hdata := h.sizeData
        dsimp only at hdata ⊢
        rw [← hdata, made_concat, if_pos hmakes, List.map_append, List.sum_append, UInt64.ofNat_add]
        simp only [List.map_cons, List.map_nil, List.sum_cons, List.sum_nil, Nat.add_zero, hbytes,
          UInt64.ofNat_toNat]
        abel
      · rw [List.map_append, List.sum_append]
        exact h.total_le.trans (Nat.le_add_right _ _)
    · rcases hb : r.buft with _ | buft
      · exact ends_throw
      · have hmem : buft ∈ ctxMap := hbuft buft hb
        refine Ends.ite (fun hdup => h.skip ?_) fun _ => ?_
        · simp [TensorRequest.Makes, hunused, hdup.1]
        · refine (checkTensorDims_spec _ r.name r.ne _).bind fun w hw => ?_
          rw [hget, hweight] at hw
          subst hw
          have hname : weight.name = r.name := by simpa using List.find?_some hweight
          have htotal := totalBytes_update ctx
            (ctx buft ++ [⟨weight.name, weight.nbytes, .null⟩]) hnodup hmem
          rw [ctxBytes_concat, Nat.add_comm (ctxBytes _), ← Nat.add_assoc, Nat.add_right_cancel_iff]
            at htotal
          have hle := h.total_le
          have htensors : ∀ b, ∀ t ∈ Function.update ctx buft (ctx buft ++
              [⟨weight.name, weight.nbytes, .null⟩]) b, t.data = .null ∧ b ∈ ctxMap ∧
              ∃ w, ml.getWeight t.name = some w ∧ t.nbytes = w.nbytes := fun b t ht => by
            by_cases hb : b = buft
            · subst hb
              rw [Function.update_self] at ht
              rcases List.mem_append.1 ht with ht | ht
              · exact h.tensors b t ht
              · obtain rfl := List.mem_singleton.1 ht
                exact ⟨rfl, hmem, weight, by rw [hname, hweight], rfl⟩
            · rw [Function.update_of_ne hb] at ht
              exact h.tensors b t ht
          have hdata := h.sizeData
          have hsum : (List.map (fun r => ml.weightBytes r.name) (done ++ [r])).sum =
              (done.map fun r => ml.weightBytes r.name).sum + weight.nbytes.toNat := by
            simp [hbytes]
          dsimp only at hdata hle
          refine Ends.ite (fun hdup => ?_) fun hdup => ?_
          · have hmade : made ml (done ++ [r]) = made ml done := by
              simp [made_concat, TensorRequest.Makes, hunused, hdup]
            refine ⟨⟨_, _, rfl⟩, htensors, ?_, ?_, ?_⟩
            · rw [hmade]
              exact h.nCreated
            · rw [hmade, htotal, UInt64.ofNat_add, ← hdata, UInt64.ofNat_toNat]
              exact add_right_comm _ _ _
            · rw [hsum, htotal]
              exact Nat.add_le_add_right hle _
          · have hmade : made ml (done ++ [r]) = made ml done ++ [r.name] := by
              simp [made_concat, TensorRequest.Makes, hweight, hdup]
            refine ⟨⟨_, _, rfl⟩, htensors, ?_, ?_, ?_⟩
            · simpa [hmade] using h.nCreated
            · rw [hmade, htotal, UInt64.ofNat_add, ← hdata, List.map_append, List.sum_append,
                UInt64.ofNat_add]
              simp only [List.map_cons, List.map_nil, List.sum_cons, List.sum_nil, Nat.add_zero,
                hbytes]
              abel
            · rw [hsum, htotal]
              exact Nat.add_le_add_right hle _

theorem requests_spec [DecidableEq Buft] {requests : List (TensorRequest Buft)}
    (hnodup : ctxMap.Nodup) (hbuft : ∀ r ∈ requests, ∀ buft ∈ r.buft, buft ∈ ctxMap)
    (hcounters : ml.nCreated = 0 ∧ ml.sizeData = 0) :
    Ends IsRuntimeError (Requested ml ctxMap requests)
      (requests.foldlM create ⟨ml, fun _ => []⟩) := by
  refine Ends.foldlM_induction (P := Requested ml ctxMap) ?_ fun done r hr s h =>
    create_spec hnodup (hbuft r hr) h
  have hzero : totalBytes (fun _ => []) ctxMap = 0 := by simp [totalBytes, ctxBytes]
  refine ⟨⟨_, _, rfl⟩, by simp, ?_, ?_, ?_⟩
  · simp [made, hcounters.1]
  · rw [hzero, hcounters.2]
    rfl
  · simp [hzero]

end LoadState

/-! ## The total -/

namespace ModelLoader

variable {ml : ModelLoader}

theorem getWeight_spec {name : String} {w : TensorWeight} (h : ml.getWeight name = some w) :
    w ∈ ml.weightsMap ∧ w.name = name :=
  ⟨List.mem_of_find?_eq_some h, by simpa using List.find?_some h⟩

theorem getWeight_of_mem (h : WeightsSound ml.files ml.weightsMap) {w : TensorWeight}
    (hw : w ∈ ml.weightsMap) : ml.getWeight w.name = some w := by
  rcases hget : ml.getWeight w.name with _ | w'
  · simpa using List.find?_eq_none.1 hget w hw
  · obtain ⟨hmem, hname⟩ := getWeight_spec hget
    rw [List.inj_on_of_nodup_map h.nodup hmem hw hname]

theorem sum_nbytes (ws : List TensorWeight) :
    (ws.map (·.nbytes)).sum = UInt64.ofNat (ws.map (·.nbytes.toNat)).sum := by
  induction ws with
  | nil => rfl
  | cons w ws ih => rw [List.map_cons, List.sum_cons, ih, List.map_cons, List.sum_cons,
      UInt64.ofNat_add, UInt64.ofNat_toNat]

end ModelLoader

namespace LoadState

variable {Buft : Type} {ctxMap : List Buft} {ml : ModelLoader}
  {requests : List (TensorRequest Buft)} {s : LoadState Buft}

/-- When each weight is made once, what is in the contexts is what the counter ends with. -/
theorem Requested.total (hml : ml.Fresh) (h : Requested ml ctxMap requests s)
    (honce : (made ml requests).Nodup) (hdone : s.ml.nCreated = ml.weightsMap.length) :
    s.ml.sizeData + (ml.weightsMap.map (·.nbytes)).sum =
      UInt64.ofNat (totalBytes s.ctx ctxMap) := by
  have hsub : made ml requests ⊆ ml.weightsMap.map (·.name) := fun name hname => by
    obtain ⟨r, hr, rfl⟩ := List.mem_map.1 hname
    obtain ⟨w, hw⟩ := Option.isSome_iff_exists.1 (of_decide_eq_true (List.mem_filter.1 hr).2).1
    obtain ⟨hmem, hname⟩ := ModelLoader.getWeight_spec hw
    exact List.mem_map.2 ⟨w, hmem, hname⟩
  have hperm : (made ml requests).Perm (ml.weightsMap.map (·.name)) := by
    refine (List.subperm_of_subset honce hsub).perm_of_length_le ?_
    rw [List.length_map, ← hdone, h.nCreated]
  have hsum : ((made ml requests).map ml.weightBytes).sum =
      (ml.weightsMap.map (·.nbytes.toNat)).sum := by
    rw [(hperm.map _).sum_eq, List.map_map]
    refine congrArg List.sum (List.map_congr_left fun w hw => ?_)
    simp [ModelLoader.weightBytes, ModelLoader.getWeight_of_mem hml.sound hw]
  rw [ModelLoader.sum_nbytes, ← hsum, h.sizeData]

end LoadState

end LamaServer
