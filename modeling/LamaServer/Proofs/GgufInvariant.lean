import LamaServer.GgufWriter
import LamaServer.Lib.Transition
import LamaServer.Proofs.GgufTensors

/-!
# What the calls on a GGUF context keep

`GgufInv` holds of the empty context, and every call keeps it that meets `GgufFits`: the keys are
distinct and the alignment among them is legal, the tensors lie one after another at the alignment
of the context, and that is the alignment under the key once there are tensors.
-/

namespace LamaServer

open Format (toLE ofLE)
open Align (roundUp)

section Keys

variable {kvs : List GgufKv} {key : CString}

/-- What holds of the pairs: the keys are distinct C strings, and the alignment is one `u32` that
is a power of two. -/
structure KvInv (kvs : List GgufKv) : Prop where
  noZero : ∀ kv ∈ kvs, 0 ∉ kv.key
  nodup : (kvs.map (·.key)).Nodup
  alignment : ∀ kv ∈ kvs, kv.key = ggufKeyGeneralAlignment →
    kv.ne = 1 ∧ kv.type = .uint32 ∧ (ofLE kv.data).isPowerOfTwo

/-- The alignment under the key is the one that is written with. -/
def DefaultAligned (kvs : List GgufKv) : Prop :=
  ∀ kv ∈ kvs, kv.key = ggufKeyGeneralAlignment → ofLE kv.data = ggufDefaultAlignment

theorem ggufRemoveKey_eq : ∀ {kvs : List GgufKv}, (∀ kv ∈ kvs, 0 ∉ kv.key) →
    (kvs.map (·.key)).Nodup → ggufRemoveKey kvs key = kvs.filter (·.key ≠ key.1)
  | [], _, _ => rfl
  | kv :: kvs, hzero, hnodup => by
    obtain ⟨hz, hzero⟩ := List.forall_mem_cons.1 hzero
    rw [List.map_cons, List.nodup_cons] at hnodup
    have ih := ggufRemoveKey_eq hzero hnodup.2
    unfold ggufRemoveKey at ih ⊢
    rw [List.findIdx?_cons, cString_of_notMem hz]
    by_cases hkey : kv.key = key.1
    · have hrest : ∀ x ∈ kvs, x.key ≠ key.1 := fun x hx h =>
        hnodup.1 (List.mem_map.2 ⟨x, hx, h.trans hkey.symm⟩)
      rw [List.filter_cons_of_neg (by simpa using hkey),
        List.filter_eq_self.2 fun x hx => by simpa using hrest x hx]
      simp [hkey]
    · rw [List.filter_cons_of_pos (by simpa using hkey), ← ih]
      simp only [hkey, decide_false, Bool.false_eq_true, if_false]
      rcases kvs.findIdx? _ with _ | i <;> rfl

theorem KvInv.filter (h : KvInv kvs) (p : GgufKv → Bool) : KvInv (kvs.filter p) where
  noZero kv hkv := h.noZero kv (List.mem_of_mem_filter hkv)
  nodup := h.nodup.sublist (List.filter_sublist.map _)
  alignment kv hkv := h.alignment kv (List.mem_of_mem_filter hkv)

theorem KvInv.remove (h : KvInv kvs) (key : CString) : KvInv (ggufRemoveKey kvs key) := by
  rw [ggufRemoveKey_eq h.noZero h.nodup]
  exact h.filter _

theorem KvInv.remove_length (h : KvInv kvs) (key : CString) :
    (ggufRemoveKey kvs key).length ≤ kvs.length := by
  rw [ggufRemoveKey_eq h.noZero h.nodup]
  exact List.length_filter_le ..

theorem DefaultAligned.remove (ha : DefaultAligned kvs) (h : KvInv kvs) :
    DefaultAligned (ggufRemoveKey kvs key) := by
  rw [ggufRemoveKey_eq h.noZero h.nodup]
  exact fun kv hkv => ha kv (List.mem_of_mem_filter hkv)

/-- The bytes of the value, and the alignment that they are when the key says so. -/
def GgufVal.data (v : GgufVal) : List UInt8 := (v.elems.map (·.1)).flatten

theorem ggufCheckReservedKeys_spec {v : GgufVal} {u : Unit}
    (h : ggufCheckReservedKeys key v = .ok u) (hkey : key.1 = ggufKeyGeneralAlignment) :
    v.elems.length = 1 ∧ v.type = .uint32 ∧ (ofLE v.data).isPowerOfTwo := by
  unfold ggufCheckReservedKeys at h
  rw [if_pos hkey] at h
  split at h
  · rename_i e _ _
    rw [ggmlAssert_eq_ok] at h
    rw [← Nat.ne_zero_and_sub_one_eq_zero_iff_isPowerOfTwo]
    simp only [GgufVal.data, List.map_cons, List.map_nil, List.flatten_singleton]
    exact ⟨rfl, trivial, by omega, h.2⟩
  · cases h

theorem ggufSet_eq_ok {ctx ctx' : GgufContext} {v : GgufVal}
    (h : ggufSet ctx key v = .ok ctx') :
    ∃ kv, kv.key = key.1 ∧ kv.isArray = v.isArray ∧ kv.type = v.type ∧
      kv.elems = v.elems.map (·.1) ∧ ctx' = { ctx with kv := ggufRemoveKey ctx.kv key ++ [kv] } ∧
      (key.1 = ggufKeyGeneralAlignment →
        kv.ne = 1 ∧ kv.type = .uint32 ∧ (ofLE kv.data).isPowerOfTwo) := by
  simp only [ggufSet, Except.bind_eq_ok, emplaceKv_eq_ok, Except.pure_eq_ok] at h
  obtain ⟨u, hres, kv, ⟨-, h1, h2, h3, h4⟩, rfl⟩ := h
  refine ⟨kv, h1, h2, h3, h4, rfl, fun hkey => ?_⟩
  obtain ⟨hlen, htype, hpow⟩ := ggufCheckReservedKeys_spec hres hkey
  have hdata : kv.data = v.data := by rw [GgufKv.data, h4, GgufVal.data]
  exact ⟨by rw [GgufKv.ne, h4, List.length_map, hlen], h3.trans htype, hdata ▸ hpow⟩

theorem KvInv.set (h : KvInv kvs) {kv : GgufKv} (hkey : kv.key = key.1)
    (hkv : key.1 = ggufKeyGeneralAlignment →
      kv.ne = 1 ∧ kv.type = .uint32 ∧ (ofLE kv.data).isPowerOfTwo) :
    KvInv (ggufRemoveKey kvs key ++ [kv]) := by
  have hnew : key.1 ∉ (ggufRemoveKey kvs key).map (·.key) := by
    rw [ggufRemoveKey_eq h.noZero h.nodup]
    intro hmem
    obtain ⟨x, hx, hxkey⟩ := List.mem_map.1 hmem
    simpa [hxkey] using (List.mem_filter.1 hx).2
  have hrem := h.remove key
  refine ⟨?_, ?_, ?_⟩
  · simpa [or_imp, forall_and, hkey] using ⟨hrem.noZero, key.2⟩
  · rw [List.map_append, List.nodup_append]
    refine ⟨hrem.nodup, by simp, fun x hx y hy hxy => hnew ?_⟩
    obtain rfl : y = kv.key := by simpa using hy
    rwa [← hkey, ← hxy]
  · intro x hx hxkey
    rcases List.mem_append.1 hx with hx | hx
    · exact hrem.alignment x hx hxkey
    · obtain rfl := List.mem_singleton.1 hx
      exact hkv (hkey ▸ hxkey)

theorem DefaultAligned.set (ha : DefaultAligned kvs) (h : KvInv kvs) {kv : GgufKv}
    (hkv : kv.key = ggufKeyGeneralAlignment → ofLE kv.data = ggufDefaultAlignment) :
    DefaultAligned (ggufRemoveKey kvs key ++ [kv]) := by
  intro x hx hxkey
  rcases List.mem_append.1 hx with hx | hx
  · exact ha.remove h x hx hxkey
  · obtain rfl := List.mem_singleton.1 hx
    exact hkv hxkey

/-- A value that keeps the alignment that is written with. -/
def KeepsAlignment (key : CString) (v : GgufVal) : Prop :=
  key.1 = ggufKeyGeneralAlignment → ofLE v.data = ggufDefaultAlignment

/-- What the setters of values keep. -/
structure KeysInv (ctx : GgufContext) : Prop where
  kv : KvInv ctx.kv
  aligned : ctx.info = [] ∨ DefaultAligned ctx.kv

theorem KeysInv.set {ctx ctx' : GgufContext} {v : GgufVal} (h : KeysInv ctx)
    (hkeep : ctx.info = [] ∨ KeepsAlignment key v) (hset : ggufSet ctx key v = .ok ctx') :
    KeysInv ctx' ∧ ctx'.info = ctx.info ∧ ctx'.version = ctx.version ∧
      ctx'.alignment = ctx.alignment ∧ ctx'.kv.length ≤ ctx.kv.length + 1 := by
  obtain ⟨kv, hkey, -, -, helems, rfl, hkv⟩ := ggufSet_eq_ok hset
  refine ⟨⟨h.kv.set hkey hkv, ?_⟩, rfl, rfl, rfl, ?_⟩
  · rcases h.aligned with hinfo | ha
    · exact .inl hinfo
    · refine hkeep.imp_right fun hkeep => ha.set h.kv fun hal => ?_
      have hdata : kv.data = v.data := by rw [GgufKv.data, helems, GgufVal.data]
      exact hdata ▸ hkeep (hkey ▸ hal)
  · have := h.kv.remove_length key
    simpa using this

theorem KeysInv.setKv : ∀ {src : List GgufKv} {ctx ctx' : GgufContext}, KeysInv ctx →
    (ctx.info = [] ∨ ∀ kv ∈ src, KeepsAlignment (toCString kv.key) kv.passVal) →
      ggufSetKv ctx src = .ok ctx' →
    KeysInv ctx' ∧ ctx'.info = ctx.info ∧ ctx'.version = ctx.version ∧
      ctx'.alignment = ctx.alignment ∧ ctx'.kv.length ≤ ctx.kv.length + src.length
  | [], ctx, ctx', h, _, hset => by
    obtain rfl := Except.pure_eq_ok.1 hset
    exact ⟨h, rfl, rfl, rfl, le_rfl⟩
  | kv :: src, ctx, ctx', h, hkeep, hset => by
    rw [ggufSetKv, List.foldlM_cons, Except.bind_eq_ok] at hset
    obtain ⟨ctx₁, h₁, hset⟩ := hset
    obtain ⟨hinv, hinfo, hver, hal, hlen⟩ :=
      h.set (hkeep.imp_right fun hk => hk kv (List.mem_cons_self ..)) h₁
    obtain ⟨hinv', hinfo', hver', hal', hlen'⟩ := KeysInv.setKv hinv (by
      rw [hinfo]
      exact hkeep.imp_right fun hk x hx => hk x (List.mem_cons_of_mem _ hx)) hset
    exact ⟨hinv', hinfo'.trans hinfo, hver'.trans hver, hal'.trans hal, by
      rw [List.length_cons]
      omega⟩

end Keys

section Tensors

variable {t : GgmlTensor} {a : Nat}

theorem ggmlBlckSize_le (type : GgmlType) : ggmlBlckSize type ≤ 256 := by
  revert type
  decide

theorem contiguousDim_eq_some {ne nb nextNb n : Nat} (h : contiguousDim ne nb nextNb = .ok (some n)) :
    (ne = 1 ∨ nb = nextNb) ∧ n = nextNb * ne := by
  unfold contiguousDim at h
  split_ifs at h with hne hnb
  · obtain rfl : nextNb = n := by simpa using h
    exact ⟨.inl hne, by rw [hne, Nat.mul_one]⟩
  · simp at h
  · rw [not_not] at hnb
    subst hnb
    refine ⟨.inr rfl, ?_⟩
    rcases hs : sizeT (nb * ne) with e | m
    · rw [hs] at h
      cases h
    · rw [hs] at h
      obtain rfl : m = n := by simpa [Functor.map, Except.map] using h
      exact (sizeT_eq_ok.1 hs).2.symm

/-- Where the strides matter, they are those of the contiguous tensor. -/
theorem strides_of_isContiguous (h : ggmlIsContiguous t = .ok true) :
    (t.ne0 = ggmlBlckSize t.type ∨ t.nb0 = ggmlTypeSize t.type) ∧
      (t.ne1 = 1 ∨ t.nb1 = t.rowBytes) ∧ (t.ne2 = 1 ∨ t.nb2 = t.rowBytes * t.ne1) ∧
      (t.ne3 = 1 ∨ t.nb3 = t.rowBytes * t.ne1 * t.ne2) := by
  unfold ggmlIsContiguous at h
  split_ifs at h with h0
  · simp [Except.pure_eq_ok] at h
  simp only [Except.bind_eq_ok, sizeT_eq_ok] at h
  obtain ⟨_, ⟨-, rfl⟩, o1, h1, h⟩ := h
  rcases o1 with _ | n1
  · simp [Except.pure_eq_ok] at h
  obtain ⟨o2, h2, h⟩ := Except.bind_eq_ok.1 h
  rcases o2 with _ | n2
  · simp [Except.pure_eq_ok] at h
  obtain ⟨o3, h3, h⟩ := Except.bind_eq_ok.1 h
  rcases o3 with _ | n3
  · simp [Except.pure_eq_ok] at h
  obtain ⟨hc1, rfl⟩ := contiguousDim_eq_some h1
  obtain ⟨hc2, rfl⟩ := contiguousDim_eq_some h2
  obtain ⟨hc3, rfl⟩ := contiguousDim_eq_some h3
  exact ⟨by tauto, hc1, hc2, hc3⟩

/-- The size does not depend on the strides of dimensions of one element. -/
theorem ggmlNbytes_of_isContiguous (h : ggmlIsContiguous t = .ok true)
    (h0 : t.nb0 = ggmlTypeSize t.type ∨ ggmlBlckSize t.type = 1) :
    ggmlNbytes t = ggmlNbytes t.contiguous := by
  obtain ⟨hc0, hc1, hc2, hc3⟩ := strides_of_isContiguous h
  have hmul : ∀ {ne nb nb' : Nat}, ne = 1 ∨ nb = nb' → (ne - 1) * nb = (ne - 1) * nb' := by
    rintro ne nb nb' (rfl | rfl) <;> simp
  have hrow : rowNbytes t = rowNbytes t.contiguous := by
    unfold rowNbytes
    change _ = if ggmlBlckSize t.type = 1 then
      addSize (ggmlTypeSize t.type) ((t.ne0 - 1) * ggmlTypeSize t.type) else do
        let nbytes ← sizeT (t.ne0 * ggmlTypeSize t.type)
        pure (nbytes / ggmlBlckSize t.type)
    split_ifs with hb
    · rw [hb] at hc0
      rw [hmul hc0]
    · rw [h0.resolve_right hb]
  unfold ggmlNbytes
  rw [hrow, hmul hc1, hmul hc2, hmul hc3]
  rfl

/-- What is in memory has sizes that can be computed. -/
theorem tensorFits_of_data (h : t.WellShaped) (hlt : t.byteSize < 2 ^ 56) : TensorFits t := by
  refine ⟨h, ?_, by omega⟩
  have hrows := h.rows_le
  have hrow : t.rowBytes ≤ t.rowBytes * t.ne1 :=
    Nat.le_mul_of_pos_right _ (Nat.pos_of_ne_zero h.pos1)
  have hdvd : ggmlBlckSize t.type ∣ t.ne0 * ggmlTypeSize t.type := h.blck_dvd.mul_right _
  calc t.ne0 * ggmlTypeSize t.type
      = t.rowBytes * ggmlBlckSize t.type := by rw [← h.rowBytes_eq, Nat.div_mul_cancel hdvd]
    _ ≤ t.byteSize * 256 := Nat.mul_le_mul (by omega) (ggmlBlckSize_le _)
    _ < 2 ^ 64 := by omega

theorem contiguousDim_of_lt {ne nb : Nat} (h : nb * ne < 2 ^ 64) :
    contiguousDim ne nb nb = .ok (some (nb * ne)) := by
  unfold contiguousDim
  split_ifs with hne hnb
  · rw [hne, Nat.mul_one]
  · exact absurd rfl hnb
  · rw [sizeT_of_lt h]
    rfl

theorem isContiguous_contiguous (h : TensorFits t) : ggmlIsContiguous t.contiguous = .ok true := by
  have hrows := h.rows_le
  have hlt := h.byteSize_lt
  have hb := h.byteSize_eq
  have hrow : t.rowBytes ≤ t.rowBytes * t.ne1 :=
    Nat.le_mul_of_pos_right _ (Nat.pos_of_ne_zero h.pos1)
  have hr : ggmlTypeSize t.type * (t.ne0 / ggmlBlckSize t.type) = t.rowBytes := rfl
  unfold ggmlIsContiguous
  rw [if_neg (fun hc => hc.2 rfl)]
  simp only [GgmlTensor.contiguous]
  rw [hr, sizeT_of_lt (by omega), Except.ok_bind_eq, contiguousDim_of_lt (by omega),
    Except.ok_bind_eq]
  simp only []
  rw [contiguousDim_of_lt (by omega), Except.ok_bind_eq]
  simp only []
  rw [contiguousDim_of_lt (by omega), Except.ok_bind_eq]
  rfl

/-- A tensor that can be written: only its rows may be empty, and it has its data. -/
structure Writable (t : GgmlTensor) : Prop extends t.WellShaped where
  name_lt : t.name.length < ggmlMaxName
  name_ne : 0 ∉ t.name
  ne0_lt : t.ne0 < 2 ^ 63
  ne1_lt : t.ne1 < 2 ^ 63
  ne2_lt : t.ne2 < 2 ^ 63
  ne3_lt : t.ne3 < 2 ^ 63
  isContiguous : ggmlIsContiguous t = .ok true
  nbytes : ggmlNbytes t = .ok t.byteSize
  hasData : ∃ d, t.data = some d ∧ t.byteSize ≤ d.length ∧ d.length < 2 ^ 56

/-- What a tensor that is added must be: it has its data, no zero dimension but the first, and the
stride of its blocks where `ggml_is_contiguous` does not look. -/
structure TensorCondition (t : GgmlTensor) : Prop where
  pos1 : t.ne1 ≠ 0
  pos2 : t.ne2 ≠ 0
  pos3 : t.ne3 ≠ 0
  isContiguous : ggmlIsContiguous t = .ok true
  nb0 : t.nb0 = ggmlTypeSize t.type ∨ ggmlBlckSize t.type = 1
  hasData : ∃ d, t.data = some d ∧ t.byteSize ≤ d.length

theorem Writable.of_condition (hp : t.Proper) (h : TensorCondition t) : Writable t := by
  obtain ⟨d, hd, hle⟩ := h.hasData
  have hlt : d.length < 2 ^ 56 := hp.data_lt d hd
  have hshape : t.WellShaped := ⟨h.pos1, h.pos2, h.pos3, hp.blck_ne, hp.blck_dvd⟩
  have hfits := tensorFits_of_data hshape (hle.trans_lt hlt)
  exact
    { hshape with
      name_lt := hp.name_lt
      name_ne := hp.name_ne
      ne0_lt := hp.ne0_lt
      ne1_lt := hp.ne1_lt
      ne2_lt := hp.ne2_lt
      ne3_lt := hp.ne3_lt
      isContiguous := h.isContiguous
      nbytes := by
        rw [ggmlNbytes_of_isContiguous h.isContiguous h.nb0, hshape.ggmlNbytes_eq_ok]
        exact ⟨hfits.row_lt, hfits.byteSize_lt, rfl⟩
      hasData := ⟨d, hd, hle, hlt⟩ }

theorem Writable.tensorFits (h : Writable t) : TensorFits t := by
  obtain ⟨d, -, hle, hlt⟩ := h.hasData
  exact tensorFits_of_data h.toWellShaped (hle.trans_lt hlt)

/-- The type of a tensor is changed to one for which it has the data. -/
theorem Writable.setType {t' : GgmlTensor} {type : GgmlType} (h : Writable t)
    (hdata : ∀ d ∈ t.data, { t with type }.byteSize ≤ d.length)
    (hset : setType t type = .ok t') :
    Writable t' ∧ t'.name = t.name := by
  unfold LamaServer.setType at hset
  split_ifs at hset with hb hmod
  rw [not_not] at hmod
  have hshape : { t with type }.WellShaped :=
    ⟨h.pos1, h.pos2, h.pos3, hb, Nat.dvd_of_mod_eq_zero hmod⟩
  obtain ⟨d, hd, -, hlt⟩ := h.hasData
  have hfits := tensorFits_of_data hshape ((hdata d hd).trans_lt hlt)
  obtain ⟨-, rfl⟩ := (GgmlTensor.setStrides_eq_ok hshape.pos1 hshape.pos2).1 hset
  exact ⟨
    { pos1 := h.pos1
      pos2 := h.pos2
      pos3 := h.pos3
      blck_ne := hb
      blck_dvd := Nat.dvd_of_mod_eq_zero hmod
      name_lt := h.name_lt
      name_ne := h.name_ne
      ne0_lt := h.ne0_lt
      ne1_lt := h.ne1_lt
      ne2_lt := h.ne2_lt
      ne3_lt := h.ne3_lt
      isContiguous := isContiguous_contiguous hfits
      nbytes := hshape.ggmlNbytes_eq_ok.2 ⟨hfits.row_lt, hfits.byteSize_lt, rfl⟩
      hasData := ⟨d, hd, hdata d hd, hlt⟩ }, rfl⟩

/-- Each tensor starts where the one before it ends, aligned. -/
def Offsets (a : Nat) : Nat → List GgufTensorInfo → Prop
  | _, [] => True
  | size, ti :: rest => ti.offset = size ∧ Offsets a (size + roundUp ti.t.byteSize a) rest

theorem offsets_append : ∀ {l r : List GgufTensorInfo} {size : Nat},
    Offsets a size (l ++ r) ↔ Offsets a size l ∧ Offsets a (packedEnd a size l) r
  | [], r, size => by simp [Offsets, packedEnd]
  | ti :: l, r, size => by
    rw [List.cons_append, Offsets, Offsets, offsets_append, and_assoc]
    rfl

theorem nextOffset_eq_ok (ha : a.isPowerOfTwo) {ti : GgufTensorInfo} (h : Writable ti.t) {n : Nat}
    (hn : nextOffset a ti = .ok n) : n = ti.offset + roundUp ti.t.byteSize a := by
  simp only [nextOffset, h.nbytes, Except.ok_bind_eq, Except.bind_eq_ok, ggmlPad_eq_ok ha,
    sizeT_eq_ok] at hn
  obtain ⟨_, ⟨-, rfl⟩, -, rfl⟩ := hn
  rfl

/-- What holds of the tensors of a context. -/
structure InfosInv (a : Nat) (infos : List GgufTensorInfo) : Prop where
  nodup : (infos.map (·.t.name)).Nodup
  writable : ∀ ti ∈ infos, Writable ti.t
  offsets : Offsets a 0 infos

theorem Offsets.last (ha : a.isPowerOfTwo) {infos : List GgufTensorInfo} {ti : GgufTensorInfo}
    {size n : Nat} (h : Offsets a size infos) (hw : ∀ x ∈ infos, Writable x.t)
    (hlast : infos.getLast? = some ti) (hn : nextOffset a ti = .ok n) :
    n = packedEnd a size infos := by
  obtain ⟨l, rfl⟩ := List.getLast?_eq_some_iff.1 hlast
  rw [offsets_append] at h
  rw [nextOffset_eq_ok ha (hw ti (by simp)) hn, h.2.1]
  simp [packedEnd]

theorem updateOffsets_eq_ok (ha : a.isPowerOfTwo) : ∀ {rest rest' : List GgufTensorInfo}
    {ti : GgufTensorInfo}, Writable ti.t → (∀ x ∈ rest, Writable x.t) →
      updateOffsets a ti rest = .ok rest' →
    rest'.map (·.t) = rest.map (·.t) ∧ Offsets a (ti.offset + roundUp ti.t.byteSize a) rest'
  | [], rest', ti, _, _, h => by
    obtain rfl : [] = rest' := by simpa [updateOffsets] using h
    exact ⟨rfl, trivial⟩
  | tj :: rest, rest', ti, hti, hw, h => by
    obtain ⟨hj, hw⟩ := List.forall_mem_cons.1 hw
    simp only [updateOffsets, Except.bind_eq_ok, Except.pure_eq_ok] at h
    obtain ⟨n, hn, rest₁, hrest, rfl⟩ := h
    obtain rfl := nextOffset_eq_ok ha hti hn
    obtain ⟨hmap, hoff⟩ := updateOffsets_eq_ok ha (by exact hj) hw hrest
    exact ⟨by rw [List.map_cons, List.map_cons, hmap], rfl, hoff⟩

/-- What `gguf_set_tensor_type` keeps of the tensors from `size` on. -/
theorem setTensorType_spec (ha : a.isPowerOfTwo) {name : CString} {type : GgmlType} :
    ∀ {infos infos' : List GgufTensorInfo} {size : Nat}, (∀ ti ∈ infos, Writable ti.t) →
      Offsets a size infos →
      (∀ ti ∈ infos, ti.t.name = name.1 → ∀ d ∈ ti.t.data,
        { ti.t with type }.byteSize ≤ d.length) →
      setTensorType a name type infos = .ok infos' →
    (∀ ti ∈ infos', Writable ti.t) ∧ Offsets a size infos' ∧
      infos'.map (·.t.name) = infos.map (·.t.name)
  | [], _, _, _, _, _, h => by simp [setTensorType] at h
  | ti :: rest, infos', size, hw, ⟨hoff, hrest⟩, hdata, h => by
    obtain ⟨hti, hw⟩ := List.forall_mem_cons.1 hw
    obtain ⟨hd, hdata⟩ := List.forall_mem_cons.1 hdata
    unfold setTensorType at h
    split_ifs at h with hname
    · simp only [Except.bind_eq_ok, Except.pure_eq_ok] at h
      obtain ⟨t', ht', rest', hupd, rfl⟩ := h
      obtain ⟨hw', hn'⟩ := hti.setType (hd hname) ht'
      obtain ⟨hmap, hoff'⟩ := updateOffsets_eq_ok ha hw' hw hupd
      have hnames : rest'.map (·.t.name) = rest.map (·.t.name) := by
        simpa [Function.comp_def] using congrArg (List.map (·.name)) hmap
      refine ⟨List.forall_mem_cons.2 ⟨hw', fun x hx => ?_⟩, ⟨hoff, hoff ▸ hoff'⟩, ?_⟩
      · have hx' : x.t ∈ rest.map (·.t) := hmap ▸ List.mem_map_of_mem hx
        obtain ⟨y, hy, hyx⟩ := List.mem_map.1 hx'
        exact hyx ▸ hw y hy
      · rw [List.map_cons, List.map_cons, hnames]
        exact congrArg (· :: _) hn'
    · simp only [Except.bind_eq_ok, Except.pure_eq_ok] at h
      obtain ⟨rest', hset, rfl⟩ := h
      obtain ⟨hw', hoff', hnames⟩ := setTensorType_spec ha hw hrest hdata hset
      exact ⟨List.forall_mem_cons.2 ⟨hti, hw'⟩, ⟨hoff, hoff'⟩, by
        rw [List.map_cons, List.map_cons, hnames]⟩

end Tensors

section Steps

/-- What holds of a context that is made from the empty one. -/
structure GgufInv (ctx : GgufContext) : Prop extends KeysInv ctx where
  version : ctx.version = ggufVersion
  alignment : ctx.alignment = ggufDefaultAlignment
  length_lt : ctx.kv.length < 2 ^ 31
  infos : InfosInv ggufDefaultAlignment ctx.info

/-- The condition on a call: with tensors there, the alignment under the key is the default; the
pairs can be counted in an `int`; a tensor that is added or changed can be written. -/
def GgufFits (ctx : GgufContext) : GgufOp → Prop
  | .set key v => (ctx.info = [] ∨ KeepsAlignment key v) ∧ ctx.kv.length + 1 < 2 ^ 31
  | .setKv src => (ctx.info = [] ∨ ∀ kv ∈ src, KeepsAlignment (toCString kv.key) kv.passVal) ∧
      ctx.kv.length + src.length < 2 ^ 31
  | .removeKey _ => True
  | .addTensor t => DefaultAligned ctx.kv ∧ TensorCondition t.1
  | .setTensorType name type => ∀ ti ∈ ctx.info, ti.t.name = name.1 → ∀ d ∈ ti.t.data,
      { ti.t with type }.byteSize ≤ d.length

theorem isPowerOfTwo_default : ggufDefaultAlignment.isPowerOfTwo := ⟨5, rfl⟩

theorem ggufInv_empty : GgufInv ggufInitEmpty where
  kv := ⟨by simp [ggufInitEmpty], by simp [ggufInitEmpty], by simp [ggufInitEmpty]⟩
  aligned := .inl rfl
  version := rfl
  alignment := rfl
  length_lt := by simp [ggufInitEmpty]
  infos := ⟨by simp [ggufInitEmpty], by simp [ggufInitEmpty], trivial⟩

theorem GgufInv.keys {ctx ctx' : GgufContext} (h : GgufInv ctx) (hkeys : KeysInv ctx')
    (hinfo : ctx'.info = ctx.info) (hver : ctx'.version = ctx.version)
    (hal : ctx'.alignment = ctx.alignment) (hlen : ctx'.kv.length < 2 ^ 31) : GgufInv ctx' :=
  ⟨hkeys, hver.trans h.version, hal.trans h.alignment, hlen, hinfo ▸ h.infos⟩

theorem GgufInv.addTensor {ctx ctx' : GgufContext} {t : {t : GgmlTensor // t.Proper}}
    (h : GgufInv ctx) (ha : DefaultAligned ctx.kv) (ht : TensorCondition t.1)
    (hadd : ggufAddTensor ctx t.1 = .ok ctx') : GgufInv ctx' := by
  have hw := Writable.of_condition t.2 ht
  simp only [ggufAddTensor, Except.bind_eq_ok, ggmlAssert_eq_ok] at hadd
  obtain ⟨-, hnew, hadd⟩ := hadd
  have hoff : ∃ offset, offset = packedEnd ggufDefaultAlignment 0 ctx.info ∧
      ctx' = { ctx with info := ctx.info ++ [{ t := t.1, offset }] } := by
    rcases hlast : ctx.info.getLast? with _ | ti
    · rw [hlast] at hadd
      have hnil := List.getLast?_eq_none_iff.1 hlast
      exact ⟨0, by rw [hnil]; rfl, (Except.pure_eq_ok.1 hadd).symm⟩
    · rw [hlast] at hadd
      obtain ⟨n, hn, hadd⟩ := Except.bind_eq_ok.1 hadd
      rw [h.alignment] at hn
      exact ⟨n, h.infos.offsets.last isPowerOfTwo_default h.infos.writable hlast hn,
        (Except.pure_eq_ok.1 hadd).symm⟩
  obtain ⟨offset, hoff, rfl⟩ := hoff
  refine ⟨⟨h.kv, .inr ha⟩, h.version, h.alignment, h.length_lt, ?_, ?_, ?_⟩
  · rw [List.map_append, List.nodup_append]
    refine ⟨h.infos.nodup, by simp, fun x hx y hy hxy => hnew ?_⟩
    obtain rfl : y = t.1.name := by simpa using hy
    exact hxy ▸ hx
  · intro ti hti
    rcases List.mem_append.1 hti with hti | hti
    · exact h.infos.writable ti hti
    · obtain rfl := List.mem_singleton.1 hti
      exact hw
  · exact offsets_append.2 ⟨h.infos.offsets, hoff, trivial⟩

theorem GgufInv.setTensorType {ctx ctx' : GgufContext} {name : CString} {type : GgmlType}
    (h : GgufInv ctx) (hdata : ∀ ti ∈ ctx.info, ti.t.name = name.1 → ∀ d ∈ ti.t.data,
      { ti.t with type }.byteSize ≤ d.length)
    (hset : ggufSetTensorType ctx name type = .ok ctx') : GgufInv ctx' := by
  simp only [ggufSetTensorType, Except.bind_eq_ok, Except.pure_eq_ok] at hset
  obtain ⟨info, hinfo, rfl⟩ := hset
  rw [h.alignment] at hinfo
  obtain ⟨hw, hoff, hnames⟩ := setTensorType_spec isPowerOfTwo_default h.infos.writable
    h.infos.offsets hdata hinfo
  refine ⟨⟨h.kv, h.aligned.imp_left fun hnil => ?_⟩, h.version, h.alignment, h.length_lt,
    hnames ▸ h.infos.nodup, hw, hoff⟩
  exact List.map_eq_nil_iff.1 (hnames.trans (by rw [hnil]; rfl))

/-- A call that meets the condition keeps the invariant. -/
theorem GgufInv.step {ctx ctx' : GgufContext} {op : GgufOp} (h : GgufInv ctx)
    (hfits : GgufFits ctx op) (hstep : ctx.step op = .ok ctx') : GgufInv ctx' := by
  rcases op with ⟨key, v⟩ | src | key | t | ⟨name, type⟩
  · obtain ⟨hkeys, hinfo, hver, hal, hlen⟩ := h.toKeysInv.set hfits.1 hstep
    exact h.keys hkeys hinfo hver hal (hlen.trans_lt hfits.2)
  · obtain ⟨hkeys, hinfo, hver, hal, hlen⟩ := h.toKeysInv.setKv hfits.1 hstep
    exact h.keys hkeys hinfo hver hal (hlen.trans_lt hfits.2)
  · obtain rfl := Except.pure_eq_ok.1 hstep
    exact h.keys ⟨h.kv.remove key, h.aligned.imp_right fun ha => ha.remove h.kv⟩ rfl rfl rfl
      ((h.kv.remove_length key).trans_lt h.length_lt)
  · exact h.addTensor hfits.1 hfits.2 hstep
  · exact h.setTensorType hfits hstep

/-- The contexts made by calls that meet the condition. -/
abbrev GgufReachable : GgufContext → Prop :=
  Transition.Reachable (· = ggufInitEmpty)
    (Transition.Guarded GgufFits fun ctx op ctx' => ctx.step op = .ok ctx')

theorem GgufReachable.inv {ctx : GgufContext} (h : GgufReachable ctx) : GgufInv ctx :=
  Transition.Reachable.invariant (by rintro _ rfl; exact ggufInv_empty)
    (fun _ _ _ hinv hs => hinv.step hs.1 hs.2) h

end Steps

end LamaServer
