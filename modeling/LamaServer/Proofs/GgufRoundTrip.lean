import LamaServer.Proofs.GgufInvariant
import LamaServer.Proofs.GgufReader

/-!
# What is written is read again

`GgufReachable.roundTrips`: the reader accepts what the writer makes of a context that is reached by
calls that meet `GgufFits`, and gives the same pairs, the same tensors and their bytes.
-/

namespace LamaServer

open Format (toLE ofLE)
open Align (roundUp)

/-- There is memory for sixteen times the `n` bytes of the file, and the memory has an end. -/
structure Ample (alloc : Nat → Bool) (n : Nat) : Prop where
  granted : ∀ m ≤ 16 * n, alloc m = true
  lt : ∀ m, alloc m = true → m < 2 ^ 63

theorem Ample.file_lt {alloc : Nat → Bool} {n : Nat} (h : Ample alloc n) : n < 2 ^ 59 := by
  have := h.lt _ (h.granted _ le_rfl)
  omega

section Kvs

variable {alloc : Nat → Bool} {kv : GgufKv} {kvs : List GgufKv} {n : Nat}

/-- A pair as it is written. -/
def GgufKv.entry (kv : GgufKv) : GgufKvEntry := ⟨kv.key, kv.isArray, kv.type, kv.elems⟩

theorem readAs_of_isElem {t : GgufType} {e : List UInt8} (h : IsElem t e) : readAs t e = e := by
  unfold readAs
  split_ifs with hb
  · rcases h.2 hb with rfl | rfl <;> rfl
  · rfl

theorem GgufKv.is_entry (kv : GgufKv) : kv.entry.Is kv where
  key_ne := kv.key_ne
  key := rfl
  isArray := rfl
  type := rfl
  elems := by
    have hmap : kv.elems.map (readAs kv.type) = kv.elems.map id :=
      List.map_congr_left fun e he => readAs_of_isElem (kv.isElem e he)
    exact (hmap.trans (List.map_id _)).symm

theorem writeKv_eq (kv : GgufKv) : writeKv kv = kv.entry.bytes := by
  have hbool : kv.type = .bool → kv.elems.flatMap boolByte = kv.elems.flatMap id := fun ht =>
    List.flatMap_congr fun e he => by
      rcases (kv.isElem e he).2 ht with rfl | rfl <;> rfl
  unfold writeKv
  change strBytes kv.key ++ (GgufKvEntry.typeBytes kv.isArray kv.type kv.ne ++ _) =
    strBytes kv.key ++ (GgufKvEntry.typeBytes kv.isArray kv.type kv.ne ++
      kv.elems.flatMap (elemBytes kv.type))
  refine congrArg _ (congrArg _ ?_)
  rcases ht : kv.type
  case string => rfl
  case bool => exact (hbool ht).trans rfl
  all_goals exact List.flatMap_id.symm

theorem mul_length_le_length_flatMap {α : Type*} {f : α → List UInt8} {k : Nat} : ∀ {l : List α},
    (∀ a ∈ l, k ≤ (f a).length) → k * l.length ≤ (l.flatMap f).length
  | [], _ => by simp
  | a :: l, h => by
    obtain ⟨ha, hl⟩ := List.forall_mem_cons.1 h
    have ih := mul_length_le_length_flatMap hl
    simp only [List.length_cons, List.flatMap_cons, List.length_append, Nat.mul_add]
    omega

theorem length_le_of_mem_flatMap {α : Type*} {f : α → List UInt8} {l : List α} {a : α}
    (ha : a ∈ l) : (f a).length ≤ (l.flatMap f).length := by
  obtain ⟨l, r, rfl⟩ := List.append_of_mem ha
  simp only [List.flatMap_append, List.flatMap_cons, List.length_append]
  omega

/-- The bytes that an element has at least. -/
def elemMin (t : GgufType) : Nat := if t = .string then 8 else ggufTypeSize t

theorem elemMin_pos {t : GgufType} (ht : t ≠ .array) : 0 < elemMin t := by
  revert ht
  rcases t <;> simp [elemMin, ggufTypeSize]

theorem elemMin_le {e : List UInt8} {t : GgufType} (h : IsElem t e) :
    elemMin t ≤ (elemBytes t e).length := by
  unfold elemMin elemBytes
  split_ifs with hs
  · simp [strBytes]
  · exact (h.1 hs).ge

theorem vectorBytes_le {t : GgufType} {m : Nat} : vectorBytes t m ≤ 4 * (elemMin t * m) + 8 := by
  rcases t <;> simp [vectorBytes, elemMin, ggufTypeSize] <;> omega

theorem strBytes_length_le_bytes (e : GgufKvEntry) :
    e.key.length + (e.elems.flatMap (elemBytes e.type)).length + 12 ≤ e.bytes.length := by
  have htype : 4 ≤ (GgufKvEntry.typeBytes e.isArray e.type e.elems.length).length := by
    unfold GgufKvEntry.typeBytes
    split_ifs <;> simp
  simp only [GgufKvEntry.bytes, strBytes, List.length_append, Format.length_toLE]
  omega

theorem Ample.granted_of_le (h : Ample alloc n) {s : List UInt8} (hs : s.length ≤ n) :
    Granted alloc s :=
  ⟨by have := h.file_lt; omega, h.granted _ (by omega)⟩

/-- The reader has the memory for a pair that is part of the file. -/
theorem GgufKv.readable_entry (h : Ample alloc n) (hlen : kv.entry.bytes.length ≤ n) :
    kv.entry.Readable alloc := by
  have hbytes := strBytes_length_le_bytes kv.entry
  have helems : ∀ e ∈ kv.elems, elemMin kv.type ≤ (elemBytes kv.type e).length :=
    fun e he => elemMin_le (kv.isElem e he)
  have hmin := mul_length_le_length_flatMap helems
  have hpos := Nat.le_mul_of_pos_left kv.elems.length (elemMin_pos kv.type_ne)
  have hlt := h.file_lt
  change kv.key.length + (kv.elems.flatMap (elemBytes kv.type)).length + 12 ≤ _ at hbytes
  refine ⟨⟨fun e he => ⟨fun hs => ?_, (kv.isElem e he).1⟩, kv.length_eq, fun _ => ?_⟩, ?_,
    kv.type_ne, ?_⟩
  · have hmem : (elemBytes kv.type e).length ≤ (kv.elems.flatMap (elemBytes kv.type)).length :=
      length_le_of_mem_flatMap he
    have hs' : kv.type = .string := hs
    refine h.granted_of_le ?_
    rw [elemBytes, if_pos hs', strBytes, List.length_append] at hmem
    omega
  · have hvec := vectorBytes_le (t := kv.type) (m := kv.elems.length)
    exact h.granted _ (hvec.trans (by omega))
  · refine h.granted_of_le ?_
    change kv.key.length ≤ n
    omega
  · change kv.elems.length < 2 ^ 64
    omega

theorem kvsAt_written (h : Ample alloc n) (hnodup : (kvs.map (·.key)).Nodup)
    (hlen : (kvs.flatMap writeKv).length ≤ n) (rest : List UInt8) :
    KvsAt alloc kvs.length kvs (kvs.flatMap writeKv ++ rest) rest := by
  refine ⟨kvs.map (·.entry), List.length_map .., ?_, ?_, ?_, ?_⟩
  · rw [List.forall₂_map_left_iff, List.forall₂_same]
    exact fun kv _ => kv.is_entry
  · intro e he
    obtain ⟨kv, hkv, rfl⟩ := List.mem_map.1 he
    refine GgufKv.readable_entry h ?_
    rw [← writeKv_eq]
    exact (length_le_of_mem_flatMap hkv).trans hlen
  · rw [List.map_map]
    exact hnodup
  · rw [List.flatMap_map]
    congr 1
    exact List.flatMap_congr fun kv _ => writeKv_eq kv

theorem toInt_natCast {i : Nat} (hi : i < 2 ^ 31) : toInt i = i :=
  Format.toSigned_ofSigned ⟨by omega, by omega⟩

/-- The reader finds an alignment, and the default one if that is what the key says. -/
theorem KvInv.exists_alignmentIs (h : KvInv kvs) (hlen : kvs.length < 2 ^ 31) :
    ∃ a, AlignmentIs kvs a ∧ (DefaultAligned kvs → a = ggufDefaultAlignment) := by
  rcases hfind : kvs.findIdx? (cString ·.key = ggufKeyGeneralAlignment) with _ | i
  · have hidx : alignmentIdx kvs = -1 := by
      rw [alignmentIdx, ggufFindKey, hfind]
      rfl
    exact ⟨ggufDefaultAlignment, ⟨isPowerOfTwo_default, .inl ⟨hidx, rfl⟩⟩, fun _ => rfl⟩
  · obtain ⟨hi, hkey, -⟩ := List.findIdx?_eq_some_iff_getElem.1 hfind
    have hidx : alignmentIdx kvs = i := by
      rw [alignmentIdx, ggufFindKey, hfind]
      exact toInt_natCast (hi.trans hlen)
    have hmem : kvs[i] ∈ kvs := List.getElem_mem hi
    have hkey : kvs[i].key = ggufKeyGeneralAlignment := by
      simpa [cString_of_notMem (h.noZero _ hmem)] using hkey
    obtain ⟨hne, htype, hpow⟩ := h.alignment _ hmem hkey
    have hu32 : IsU32 kvs (alignmentIdx kvs) kvs[i] := by
      rw [hidx]
      exact ⟨by omega, by simp, hne, htype⟩
    exact ⟨ofLE kvs[i].data, ⟨hpow, .inr ⟨kvs[i], hu32, rfl⟩⟩, fun ha => ha _ hmem hkey⟩

end Kvs

section Tensors

variable {alloc : Nat → Bool} {t : GgmlTensor} {ti : GgufTensorInfo} {infos : List GgufTensorInfo}
  {n a : Nat}

/-- The dimensions that are written: those after the last one above 1 are left out. -/
def GgmlTensor.dims (t : GgmlTensor) : List Nat := [t.ne0, t.ne1, t.ne2, t.ne3].take (ggmlNDims t)

/-- A tensor info as it is written. -/
def GgufTensorInfo.entry (ti : GgufTensorInfo) : GgufTensorEntry :=
  ⟨ti.t.name, ti.t.dims, ti.t.type, ti.offset⟩

theorem ggmlNDims_bounds (t : GgmlTensor) : 1 ≤ ggmlNDims t ∧ ggmlNDims t ≤ 4 := by
  unfold ggmlNDims
  split_ifs <;> omega

theorem length_dims (t : GgmlTensor) : t.dims.length = ggmlNDims t := by
  have := (ggmlNDims_bounds t).2
  simpa [GgmlTensor.dims] using this

theorem writeTensorMeta_eq (h : 0 ∉ ti.t.name) : writeTensorMeta ti = ti.entry.bytes := by
  rw [writeTensorMeta, cString_of_notMem h, GgufTensorEntry.bytes, shapeBytes]
  change _ = _ ++ (toLE 4 ti.t.dims.length ++ _ ++ _)
  rw [length_dims]
  rfl

theorem length_writeTensorMeta (h : 0 ∉ ti.t.name) : 32 ≤ (writeTensorMeta ti).length := by
  have hdims : (ti.t.dims.flatMap (toLE 8)).length = 8 * ggmlNDims ti.t := by
    rw [List.length_flatMap, ← length_dims]
    simp [Nat.mul_comm]
  have hbounds := ggmlNDims_bounds ti.t
  rw [writeTensorMeta_eq h, GgufTensorEntry.bytes, shapeBytes, strBytes]
  change 32 ≤ (_ ++ (toLE 4 ti.t.dims.length ++ ti.t.dims.flatMap (toLE 8) ++ _)).length
  simp only [List.length_append, Format.length_toLE, hdims]
  omega

/-- The dimensions that are left out are 1, which is what the reader takes them for. -/
theorem getD_dims (h1 : t.ne1 ≠ 0) (h2 : t.ne2 ≠ 0) (h3 : t.ne3 ≠ 0) :
    t.dims.getD 0 1 = t.ne0 ∧ t.dims.getD 1 1 = t.ne1 ∧ t.dims.getD 2 1 = t.ne2 ∧
      t.dims.getD 3 1 = t.ne3 := by
  unfold GgmlTensor.dims ggmlNDims
  split_ifs <;> simp <;> omega

/-- No block has more than eight elements for a byte. -/
theorem elements_le (h : t.WellShaped) : t.ne0 * t.ne1 * t.ne2 * t.ne3 ≤ 8 * t.byteSize := by
  have htype : ∀ type : GgmlType, ggmlBlckSize type ≠ 0 →
      ggmlBlckSize type ≤ 8 * ggmlTypeSize type := by decide
  have hrow : t.ne0 ≤ 8 * t.rowBytes := by
    calc t.ne0 = ggmlBlckSize t.type * (t.ne0 / ggmlBlckSize t.type) :=
          (Nat.mul_div_cancel' h.blck_dvd).symm
      _ ≤ 8 * ggmlTypeSize t.type * (t.ne0 / ggmlBlckSize t.type) :=
          Nat.mul_le_mul_right _ (htype t.type h.blck_ne)
      _ = 8 * t.rowBytes := Nat.mul_assoc ..
  calc t.ne0 * t.ne1 * t.ne2 * t.ne3 ≤ 8 * t.rowBytes * t.ne1 * t.ne2 * t.ne3 := by gcongr
    _ = 8 * t.byteSize := by rw [h.byteSize_eq]; ring

theorem lt_div_of_mul_le {x d : Nat} (hd : d ≠ 0) (hlt : d < 2 ^ 63) (h : x * d ≤ 2 ^ 59) :
    x < int64Max / d := by
  have hpos := Nat.pos_of_ne_zero hd
  refine (Nat.le_div_iff_mul_le hpos).2 ?_
  unfold int64Max
  rcases Nat.eq_zero_or_pos x with rfl | hx
  · omega
  · have hle : d ≤ x * d := Nat.le_mul_of_pos_left d hx
    rw [Nat.succ_mul]
    omega

/-- The reader's check of the number of elements passes. -/
theorem Writable.elementsFit (h : Writable t) : ElementsFit t.ne0 t.ne1 t.ne2 t.ne3 := by
  obtain ⟨d, -, hle, hlt⟩ := h.hasData
  have hel := elements_le h.toWellShaped
  have h3 : t.ne0 * t.ne1 * t.ne2 ≤ t.ne0 * t.ne1 * t.ne2 * t.ne3 :=
    Nat.le_mul_of_pos_right _ (Nat.pos_of_ne_zero h.pos3)
  have h2 : t.ne0 * t.ne1 ≤ t.ne0 * t.ne1 * t.ne2 :=
    Nat.le_mul_of_pos_right _ (Nat.pos_of_ne_zero h.pos2)
  exact
    { pos1 := h.pos1
      lt1 := lt_div_of_mul_le h.pos1 h.ne1_lt (by omega)
      pos2 := h.pos2
      lt2 := lt_div_of_mul_le h.pos2 h.ne2_lt (by omega)
      pos3 := h.pos3
      lt3 := lt_div_of_mul_le h.pos3 h.ne3_lt (by omega) }

/-- What is read of a written tensor info: the same tensor, contiguous and without data. -/
theorem Writable.entry_tensor (h : Writable ti.t) : ti.entry.tensor =
    { ti.t with nb0 := 0, nb1 := 0, nb2 := 0, nb3 := 0, data := none } := by
  obtain ⟨h0, h1, h2, h3⟩ := getD_dims h.pos1 h.pos2 h.pos3
  unfold GgufTensorEntry.tensor GgufTensorInfo.entry
  simp only [h0, h1, h2, h3, cString_of_notMem h.name_ne]

theorem Writable.readable_entry (h : Writable ti.t) (halloc : Ample alloc n) (hn : 24 ≤ n)
    (hoff : ti.offset ≤ n) : ti.entry.Readable alloc := by
  have hfits := h.tensorFits
  have hrows := h.rows_le
  have hlt := hfits.byteSize_lt
  have hfile := halloc.file_lt
  have htensor := h.entry_tensor
  have hname := h.name_lt
  have hmax : ggmlMaxName = 64 := rfl
  refine ⟨⟨⟨?_, ?_⟩, ?_, h.blck_ne, ?_⟩, ⟨?_, halloc.granted _ ?_⟩, h.name_lt, ?_, ?_⟩
  · exact (List.length_take_le ..).trans (ggmlNDims_bounds _).2
  · intro d hd
    have hmem : d ∈ [ti.t.ne0, ti.t.ne1, ti.t.ne2, ti.t.ne3] := List.mem_of_mem_take hd
    simp only [List.mem_cons, List.not_mem_nil, or_false] at hmem
    rcases hmem with rfl | rfl | rfl | rfl
    · exact h.ne0_lt
    · exact h.ne1_lt
    · exact h.ne2_lt
    · exact h.ne3_lt
  · rw [htensor]
    exact h.elementsFit
  · rw [htensor]
    exact h.blck_dvd
  · change ti.t.name.length < 2 ^ 64
    omega
  · change ti.t.name.length ≤ 16 * n
    omega
  · rw [htensor]
    change ti.t.rowBytes * ti.t.ne1 * ti.t.ne2 < 2 ^ 64
    omega
  · change ti.offset < 2 ^ 64
    omega

theorem tensorsAt_written (hw : ∀ ti ∈ infos, Writable ti.t)
    (hnodup : (infos.map (·.t.name)).Nodup) (halloc : Ample alloc n) (hn : 24 ≤ n)
    (hoff : ∀ ti ∈ infos, ti.offset ≤ n) (rest : List UInt8) :
    TensorsAt alloc (infos.map (·.entry)) (infos.flatMap writeTensorMeta ++ rest) rest := by
  refine ⟨?_, ?_, ?_⟩
  · intro e he
    obtain ⟨ti, hti, rfl⟩ := List.mem_map.1 he
    exact (hw ti hti).readable_entry halloc hn (hoff ti hti)
  · rw [List.map_map]
    refine (List.map_congr_left fun ti hti => ?_) ▸ hnodup
    exact (cString_of_notMem (hw ti hti).name_ne).symm
  · rw [List.flatMap_map]
    congr 1
    exact List.flatMap_congr fun ti hti => writeTensorMeta_eq (hw ti hti).name_ne

@[simp] theorem length_padding (ha : 0 < a) {size : Nat} :
    size + (padding size a).length = roundUp size a := by
  rw [padding, List.length_replicate, Align.add_sub_mod_mod ha]

/-- The bytes of a tensor and the zeros after them. -/
def tensorBytes (a : Nat) (ti : GgufTensorInfo) : List UInt8 :=
  (ti.t.data.getD []).take ti.t.byteSize ++ padding ti.t.byteSize a

theorem Writable.length_take (h : Writable t) :
    ((t.data.getD []).take t.byteSize).length = t.byteSize := by
  obtain ⟨d, hd, hle, -⟩ := h.hasData
  simpa [hd] using hle

theorem Writable.length_tensorBytes (h : Writable ti.t) (ha : 0 < a) :
    (tensorBytes a ti).length = roundUp ti.t.byteSize a := by
  rw [tensorBytes, List.length_append, h.length_take, length_padding ha]

theorem packedEnd_eq (ha : 0 < a) : ∀ {infos : List GgufTensorInfo} {s : Nat},
    (∀ ti ∈ infos, Writable ti.t) →
      packedEnd a s infos = s + (infos.flatMap (tensorBytes a)).length
  | [], _, _ => rfl
  | ti :: infos, s, hw => by
    obtain ⟨hti, hw⟩ := List.forall_mem_cons.1 hw
    have ih := packedEnd_eq ha (s := s + roundUp ti.t.byteSize a) hw
    rw [List.flatMap_cons, List.length_append, hti.length_tensorBytes ha, ← Nat.add_assoc]
    exact ih

theorem writeTensorData_eq (h : Writable ti.t) {o size : Nat} (hs : size = o + ti.offset)
    (hdvd : a ∣ size) : writeTensorData a o size ti = .ok (tensorBytes a ti) := by
  obtain ⟨d, hd, hle, -⟩ := h.hasData
  have hpad : padding (size + ti.t.byteSize) a = padding ti.t.byteSize a := by
    obtain ⟨k, rfl⟩ := hdvd
    rw [padding, padding, Nat.mul_add_mod]
  have hsub : size - o = ti.offset := by omega
  rw [writeTensorData, ggmlAssert, if_pos hsub, Except.ok_bind_eq, h.isContiguous,
    Except.ok_bind_eq, ggmlAssert, if_pos rfl, Except.ok_bind_eq, h.nbytes, Except.ok_bind_eq]
  simp only [hd]
  rw [if_neg (not_lt.2 hle), tensorBytes, hd, hpad]
  rfl

/-- The writer's assertions hold for tensors that lie one after another. -/
theorem writeDataSection_eq (ha : 0 < a) {o : Nat} (ho : a ∣ o) :
    ∀ {infos : List GgufTensorInfo} {s : Nat}, Offsets a s infos → a ∣ s →
      (∀ ti ∈ infos, Writable ti.t) →
      writeDataSection a o (o + s) infos = .ok (infos.flatMap (tensorBytes a))
  | [], _, _, _, _ => rfl
  | ti :: infos, s, ⟨hoff, hrest⟩, hs, hw => by
    obtain ⟨hti, hw⟩ := List.forall_mem_cons.1 hw
    have ih := writeDataSection_eq ha ho hrest (hs.add Align.dvd_roundUp) hw
    rw [writeDataSection, writeTensorData_eq hti (by rw [hoff]) (ho.add hs), Except.ok_bind_eq,
      hti.length_tensorBytes ha, Nat.add_assoc, ih]
    rfl

theorem byteSize_entry (h : Writable ti.t) : ti.entry.info.t.byteSize = ti.t.byteSize := by
  rw [byteSize_info, h.entry_tensor]
  rfl

theorem packedEnd_entry : ∀ {infos : List GgufTensorInfo} {s : Nat},
    (∀ ti ∈ infos, Writable ti.t) →
      packedEnd a s ((infos.map (·.entry)).map (·.info)) = packedEnd a s infos
  | [], _, _ => rfl
  | ti :: infos, s, hw => by
    obtain ⟨hti, hw⟩ := List.forall_mem_cons.1 hw
    have ih := packedEnd_entry (s := s + roundUp ti.t.byteSize a) hw
    unfold packedEnd at ih ⊢
    simp only [List.map_cons, List.foldl_cons, byteSize_entry hti]
    exact ih

theorem packed_written (halign : a < 2 ^ 32) : ∀ {infos : List GgufTensorInfo} {s : Nat},
    Offsets a s infos → (∀ ti ∈ infos, Writable ti.t) → packedEnd a s infos < 2 ^ 64 →
      Packed a s ((infos.map (·.entry)).map (·.info))
  | [], _, _, _, _ => trivial
  | ti :: infos, s, ⟨hoff, hrest⟩, hw, hend => by
    obtain ⟨hti, hw⟩ := List.forall_mem_cons.1 hw
    obtain ⟨d, -, hle, hlt⟩ := hti.hasData
    have hnext : s + roundUp ti.t.byteSize a ≤ packedEnd a s (ti :: infos) := le_packedEnd
    have ih := packed_written halign hrest hw hend
    have hrow := hti.tensorFits.row_lt
    refine ⟨hoff, sizeFits_info.2 ?_, ?_⟩
    · rw [hti.entry_tensor]
      exact ⟨hrow, by change ti.t.byteSize + a < _; omega, hnext.trans_lt hend⟩
    · rw [byteSize_entry hti]
      exact ih

/-- Each tensor's bytes are where its offset says. -/
theorem take_drop_tensorBytes (ha : 0 < a) (h : Offsets a 0 infos)
    (hw : ∀ ti ∈ infos, Writable ti.t) (hti : ti ∈ infos) :
    ((infos.flatMap (tensorBytes a)).drop ti.offset).take ti.t.byteSize =
      (ti.t.data.getD []).take ti.t.byteSize := by
  obtain ⟨l, r, rfl⟩ := List.append_of_mem hti
  have hwl : ∀ x ∈ l, Writable x.t := fun x hx => hw x (by simp [hx])
  have hlen : (l.flatMap (tensorBytes a)).length = ti.offset := by
    have := packedEnd_eq (s := 0) ha hwl
    rw [(offsets_append.1 h).2.1, this, Nat.zero_add]
  rw [List.flatMap_append, ← hlen, List.drop_left, List.flatMap_cons, tensorBytes,
    List.append_assoc]
  exact List.take_left' (hw ti hti).length_take

end Tensors

section RoundTrip

/-- A tensor that is read as it was written. -/
structure SameTensor (ti ti' : GgufTensorInfo) : Prop where
  name : ti'.t.name = ti.t.name
  type : ti'.t.type = ti.t.type
  ne0 : ti'.t.ne0 = ti.t.ne0
  ne1 : ti'.t.ne1 = ti.t.ne1
  ne2 : ti'.t.ne2 = ti.t.ne2
  ne3 : ti'.t.ne3 = ti.t.ne3
  offset : ti'.offset = ti.offset

/-- The same pairs, tensors and tensor bytes, these where the blob was read. -/
structure SameContents (ctx c : GgufContext) : Prop where
  kv : c.kv = ctx.kv
  info : List.Forall₂ SameTensor ctx.info c.info
  bytes : ∀ blob ∈ c.data, ∀ ti ∈ ctx.info, ∀ d ∈ ti.t.data,
    (blob.drop ti.offset).take ti.t.byteSize = d.take ti.t.byteSize

/-- What is written is read again, with the blob when it is asked for. -/
def RoundTrips (ctx : GgufContext) : Prop :=
  ∃ bs, ggufWriteToBuf ctx false = .ok bs ∧ ∀ alloc, Ample alloc bs.length →
    ∃ hlen : bs.length < 2 ^ 63, ∀ params, ∃ c,
      ggufInitFromFileImpl alloc params ⟨bs, hlen⟩ = .ok c ∧ SameContents ctx c ∧
        (c.data.isSome ↔ params.ctx = true ∧ params.noAlloc = false)

variable {ctx : GgufContext} {alloc : Nat → Bool} {n a : Nat}

/-- The data section of the file that is written. -/
def GgufContext.dataBytes (ctx : GgufContext) : List UInt8 :=
  ctx.info.flatMap (tensorBytes ggufDefaultAlignment)

/-- What follows the tensor infos in the file. -/
def GgufContext.tail (ctx : GgufContext) : List UInt8 :=
  padding (writeMeta ctx).length ggufDefaultAlignment ++ ctx.dataBytes

theorem ggufDefaultAlignment_pos : 0 < ggufDefaultAlignment := by decide

theorem InfosInv.write_eq (h : InfosInv ggufDefaultAlignment ctx.info)
    (ha : ctx.alignment = ggufDefaultAlignment) :
    ggufWriteToBuf ctx false = .ok (writeMeta ctx ++ ctx.tail) := by
  have hlen : (writeMeta ctx ++ padding (writeMeta ctx).length ggufDefaultAlignment).length =
      roundUp (writeMeta ctx).length ggufDefaultAlignment := by
    rw [List.length_append, length_padding ggufDefaultAlignment_pos]
  have hdata := writeDataSection_eq ggufDefaultAlignment_pos
    (Align.dvd_roundUp (x := (writeMeta ctx).length)) h.offsets (Nat.dvd_zero _) h.writable
  unfold ggufWriteToBuf
  simp only [Bool.false_eq_true, if_false, ha]
  rw [hlen]
  rw [Nat.add_zero] at hdata
  rw [hdata, Except.ok_bind_eq, GgufContext.tail, ← List.append_assoc]
  rfl

/-- A file has room for the counts of its pairs and tensors, and for its tensors. -/
theorem GgufInv.length_ge (h : GgufInv ctx) :
    24 + ctx.kv.length + 32 * ctx.info.length + ctx.dataBytes.length ≤
      (writeMeta ctx ++ ctx.tail).length := by
  have hkv : 1 * ctx.kv.length ≤ (ctx.kv.flatMap writeKv).length :=
    mul_length_le_length_flatMap fun kv _ => by
      have := strBytes_length_le_bytes kv.entry
      rw [writeKv_eq]
      omega
  have hinfo : 32 * ctx.info.length ≤ (ctx.info.flatMap writeTensorMeta).length :=
    mul_length_le_length_flatMap fun ti hti =>
      length_writeTensorMeta (h.infos.writable ti hti).name_ne
  have hmagic : ggufMagic.length = 4 := by decide
  simp only [writeMeta, GgufContext.tail, List.length_append, Format.length_toLE, hmagic]
  omega

theorem GgufInv.header (h : GgufInv ctx) (hlt : (writeMeta ctx ++ ctx.tail).length < 2 ^ 59) :
    HeaderAt ggufVersion ctx.info.length ctx.kv.length (writeMeta ctx ++ ctx.tail)
      (ctx.kv.flatMap writeKv ++ (ctx.info.flatMap writeTensorMeta ++ ctx.tail)) := by
  have hge := h.length_ge
  have hkv := h.length_lt
  refine ⟨by decide, le_rfl, ?_, ?_, ?_⟩
  · refine (Nat.le_div_iff_mul_le (by decide)).2 ?_
    unfold ggufTensorInfoSize
    omega
  · refine (Nat.le_div_iff_mul_le (by decide)).2 ?_
    unfold ggufKvSize
    omega
  · rw [writeMeta, h.version]
    simp only [List.append_assoc]

theorem GgufInv.packedEnd_eq (h : GgufInv ctx) :
    packedEnd ggufDefaultAlignment 0 ctx.info = ctx.dataBytes.length := by
  rw [LamaServer.packedEnd_eq ggufDefaultAlignment_pos h.infos.writable, Nat.zero_add]
  rfl

/-- Nothing is packed when there are no tensors, whatever the alignment. -/
theorem GgufInv.packed (h : GgufInv ctx) (hlt : ctx.dataBytes.length < 2 ^ 59)
    (ha : ctx.info = [] ∨ a = ggufDefaultAlignment) :
    Packed a 0 ((ctx.info.map (·.entry)).map (·.info)) ∧
      packedEnd a 0 ((ctx.info.map (·.entry)).map (·.info)) = ctx.dataBytes.length := by
  rcases ha with hnil | rfl
  · rw [GgufContext.dataBytes, hnil]
    exact ⟨trivial, rfl⟩
  · have hend := h.packedEnd_eq
    refine ⟨packed_written (by decide) h.infos.offsets h.infos.writable (by omega), ?_⟩
    rw [packedEnd_entry h.infos.writable, hend]

/-- The data section is found where the reader looks for it. -/
theorem readData_eq (ha : ctx.info = [] ∨ a = ggufDefaultAlignment) :
    ∃ rest, readBytes ctx.dataBytes.length
      ((writeMeta ctx ++ ctx.tail).drop (roundUp (writeMeta ctx).length a)) =
        .ok (ctx.dataBytes, rest) := by
  rcases ha with hnil | rfl
  · rw [GgufContext.dataBytes, hnil]
    exact ⟨_, readBytes_eq_ok.2 ⟨rfl, rfl⟩⟩
  · have hlen : (writeMeta ctx ++ padding (writeMeta ctx).length ggufDefaultAlignment).length =
        roundUp (writeMeta ctx).length ggufDefaultAlignment := by
      rw [List.length_append, length_padding ggufDefaultAlignment_pos]
    rw [GgufContext.tail, ← List.append_assoc, ← hlen, List.drop_left]
    exact ⟨[], readBytes_eq_ok.2 ⟨rfl, (List.append_nil _).symm⟩⟩

theorem GgufInv.not_oversizedPool (h : GgufInv ctx)
    (halloc : Ample alloc (writeMeta ctx ++ ctx.tail).length) (noAlloc : Bool) :
    ¬ OversizedPool alloc (poolBytes noAlloc (ctx.info.map (·.entry)).length
      ctx.dataBytes.length) := by
  have hge := h.length_ge
  have hfile := halloc.file_lt
  have hsizes : ggmlMemAlign = 16 ∧ ggmlTensorOverhead = 368 := ⟨rfl, rfl⟩
  have hle : poolBytes noAlloc (ctx.info.map (·.entry)).length ctx.dataBytes.length +
      ggmlMemAlign ≤ 16 * (writeMeta ctx ++ ctx.tail).length := by
    unfold poolBytes
    rw [List.length_map, hsizes.1, hsizes.2]
    split_ifs <;> omega
  generalize poolBytes noAlloc (ctx.info.map (·.entry)).length ctx.dataBytes.length = bytes at hle
  rintro (hbig | hdenied)
  · omega
  · have hround := Align.roundUp_lt (x := if bytes = 0 then ggmlMemAlign else bytes)
      (a := ggmlMemAlign) (by decide)
    have hgranted := halloc.granted _ (hround.le.trans (by split_ifs <;> omega))
    rw [hgranted] at hdenied
    cases hdenied

theorem GgufInv.loadData_eq (h : GgufInv ctx)
    (halloc : Ample alloc (writeMeta ctx ++ ctx.tail).length) {bs rest : List UInt8}
    (hread : readBytes ctx.dataBytes.length bs = .ok (ctx.dataBytes, rest))
    (params : GgufInitParams) :
    loadData alloc params ((ctx.info.map (·.entry)).map (·.info)) ctx.dataBytes.length bs =
      .ok (if params.ctx ∧ ¬ params.noAlloc then some ctx.dataBytes else none) := by
  have hfits : ∀ e ∈ ctx.info.map (·.entry), TensorFits e.tensor := by
    intro e he
    obtain ⟨ti, hti, rfl⟩ := List.mem_map.1 he
    have hw := h.infos.writable ti hti
    rw [hw.entry_tensor]
    exact ⟨⟨hw.pos1, hw.pos2, hw.pos3, hw.blck_ne, hw.blck_dvd⟩, hw.tensorFits.row_lt,
      hw.tensorFits.byteSize_lt⟩
  unfold loadData
  rw [loadTensors_eq hfits (h.not_oversizedPool halloc params.noAlloc), hread]
  split_ifs <;> simp_all [Functor.map, Except.map]

theorem GgufInv.sameTensor (h : GgufInv ctx) :
    List.Forall₂ SameTensor ctx.info ((ctx.info.map (·.entry)).map (·.info)) := by
  rw [List.map_map, List.forall₂_map_right_iff, List.forall₂_same]
  intro ti hti
  have htensor := (h.infos.writable ti hti).entry_tensor
  have hinfo : ti.entry.info = { t := ti.entry.tensor.contiguous, offset := ti.offset } := rfl
  change SameTensor ti ti.entry.info
  rw [hinfo, htensor]
  exact ⟨rfl, rfl, rfl, rfl, rfl, rfl, rfl⟩

/-- What the reader makes of the sections of a file. -/
theorem ggufInitFromFileImpl_eq_ok (file : GgufFile) (params : GgufInitParams)
    {version nTensors offset size : Nat} {kvs : List GgufKv} {bs : List UInt8}
    {es : List GgufTensorEntry} {data : Option (List UInt8)}
    (hkvs : KvSection alloc file version nTensors kvs a bs)
    (hinfo : InfoSection alloc file a es bs offset) (hn : es.length = nTensors)
    (hpacked : Packed a 0 (es.map (·.info))) (hend : packedEnd a 0 (es.map (·.info)) = size)
    (hdata : loadData alloc params (es.map (·.info)) size (file.1.drop offset) = .ok data) :
    ggufInitFromFileImpl alloc params file =
      .ok { version, kv := kvs, info := es.map (·.info), alignment := a, offset, size, data } := by
  obtain ⟨-, -, -, -, halign⟩ := id hkvs
  simp only [ggufInitFromFileImpl, Except.bind_eq_ok, Prod.exists]
  exact ⟨_, _, _, _, _, readKvSection_eq_ok.2 hkvs, _, _, _,
    (readInfoSection_eq_ok halign.1 halign.lt).2 ⟨_, hn, rfl, hinfo, hpacked, hend⟩, _, hdata, rfl⟩

/-- The reader accepts the file that was written. -/
theorem GgufInv.read_eq (h : GgufInv ctx)
    (halloc : Ample alloc (writeMeta ctx ++ ctx.tail).length)
    (hlen : (writeMeta ctx ++ ctx.tail).length < 2 ^ 63) (params : GgufInitParams) :
    ∃ a offset, ggufInitFromFileImpl alloc params ⟨writeMeta ctx ++ ctx.tail, hlen⟩ =
      .ok { version := ggufVersion, kv := ctx.kv
            info := (ctx.info.map (·.entry)).map (·.info), alignment := a, offset
            size := ctx.dataBytes.length
            data := if params.ctx ∧ ¬ params.noAlloc then some ctx.dataBytes else none } := by
  have hfile := halloc.file_lt
  have hge := h.length_ge
  obtain ⟨a, halign, hdef⟩ := h.kv.exists_alignmentIs h.length_lt
  have ha : ctx.info = [] ∨ a = ggufDefaultAlignment := h.aligned.imp_right hdef
  obtain ⟨rest, hread⟩ := readData_eq ha
  obtain ⟨hpacked, hend⟩ := h.packed (by omega) ha
  have hkvs : KvsAt alloc ctx.kv.length ctx.kv _ _ :=
    kvsAt_written halloc h.kv.nodup (by
      simp only [writeMeta, List.length_append]
      omega) (ctx.info.flatMap writeTensorMeta ++ ctx.tail)
  have hoff : ∀ ti ∈ ctx.info, ti.offset ≤ (writeMeta ctx ++ ctx.tail).length := by
    intro ti hti
    have hmem := List.mem_map_of_mem (f := (·.info)) (List.mem_map_of_mem (f := (·.entry)) hti)
    obtain ⟨-, -, hle⟩ := (hpacked.spec halign.1 (Nat.dvd_zero a)).1 _ hmem
    change ti.offset + _ ≤ _ at hle
    omega
  have htensors := tensorsAt_written h.infos.writable h.infos.nodup halloc (by omega) hoff ctx.tail
  have hpos : (writeMeta ctx ++ ctx.tail).length - ctx.tail.length = (writeMeta ctx).length := by
    rw [List.length_append, Nat.add_sub_cancel]
  have hround := Align.roundUp_lt (x := (writeMeta ctx).length) (Nat.pos_of_isPowerOfTwo halign.1)
  have hlt := halign.lt
  exact ⟨a, roundUp (writeMeta ctx).length a,
    ggufInitFromFileImpl_eq_ok ⟨writeMeta ctx ++ ctx.tail, hlen⟩ params
      ⟨_, _, h.header hfile, hkvs, halign⟩
      ⟨_, htensors, congrArg (roundUp · a) hpos.symm, by
        simp only [List.length_append] at hfile
        omega⟩ (List.length_map ..) hpacked hend (h.loadData_eq halloc hread params)⟩

/-- The invariant is enough for the round trip. -/
theorem GgufInv.reads_back (h : GgufInv ctx) : RoundTrips ctx := by
  refine ⟨_, h.infos.write_eq h.alignment, fun alloc halloc => ?_⟩
  have hfile := halloc.file_lt
  have hlen : (writeMeta ctx ++ ctx.tail).length < 2 ^ 63 := by omega
  refine ⟨hlen, fun params => ?_⟩
  obtain ⟨a, offset, hread⟩ := h.read_eq halloc hlen params
  refine ⟨_, hread, ⟨rfl, h.sameTensor, fun blob hblob ti hti d hd => ?_⟩, ?_⟩
  · obtain rfl : ctx.dataBytes = blob := by
      simp only at hblob
      split_ifs at hblob
      · exact Option.some.inj hblob
      · cases hblob
    have htake :=
      take_drop_tensorBytes ggufDefaultAlignment_pos h.infos.offsets h.infos.writable hti
    rwa [Option.mem_def.1 hd] at htake
  · simp

/-- Every context that calls which meet the condition lead to is read as it was written. -/
theorem GgufReachable.roundTrips {ctx : GgufContext} (h : GgufReachable ctx) : RoundTrips ctx :=
  h.inv.reads_back

/-- A tensor of one byte. -/
def byteTensor (name : UInt8) : GgmlTensor :=
  { name := [name], type := 24, ne0 := 1, ne1 := 1, ne2 := 1, ne3 := 1
    nb0 := 1, nb1 := 1, nb2 := 1, nb3 := 1, data := some [7] }

theorem byteTensor_proper {name : UInt8} (h : name ≠ 0) : (byteTensor name).Proper where
  name_lt := by simp [byteTensor, ggmlMaxName]
  name_ne := by simpa [byteTensor] using h.symm
  ne0_lt := by simp [byteTensor]
  ne1_lt := by simp [byteTensor]
  ne2_lt := by simp [byteTensor]
  ne3_lt := by simp [byteTensor]
  blck_ne := by change ggmlBlckSize 24 ≠ 0; decide
  blck_dvd := one_dvd _
  data_lt := by simp [byteTensor]

theorem byteTensor_condition (name : UInt8) : TensorCondition (byteTensor name) where
  pos1 := one_ne_zero
  pos2 := one_ne_zero
  pos3 := one_ne_zero
  isContiguous := by
    simp [byteTensor, ggmlIsContiguous, ggmlBlckSize, ggmlTypeSize, ggmlTypeTraits, sizeT,
      contiguousDim, Except.ok_bind_eq]
  nb0 := .inr rfl
  hasData := ⟨[7], rfl, by
    simp [byteTensor, GgmlTensor.byteSize, ggmlBlckSize, ggmlTypeSize, ggmlTypeTraits]⟩

/-- The call that adds a tensor of one byte. -/
def addByte (name : UInt8) (h : name ≠ 0) : GgufOp := .addTensor ⟨_, byteTensor_proper h⟩

theorem roundTrips_byteTensor :
    RoundTrips { ggufInitEmpty with info := [{ t := byteTensor 97, offset := 0 }] } :=
  GgufReachable.roundTrips ⟨_, [addByte 97 (by decide)], rfl,
    .single ⟨⟨by simp [ggufInitEmpty, DefaultAligned], byteTensor_condition 97⟩, rfl⟩⟩

theorem uint32_scalar : GgufType.uint32 ≠ .array ∧ GgufType.uint32 ≠ .string ∧
    GgufType.uint32 ≠ .bool := by decide

/-- The call that sets the alignment. -/
def setAlignment (val : UInt32) : GgufOp :=
  .set ⟨ggufKeyGeneralAlignment, by decide⟩ (numVal .uint32 uint32_scalar val.toNat)

/-- A context with the alignment 64 and two tensors. -/
def alignedContext : GgufContext :=
  { ggufInitEmpty with
    kv := [⟨ggufKeyGeneralAlignment, false, .uint32, [toLE 4 64], by decide, by decide,
      by simp [IsElem, ggufTypeSize], by simp⟩]
    info := [{ t := byteTensor 97, offset := 0 }, { t := byteTensor 98, offset := 32 }] }

/-- The offsets are computed with the default alignment, and read with that of the key. -/
theorem not_roundTrips :
    ¬ ∀ ctx, Transition.Reachable (· = ggufInitEmpty)
      (Transition.Guarded (fun _ op => ∀ t, op = .addTensor t → TensorCondition t.1)
        fun ctx op ctx' => ctx.step op = .ok ctx') ctx → RoundTrips ctx := by
  intro h
  have hadd : ∀ {name hname t}, addByte name hname = .addTensor t → TensorCondition t.1 := by
    rintro name hname t ht
    obtain rfl := GgufOp.addTensor.inj ht
    exact byteTensor_condition name
  obtain ⟨bs, hbs, hread⟩ := h alignedContext
    ⟨_, [setAlignment 64, addByte 97 (by decide), addByte 98 (by decide)], rfl,
      .cons ⟨by simp [setAlignment], rfl⟩ (.cons ⟨fun t => hadd, rfl⟩
        (.single ⟨fun t => hadd, rfl⟩))⟩
  have hinfos : InfosInv ggufDefaultAlignment alignedContext.info :=
    ⟨by decide, by
      simp only [alignedContext, List.forall_mem_cons]
      exact ⟨.of_condition (byteTensor_proper (by decide)) (byteTensor_condition 97),
        .of_condition (byteTensor_proper (by decide)) (byteTensor_condition 98), by simp⟩,
      rfl, rfl, trivial⟩
  have hwrite := hinfos.write_eq rfl
  obtain rfl : _ = bs := Except.ok.inj (hwrite.symm.trans hbs)
  have hample : Ample (· < 2 ^ 62) (writeMeta alignedContext ++ alignedContext.tail).length :=
    ⟨fun m hm => by
      have hlen : (writeMeta alignedContext ++ alignedContext.tail).length = 192 := by
        decide +kernel
      rw [hlen] at hm
      simp only [decide_eq_true_eq]
      omega, fun m hm => by
      simp only [decide_eq_true_eq] at hm
      omega⟩
  obtain ⟨hlen, hread⟩ := hread _ hample
  obtain ⟨c, hc, -⟩ := hread ⟨true, false⟩
  have hnull : ∀ hlen, ggufInitFromFileImpl (· < 2 ^ 62) ⟨true, false⟩
      ⟨writeMeta alignedContext ++ alignedContext.tail, hlen⟩ = .error .nullptr := by
    decide +kernel
  rw [hnull hlen] at hc
  cases hc

end RoundTrip

end LamaServer
