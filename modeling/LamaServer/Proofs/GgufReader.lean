import LamaServer.Proofs.GgufTensors

/-!
# What a file can do to the GGUF reader

`ggufInitFromFileImpl_robust_iff`: the reader returns `nullptr` or a context whose tensors are where
it says, unless the file has one of the defects that `Defect` lists. Each is told by the bytes of
the file alone, and each is reached.
-/

namespace LamaServer

open Format (toLE ofLE)
open Align (roundUp)

/-- The file starts with the magic, a version, and the two counts. -/
def HeaderAt (version nTensors nKv : Nat) (bs rest : List UInt8) : Prop :=
  version ≠ 1 ∧ version ≤ ggufVersion ∧ nTensors ≤ (2 ^ 64 - 1) / ggufTensorInfoSize ∧
    nKv ≤ (2 ^ 64 - 1) / ggufKvSize ∧
    bs = ggufMagic ++ (toLE 4 version ++ (toLE 8 nTensors ++ (toLE 8 nKv ++ rest)))

theorem readCount_eq_ok {elemSize n : Nat} {bs rest : List UInt8} (h : 2 ≤ elemSize) :
    readCount elemSize bs = .ok (n, rest) ↔
      n ≤ (2 ^ 64 - 1) / elemSize ∧ bs = toLE 8 n ++ rest := by
  simp only [readCount, Except.bind_eq_ok, Prod.exists]
  constructor
  · rintro ⟨z, bs, hz, hif⟩
    split_ifs at hif with hcheck
    obtain ⟨rfl, rfl⟩ := by simpa [Except.pure_eq_ok] using hif
    rw [not_or] at hcheck
    exact ⟨by omega, (readInt64_nonneg hz hcheck.1).2⟩
  · rintro ⟨hn, rfl⟩
    have hlt : n < 2 ^ 63 := hn.trans_lt ((Nat.div_le_div_left h (by omega)).trans_lt (by norm_num))
    refine ⟨n, rest, readInt64_eq_ok.2 ⟨hlt, rfl⟩, ?_⟩
    rw [if_neg (by omega)]
    rfl

theorem not_faults_readCount {elemSize : Nat} {bs : List UInt8} :
    ¬ Faults (readCount elemSize bs) := by
  simp only [readCount, Except.throws_bind, not_faults_readInt64, false_or, Prod.exists,
    not_exists, not_and]
  intro z bs' _
  split_ifs <;> simp

theorem readHeader_eq_ok {version nTensors nKv : Nat} {bs rest : List UInt8} :
    readHeader bs = .ok (version, nTensors, nKv, rest) ↔
      HeaderAt version nTensors nKv bs rest := by
  simp only [readHeader, Except.bind_eq_ok, Prod.exists, readBytes_eq_ok]
  constructor
  · rintro ⟨magic, bs, ⟨-, rfl⟩, h⟩
    split_ifs at h with hmagic
    rw [not_not] at hmagic
    subst hmagic
    simp only [Except.bind_eq_ok, Prod.exists, readUnsigned_eq_ok] at h
    obtain ⟨v, bs, ⟨-, rfl⟩, h⟩ := h
    split_ifs at h with hv
    simp only [Except.bind_eq_ok, Prod.exists,
      readCount_eq_ok (show 2 ≤ ggufTensorInfoSize by decide),
      readCount_eq_ok (show 2 ≤ ggufKvSize by decide), Except.pure_eq_ok, Prod.mk.injEq] at h
    obtain ⟨_, _, ⟨hnt, rfl⟩, _, _, ⟨hnk, rfl⟩, rfl, rfl, rfl, rfl⟩ := h
    rw [not_or, not_lt] at hv
    exact ⟨hv.1, hv.2, hnt, hnk, rfl⟩
  · rintro ⟨hv1, hv, hnt, hnk, rfl⟩
    refine ⟨ggufMagic, _, ⟨by decide, rfl⟩, ?_⟩
    rw [if_neg (not_not.2 rfl)]
    simp only [Except.bind_eq_ok, Prod.exists, readUnsigned_eq_ok]
    refine ⟨version, _, ⟨hv.trans_lt (by decide), rfl⟩, ?_⟩
    rw [if_neg (not_or.2 ⟨hv1, not_lt.2 hv⟩)]
    simp only [Except.bind_eq_ok, Prod.exists,
      readCount_eq_ok (show 2 ≤ ggufTensorInfoSize by decide),
      readCount_eq_ok (show 2 ≤ ggufKvSize by decide), Except.pure_eq_ok, Prod.mk.injEq]
    exact ⟨nTensors, _, ⟨hnt, rfl⟩, nKv, rest, ⟨hnk, rfl⟩, trivial, rfl, rfl, rfl⟩

theorem not_faults_readHeader {bs : List UInt8} : ¬ Faults (readHeader bs) := by
  simp only [readHeader, Except.throws_bind, not_faults_readBytes, false_or, Prod.exists,
    not_exists, not_and]
  intro magic bs' _
  split_ifs
  · simp
  · simp only [Except.throws_bind, not_faults_readUnsigned, false_or, Prod.exists, not_exists,
      not_and]
    intro v bs' _
    split_ifs
    · simp
    · simp [not_faults_readCount]

section Alignment

variable {kvs : List GgufKv} {a : Nat}

/-- A key-value pair that is a single number, or an array of one number, of 32 bits. -/
def IsU32 (kvs : List GgufKv) (i : Int) (kv : GgufKv) : Prop :=
  0 ≤ i ∧ kvs[i.toNat]? = some kv ∧ kv.ne = 1 ∧ kv.type = .uint32

/-- The alignment that the pairs give. -/
def AlignmentIs (kvs : List GgufKv) (a : Nat) : Prop :=
  a.isPowerOfTwo ∧ (alignmentIdx kvs = -1 ∧ a = ggufDefaultAlignment ∨
    ∃ kv, IsU32 kvs (alignmentIdx kvs) kv ∧ a = ofLE kv.data)

/-- The key of the alignment is there, and its value is not one 32-bit number. -/
def BadAlignmentKey (kvs : List GgufKv) : Prop :=
  alignmentIdx kvs ≠ -1 ∧ ¬ ∃ kv, IsU32 kvs (alignmentIdx kvs) kv

theorem ggufGetValU32_eq_ok {i : Int} :
    ggufGetValU32 kvs i = .ok a ↔ ∃ kv, IsU32 kvs i kv ∧ a = ofLE kv.data := by
  unfold ggufGetValU32 IsU32
  by_cases hi : 0 ≤ i
  · rw [if_pos hi]
    rcases hkv : kvs[i.toNat]? with _ | kv
    · simp
    · simp only [hi, true_and, Option.some.injEq]
      split_ifs with hcheck
      · simp [hcheck, eq_comm]
      · simpa using fun h1 h2 => absurd ⟨h1, h2⟩ hcheck
  · simp [hi]

theorem faults_ggufGetValU32 {i : Int} :
    Faults (ggufGetValU32 kvs i) ↔ ¬ ∃ kv, IsU32 kvs i kv := by
  rw [faults_iff]
  · simp [ggufGetValU32_eq_ok]
  · unfold ggufGetValU32
    split_ifs
    · split
      · split_ifs <;> simp
      · simp
    · simp

theorem readAlignment_eq_ok : readAlignment kvs = .ok a ↔ AlignmentIs kvs a := by
  have hpow : ∀ b : Nat, ¬ (b = 0 ∨ b &&& (b - 1) ≠ 0) ↔ b.isPowerOfTwo := fun b => by
    rw [← Nat.ne_zero_and_sub_one_eq_zero_iff_isPowerOfTwo, not_or, not_not]
  simp only [readAlignment, Except.bind_eq_ok, AlignmentIs, keyAlignment]
  constructor
  · rintro ⟨b, hb, h⟩
    split_ifs at h with hcheck
    obtain rfl := Except.pure_eq_ok.1 h
    refine ⟨(hpow b).1 hcheck, ?_⟩
    split_ifs at hb with hidx
    · exact .inl ⟨hidx, (Except.pure_eq_ok.1 hb).symm⟩
    · exact .inr (ggufGetValU32_eq_ok.1 hb)
  · rintro ⟨ha, h⟩
    refine ⟨a, ?_, ?_⟩
    · rcases h with ⟨hidx, rfl⟩ | ⟨kv, hkv, rfl⟩
      · exact if_pos hidx
      · rw [if_neg (by have := hkv.1; omega)]
        exact ggufGetValU32_eq_ok.2 ⟨kv, hkv, rfl⟩
    · rw [if_neg ((hpow a).2 ha)]
      rfl

theorem faults_readAlignment : Faults (readAlignment kvs) ↔ BadAlignmentKey kvs := by
  have hcheck : ∀ b : Nat,
      ¬ Faults (if b = 0 ∨ b &&& (b - 1) ≠ 0 then .error .nullptr else pure b) := fun b => by
    split_ifs <;> simp
  simp only [readAlignment, Except.throws_bind, hcheck, and_false, exists_false, or_false,
    BadAlignmentKey, keyAlignment]
  split_ifs with hidx
  · simp [hidx]
  · simp [hidx, faults_ggufGetValU32]

theorem AlignmentIs.lt (h : AlignmentIs kvs a) : a < 2 ^ 32 := by
  rcases h.2 with ⟨-, rfl⟩ | ⟨kv, ⟨-, -, hne, htype⟩, rfl⟩
  · decide
  · obtain ⟨e, he⟩ := List.length_eq_one_iff.1 hne
    have hlen : kv.data.length = 4 := by
      have := (kv.isElem e (by simp [he])).1 (by simp [htype])
      simpa [GgufKv.data, he, htype, ggufTypeSize] using this
    exact (Format.ofLE_lt kv.data).trans_le (by rw [hlen]; norm_num)

end Alignment

section Reader

variable {alloc : Nat → Bool} {params : GgufInitParams} {file : GgufFile}

theorem dataOffset_eq_ok {pos a n : Nat} (ha : a.isPowerOfTwo) (hlt : pos + a < 2 ^ 64) :
    dataOffset pos a = .ok n ↔ roundUp pos a < 2 ^ 63 ∧ roundUp pos a = n := by
  simp only [dataOffset, Except.bind_eq_ok, ggmlPad_eq_ok ha]
  constructor
  · rintro ⟨_, ⟨-, rfl⟩, h⟩
    split_ifs at h with h63
    exact ⟨h63, Except.pure_eq_ok.1 h⟩
  · rintro ⟨h63, rfl⟩
    exact ⟨_, ⟨hlt, rfl⟩, by rw [if_pos h63]; rfl⟩

theorem not_faults_dataOffset {pos a : Nat} (hlt : pos + a < 2 ^ 64) :
    ¬ Faults (dataOffset pos a) := by
  simp only [dataOffset, Except.throws_bind, faults_ggmlPad, not_le.2 hlt, false_or, not_exists,
    not_and]
  intro y _
  split_ifs <;> simp

/-- The file up to the alignment `a`; the tensor infos start `bs`. -/
def KvSection (alloc : Nat → Bool) (file : GgufFile) (version nTensors : Nat) (kvs : List GgufKv)
    (a : Nat) (bs : List UInt8) : Prop :=
  ∃ nKv rest, HeaderAt version nTensors nKv file.1 rest ∧ KvsAt alloc nKv kvs rest bs ∧
    AlignmentIs kvs a

/-- The tensor infos of the file, after which `fseek` reaches the data section. -/
def InfoSection (alloc : Nat → Bool) (file : GgufFile) (a : Nat) (es : List GgufTensorEntry)
    (bs : List UInt8) (offset : Nat) : Prop :=
  ∃ rest, TensorsAt alloc es bs rest ∧ offset = roundUp (file.1.length - rest.length) a ∧
    offset < 2 ^ 63

/-- What a file can have on which the reader does not return, or computes with wrapped sizes. -/
inductive Defect (alloc : Nat → Bool) (params : GgufInitParams) (file : GgufFile) : Prop
  /-- A key-value pair with an empty key. -/
  | emptyKey {version nTensors nKv n : Nat} {kvs : List GgufKv} {bs rest : List UInt8}
      (header : HeaderAt version nTensors nKv file.1 bs) (kvsAt : KvsAt alloc n kvs bs rest)
      (lt : n < nKv) (key : EmptyKey alloc rest)
  /-- A single string longer than the memory granted. -/
  | oversizedValue {version nTensors nKv n : Nat} {kvs : List GgufKv} {bs rest : List UInt8}
      (header : HeaderAt version nTensors nKv file.1 bs) (kvsAt : KvsAt alloc n kvs bs rest)
      (lt : n < nKv) (value : OversizedValue alloc (kvs.map (·.key)) rest)
  /-- An alignment that is not one 32-bit number. -/
  | alignmentKey {version nTensors nKv : Nat} {kvs : List GgufKv} {bs rest : List UInt8}
      (header : HeaderAt version nTensors nKv file.1 bs) (kvsAt : KvsAt alloc nKv kvs bs rest)
      (key : BadAlignmentKey kvs)
  /-- A dimension that is zero, and by which the number of elements is divided. -/
  | zeroDimension {version nTensors a : Nat} {kvs : List GgufKv} {es : List GgufTensorEntry}
      {bs rest : List UInt8} (kvSection : KvSection alloc file version nTensors kvs a bs)
      (tensorsAt : TensorsAt alloc es bs rest) (lt : es.length < nTensors)
      (dims : ZeroDimension alloc (es.map fun e => cString e.name) rest)
  /-- A tensor with a stride that is not a `size_t`. -/
  | oversizedStride {version nTensors a : Nat} {kvs : List GgufKv} {es : List GgufTensorEntry}
      {bs rest : List UInt8} (kvSection : KvSection alloc file version nTensors kvs a bs)
      (tensorsAt : TensorsAt alloc es bs rest) (lt : es.length < nTensors)
      (stride : OversizedStride alloc (es.map fun e => cString e.name) rest)
  /-- A tensor whose size, or the end of whose data, is not a `size_t`. -/
  | oversizedTensor {version a offset : Nat} {kvs : List GgufKv} {es : List GgufTensorEntry}
      {bs : List UInt8} (kvSection : KvSection alloc file version es.length kvs a bs)
      (infoSection : InfoSection alloc file a es bs offset) (tensor : OversizedTensor a es)
  /-- Tensors that no pool can be made for, when one is asked for. -/
  | oversizedPool {version a offset : Nat} {kvs : List GgufKv} {es : List GgufTensorEntry}
      {bs : List UInt8} (kvSection : KvSection alloc file version es.length kvs a bs)
      (infoSection : InfoSection alloc file a es bs offset)
      (packed : Packed a 0 (es.map (·.info))) (ctx : params.ctx = true)
      (pool : OversizedPool alloc
        (poolBytes params.noAlloc es.length (packedEnd a 0 (es.map (·.info)))))

theorem map_name_info (es : List GgufTensorEntry) :
    (es.map (·.info)).map (·.t.name) = es.map fun e => cString e.name := by
  rw [List.map_map]
  rfl

theorem tensorFits_of_packed : ∀ {es : List GgufTensorEntry} {a size : Nat},
    (∀ e ∈ es, e.ReadableShape) → Packed a size (es.map (·.info)) →
      ∀ e ∈ es, TensorFits e.tensor
  | [], _, _, _, _ => by simp
  | e :: es, a, size, h, hp => by
    obtain ⟨he, hes⟩ := List.forall_mem_cons.1 h
    obtain ⟨-, hfit, hrest⟩ := hp
    have hlt := (sizeFits_info.1 hfit).padded_lt
    exact List.forall_mem_cons.2 ⟨⟨he.wellShaped, (sizeFits_info.1 hfit).row_lt, by omega⟩,
      tensorFits_of_packed hes hrest⟩

theorem faults_readKvs {n : Nat} {bs : List UInt8} :
    Faults (Except.iterate (readKv alloc) n ([], bs)) ↔ ∃ k < n, ∃ kvs rest,
      KvsAt alloc k kvs bs rest ∧
        (EmptyKey alloc rest ∨ OversizedValue alloc (kvs.map (·.key)) rest) := by
  unfold Faults
  simp only [Except.throws_iterate, Prod.exists, readKvs_eq_ok]
  exact exists_congr fun k => and_congr_right fun _ => exists_congr fun kvs =>
    exists_congr fun rest => and_congr_right fun _ => faults_readKv

theorem faults_readTensorInfos {n : Nat} {bs : List UInt8} :
    Faults (Except.iterate (readTensorInfo alloc) n ([], bs)) ↔ ∃ es rest,
      es.length < n ∧ TensorsAt alloc es bs rest ∧
        (ZeroDimension alloc (es.map fun e => cString e.name) rest ∨
          OversizedStride alloc (es.map fun e => cString e.name) rest) := by
  unfold Faults
  simp only [Except.throws_iterate, Prod.exists, readTensorInfos_eq_ok]
  constructor
  · rintro ⟨_, hk, _, rest, ⟨es, rfl, hes, rfl⟩, h⟩
    exact ⟨es, rest, hk, hes, map_name_info es ▸ faults_readTensorInfo.1 h⟩
  · rintro ⟨es, rest, hk, hes, h⟩
    rw [← map_name_info] at h
    exact ⟨es.length, hk, es.map (·.info), rest, ⟨es, rfl, hes, rfl⟩, faults_readTensorInfo.2 h⟩

theorem faults_loadData {es : List GgufTensorEntry} {size : Nat} {bs : List UInt8}
    (h : ∀ e ∈ es, TensorFits e.tensor) :
    Faults (loadData alloc params (es.map (·.info)) size bs) ↔ params.ctx = true ∧
      OversizedPool alloc (poolBytes params.noAlloc es.length size) := by
  unfold loadData
  split_ifs with hctx
  · simp [hctx, faults_loadTensors h]
  · simp [hctx]

theorem readKvSection_eq_ok {version nTensors a : Nat} {kvs : List GgufKv} {bs : List UInt8} :
    readKvSection alloc file.1 = .ok (version, nTensors, kvs, a, bs) ↔
      KvSection alloc file version nTensors kvs a bs := by
  simp only [readKvSection, Except.bind_eq_ok, Prod.exists, readHeader_eq_ok, readKvs_eq_ok,
    ggmlAssert_eq_ok, readAlignment_eq_ok, Except.pure_eq_ok, Prod.mk.injEq]
  constructor
  · rintro ⟨_, _, nKv, rest, hh, _, _, hk, -, -, _, ha, rfl, rfl, rfl, rfl, rfl⟩
    exact ⟨nKv, rest, hh, hk, ha⟩
  · rintro ⟨nKv, rest, hh, hk, ha⟩
    exact ⟨version, nTensors, nKv, rest, hh, kvs, bs, hk, (), hk.length, a, ha, rfl, rfl, rfl, rfl,
      rfl⟩

theorem faults_readKvSection : Faults (readKvSection alloc file.1) ↔
    ∃ version nTensors nKv bs, HeaderAt version nTensors nKv file.1 bs ∧
      ((∃ k < nKv, ∃ kvs rest, KvsAt alloc k kvs bs rest ∧
        (EmptyKey alloc rest ∨ OversizedValue alloc (kvs.map (·.key)) rest)) ∨
      ∃ kvs rest, KvsAt alloc nKv kvs bs rest ∧ BadAlignmentKey kvs) := by
  simp only [readKvSection, Except.throws_bind, not_faults_readHeader, false_or, Prod.exists,
    readHeader_eq_ok, faults_readKvs, readKvs_eq_ok, faults_ggmlAssert, ggmlAssert_eq_ok,
    faults_readAlignment, Except.not_throws_pure, and_false, exists_false, or_false]
  refine exists_congr fun version => exists_congr fun nTensors => exists_congr fun nKv =>
    exists_congr fun bs => and_congr_right fun _ => or_congr_right <| exists_congr fun kvs =>
    exists_congr fun rest => and_congr_right fun hk => ?_
  simp [hk.length]

theorem readInfoSection_eq_ok {nTensors a offset size : Nat} {bs : List UInt8}
    {info : List GgufTensorInfo} (ha : a.isPowerOfTwo) (hlt : a < 2 ^ 32) :
    readInfoSection alloc file.1.length nTensors a bs = .ok (info, offset, size) ↔
      ∃ es, es.length = nTensors ∧ info = es.map (·.info) ∧ InfoSection alloc file a es bs offset ∧
        Packed a 0 info ∧ packedEnd a 0 info = size := by
  have hpos : ∀ n, file.1.length - n + a < 2 ^ 64 := fun n => by
    have := file.2
    omega
  simp only [readInfoSection, Except.bind_eq_ok, Prod.exists, readTensorInfos_eq_ok,
    ggmlAssert_eq_ok, dataOffset_eq_ok ha (hpos _), Except.pure_eq_ok, Prod.mk.injEq]
  constructor
  · rintro ⟨_, rest, ⟨es, rfl, hes, rfl⟩, -, -, _, ⟨h63, rfl⟩, _, hsize, rfl, rfl, rfl⟩
    obtain ⟨hp, hend⟩ := (dataSize_eq_ok ha fun e he => (hes.1 e he).toReadableShape).1 hsize
    exact ⟨es, rfl, rfl, ⟨rest, hes, rfl, h63⟩, hp, hend⟩
  · rintro ⟨es, rfl, rfl, ⟨rest, hes, rfl, h63⟩, hp, rfl⟩
    exact ⟨es.map GgufTensorEntry.info, rest, ⟨es, rfl, hes, rfl⟩, (), List.length_map .., _,
      ⟨h63, rfl⟩, _, (dataSize_eq_ok ha fun e he => (hes.1 e he).toReadableShape).2 ⟨hp, rfl⟩,
      rfl, rfl, rfl⟩

theorem faults_readInfoSection {nTensors a : Nat} {bs : List UInt8} (ha : a.isPowerOfTwo)
    (hlt : a < 2 ^ 32) : Faults (readInfoSection alloc file.1.length nTensors a bs) ↔
      (∃ es rest, es.length < nTensors ∧ TensorsAt alloc es bs rest ∧
        (ZeroDimension alloc (es.map fun e => cString e.name) rest ∨
          OversizedStride alloc (es.map fun e => cString e.name) rest)) ∨
      ∃ es offset, es.length = nTensors ∧ InfoSection alloc file a es bs offset ∧
        OversizedTensor a es := by
  have hpos : ∀ n, file.1.length - n + a < 2 ^ 64 := fun n => by
    have := file.2
    omega
  simp only [readInfoSection, Except.throws_bind, Prod.exists, faults_readTensorInfos,
    readTensorInfos_eq_ok, faults_ggmlAssert, ggmlAssert_eq_ok, not_faults_dataOffset (hpos _),
    dataOffset_eq_ok ha (hpos _), Except.not_throws_pure, and_false, exists_false, or_false,
    false_or]
  refine or_congr_right ⟨?_, ?_⟩
  · rintro ⟨_, rest, ⟨es, rfl, hes, rfl⟩, hn | ⟨-, -, _, ⟨h63, rfl⟩, hf⟩⟩
    · exact absurd (List.length_map ..) hn
    · exact ⟨es, _, rfl, ⟨rest, hes, rfl, h63⟩,
        (faults_dataSize ha fun e he => (hes.1 e he).toReadableShape).1 hf⟩
  · rintro ⟨es, _, rfl, ⟨rest, hes, rfl, h63⟩, hover⟩
    exact ⟨es.map (·.info), rest, ⟨es, rfl, hes, rfl⟩, .inr ⟨(), List.length_map .., _, ⟨h63, rfl⟩,
      (faults_dataSize ha fun e he => (hes.1 e he).toReadableShape).2 hover⟩⟩

theorem faults_ggufInitFromFileImpl :
    Faults (ggufInitFromFileImpl alloc params file) ↔ Defect alloc params file := by
  simp only [ggufInitFromFileImpl, Except.throws_bind, Prod.exists, faults_readKvSection,
    readKvSection_eq_ok, Except.not_throws_pure, and_false, exists_false, or_false]
  constructor
  · rintro (⟨version, nTensors, nKv, bs, hh, ⟨k, hk, kvs, rest, hkvs, he | hv⟩ |
      ⟨kvs, rest, hkvs, ha⟩⟩ | ⟨version, nTensors, kvs, a, bs, hk, h⟩)
    · exact .emptyKey hh hkvs hk he
    · exact .oversizedValue hh hkvs hk hv
    · exact .alignmentKey hh hkvs ha
    · obtain ⟨-, -, -, -, halign⟩ := id hk
      obtain h | ⟨_, offset, size, hi, h⟩ := h
      · obtain ⟨es, rest, hlt, hes, hz | hs⟩ | ⟨es, offset, rfl, hi, ho⟩ :=
          (faults_readInfoSection halign.1 halign.lt).1 h
        · exact .zeroDimension hk hes hlt hz
        · exact .oversizedStride hk hes hlt hs
        · exact .oversizedTensor hk hi ho
      · obtain ⟨es, rfl, rfl, hinfo, hp, rfl⟩ := (readInfoSection_eq_ok halign.1 halign.lt).1 hi
        have hshape : ∀ e ∈ es, e.ReadableShape := by
          obtain ⟨rest, hes, -⟩ := hinfo
          exact fun e he => (hes.1 e he).toReadableShape
        obtain ⟨hctx, hpool⟩ := (faults_loadData (tensorFits_of_packed hshape hp)).1 h
        exact .oversizedPool hk hinfo hp hctx hpool
  · intro h
    rcases h with ⟨hh, hkvs, hk, he⟩ | ⟨hh, hkvs, hk, hv⟩ | ⟨hh, hkvs, ha⟩ | ⟨hk, hes, hlt, hz⟩ |
      ⟨hk, hes, hlt, hs⟩ | ⟨hk, hi, ho⟩ | ⟨hk, hi, hp, hctx, hpool⟩
    · exact .inl ⟨_, _, _, _, hh, .inl ⟨_, hk, _, _, hkvs, .inl he⟩⟩
    · exact .inl ⟨_, _, _, _, hh, .inl ⟨_, hk, _, _, hkvs, .inr hv⟩⟩
    · exact .inl ⟨_, _, _, _, hh, .inr ⟨_, _, hkvs, ha⟩⟩
    all_goals
      obtain ⟨-, -, -, -, halign⟩ := id hk
      refine .inr ⟨_, _, _, _, _, hk, ?_⟩
    · exact .inl ((faults_readInfoSection halign.1 halign.lt).2 (.inl ⟨_, _, hlt, hes, .inl hz⟩))
    · exact .inl ((faults_readInfoSection halign.1 halign.lt).2 (.inl ⟨_, _, hlt, hes, .inr hs⟩))
    · exact .inl ((faults_readInfoSection halign.1 halign.lt).2 (.inr ⟨_, _, rfl, hi, ho⟩))
    · refine .inr ⟨_, _, _, (readInfoSection_eq_ok halign.1 halign.lt).2
        ⟨_, rfl, rfl, hi, hp, rfl⟩, (faults_loadData (tensorFits_of_packed ?_ hp)).2
        ⟨hctx, hpool⟩⟩
      obtain ⟨rest, hes, -⟩ := hi
      exact fun e he => (hes.1 e he).toReadableShape

/-- What is promised of a context: unique keys and names, and tensors whose true sizes fit where
the context says they are. -/
structure GgufContext.Sound (c : GgufContext) : Prop where
  keys : (c.kv.map (·.key)).Nodup
  names : (c.info.map (·.t.name)).Nodup
  aligned : ∀ ti ∈ c.info, c.alignment ∣ ti.offset
  inside : ∀ ti ∈ c.info, ti.offset + ti.t.byteSize ≤ c.size
  disjoint : c.info.Pairwise fun x y => x.offset + x.t.byteSize ≤ y.offset

/-- The reader returns `nullptr` or a sound context. -/
def Robust (alloc : Nat → Bool) (params : GgufInitParams) (file : GgufFile) : Prop :=
  (ggufInitFromFileImpl alloc params file).Ends (· = .nullptr) GgufContext.Sound

theorem sound_of_eq_ok {c : GgufContext} (h : ggufInitFromFileImpl alloc params file = .ok c) :
    c.Sound := by
  simp only [ggufInitFromFileImpl, Except.bind_eq_ok, Prod.exists, readKvSection_eq_ok,
    Except.pure_eq_ok] at h
  obtain ⟨version, nTensors, kvs, a, bs, ⟨nKv, rest, -, hkvs, halign⟩, info, offset, size, hi,
    data, -, rfl⟩ := h
  obtain ⟨es, rfl, rfl, ⟨rest', hes, -⟩, hp, rfl⟩ :=
    (readInfoSection_eq_ok halign.1 halign.lt).1 hi
  obtain ⟨hmem, hpair⟩ := hp.spec halign.1 (Nat.dvd_zero a)
  exact
    { keys := hkvs.nodup
      names := by
        rw [map_name_info]
        exact hes.2.1
      aligned := fun ti hti => (hmem ti hti).2.1
      inside := fun ti hti => (hmem ti hti).2.2
      disjoint := hpair }

/-- The reader does what it should on exactly the files without a defect. -/
theorem ggufInitFromFileImpl_robust_iff (alloc : Nat → Bool) (params : GgufInitParams)
    (file : GgufFile) : Robust alloc params file ↔ ¬ Defect alloc params file := by
  rw [← faults_ggufInitFromFileImpl]
  exact Except.ends_iff_not_throws (fun e => not_not.symm) fun c hc => sound_of_eq_ok hc

end Reader

/-- A file with one tensor, of the dimensions 1 and 0, up to those. -/
def zeroDimensionFile : GgufFile :=
  ⟨ggufMagic ++ (toLE 4 3 ++ (toLE 8 1 ++ (toLE 8 0 ++ (strBytes [97] ++ shapeBytes [1, 0])))),
    by decide⟩

/-- The reader divides by zero, with as much memory as one likes. -/
theorem not_robust :
    ¬ ∀ (alloc : Nat → Bool) (params : GgufInitParams) (file : GgufFile),
      Robust alloc params file := by
  intro h
  have hfile : ggufInitFromFileImpl (fun _ => true) ⟨true, false⟩ zeroDimensionFile =
      .error .divisionByZero := by rfl
  have hends := h (fun _ => true) ⟨true, false⟩ zeroDimensionFile
  rw [Robust, hfile] at hends
  exact absurd (Except.ends_error.1 hends) (by decide)

end LamaServer
