import LamaServer.Lib.Align
import LamaServer.Proofs.GgufKvs

/-!
# The tensors of a GGUF file

What the loop over the tensor infos has read off a file, and the sizes that are computed from them.
-/

namespace LamaServer

open Format (toLE)
open Align (roundUp)

section Tensors

variable {alloc : Nat → Bool}

theorem readInt64_nonneg {bs rest : List UInt8} {z : Int} (h : readInt64 bs = .ok (z, rest))
    (hz : ¬ z < 0) : z.toNat < 2 ^ 63 ∧ bs = toLE 8 z.toNat ++ rest := by
  obtain ⟨n, rfl⟩ := Int.eq_ofNat_of_zero_le (not_lt.1 hz)
  exact readInt64_eq_ok.1 h

theorem readDims_eq_ok : ∀ {n : Nat} {bs rest : List UInt8} {ds : List Nat},
    readDims n bs = .ok (ds, rest) ↔
      ds.length = n ∧ (∀ d ∈ ds, d < 2 ^ 63) ∧ bs = ds.flatMap (toLE 8) ++ rest
  | 0, bs, rest, ds => by
    simp only [readDims, Except.ok.injEq, Prod.mk.injEq]
    constructor
    · rintro ⟨rfl, rfl⟩
      simp
    · rintro ⟨hn, -, rfl⟩
      obtain rfl := List.length_eq_zero_iff.1 hn
      simp
  | n + 1, bs, rest, ds => by
    simp only [readDims, Except.bind_eq_ok, Prod.exists]
    constructor
    · rintro ⟨z, bs', hz, h⟩
      split_ifs at h with hneg
      obtain ⟨hlt, rfl⟩ := readInt64_nonneg hz hneg
      simp only [Except.bind_eq_ok, Prod.exists, readDims_eq_ok, Except.pure_eq_ok,
        Prod.mk.injEq] at h
      obtain ⟨ds, rest, ⟨rfl, hds, rfl⟩, rfl, rfl⟩ := h
      exact ⟨rfl, List.forall_mem_cons.2 ⟨hlt, hds⟩, by simp⟩
    · rintro ⟨hn, hds, rfl⟩
      rcases ds with _ | ⟨d, ds⟩
      · cases hn
      obtain ⟨hd, hds⟩ := List.forall_mem_cons.1 hds
      refine ⟨d, ds.flatMap (toLE 8) ++ rest, readInt64_eq_ok.2 ⟨hd, by simp⟩, ?_⟩
      rw [if_neg (by omega)]
      simp only [Except.bind_eq_ok, Prod.exists, readDims_eq_ok]
      exact ⟨ds, rest, ⟨by simpa using hn, hds, rfl⟩, rfl⟩

theorem not_faults_readDims : ∀ {n : Nat} {bs : List UInt8}, ¬ Faults (readDims n bs)
  | 0, bs => by simp [readDims]
  | n + 1, bs => by
    simp only [readDims, Except.throws_bind, not_faults_readInt64, false_or, Prod.exists,
      not_exists, not_and]
    intro z bs' _
    split_ifs
    · simp
    · simp [not_faults_readDims]

theorem checkElements_eq_ok {ne total : Nat} {u : Unit} :
    checkElements ne total = .ok u ↔ ne ≠ 0 ∧ total < int64Max / ne := by
  unfold checkElements
  split_ifs with h h' <;> simp [h] <;> omega

theorem faults_checkElements {ne total : Nat} : Faults (checkElements ne total) ↔ ne = 0 := by
  unfold checkElements
  split_ifs with h h' <;> simp [h]

/-- The number of elements passes the three divisions. -/
structure ElementsFit (ne0 ne1 ne2 ne3 : Nat) : Prop where
  pos1 : ne1 ≠ 0
  lt1 : ne0 < int64Max / ne1
  pos2 : ne2 ≠ 0
  lt2 : ne0 * ne1 < int64Max / ne2
  pos3 : ne3 ≠ 0
  lt3 : ne0 * ne1 * ne2 < int64Max / ne3

/-- A dimension is zero, and the division by it is reached. -/
def DividesByZero (ne0 ne1 ne2 ne3 : Nat) : Prop :=
  ne1 = 0 ∨ ne0 < int64Max / ne1 ∧ (ne2 = 0 ∨ ne0 * ne1 < int64Max / ne2 ∧ ne3 = 0)

/-- The bytes of a tensor info up to its type. -/
def shapeBytes (ds : List Nat) : List UInt8 := toLE 4 ds.length ++ ds.flatMap (toLE 8)

/-- At most four dimensions, none negative. -/
def ReadableDims (ds : List Nat) : Prop := ds.length ≤ ggmlMaxDims ∧ ∀ d ∈ ds, d < 2 ^ 63

theorem readTensorShape_eq_ok {bs rest : List UInt8} {ds : List Nat} :
    readTensorShape bs = .ok (ds, rest) ↔ ReadableDims ds ∧
      ElementsFit (ds.getD 0 1) (ds.getD 1 1) (ds.getD 2 1) (ds.getD 3 1) ∧
      bs = shapeBytes ds ++ rest := by
  simp only [readTensorShape, Except.bind_eq_ok, Prod.exists, readUnsigned_eq_ok]
  constructor
  · rintro ⟨n, bs, ⟨-, rfl⟩, h⟩
    split_ifs at h with hn
    simp only [Except.bind_eq_ok, Prod.exists, readDims_eq_ok, checkElements_eq_ok,
      Except.pure_eq_ok, Prod.mk.injEq] at h
    obtain ⟨ds, rest, ⟨rfl, hds, rfl⟩, -, h1, -, h2, -, h3, rfl, rfl⟩ := h
    exact ⟨⟨not_lt.1 hn, hds⟩, ⟨h1.1, h1.2, h2.1, h2.2, h3.1, h3.2⟩, by simp [shapeBytes]⟩
  · rintro ⟨⟨hn, hds⟩, h, rfl⟩
    refine ⟨ds.length, ds.flatMap (toLE 8) ++ rest, ⟨?_, by simp [shapeBytes]⟩, ?_⟩
    · exact hn.trans_lt (by decide)
    rw [if_neg (not_lt.2 hn)]
    simp only [Except.bind_eq_ok, Prod.exists, readDims_eq_ok, checkElements_eq_ok,
      Except.pure_eq_ok, Prod.mk.injEq]
    exact ⟨ds, rest, ⟨rfl, hds, rfl⟩, (), ⟨h.pos1, h.lt1⟩, (), ⟨h.pos2, h.lt2⟩, (),
      ⟨h.pos3, h.lt3⟩, rfl, rfl⟩

theorem faults_readTensorShape {bs : List UInt8} :
    Faults (readTensorShape bs) ↔ ∃ ds rest, ReadableDims ds ∧
      DividesByZero (ds.getD 0 1) (ds.getD 1 1) (ds.getD 2 1) (ds.getD 3 1) ∧
      bs = shapeBytes ds ++ rest := by
  simp only [readTensorShape, Except.throws_bind, not_faults_readUnsigned, false_or, Prod.exists,
    readUnsigned_eq_ok]
  constructor
  · rintro ⟨n, bs, ⟨-, rfl⟩, h⟩
    split_ifs at h with hn
    · simp at h
    simp only [Except.throws_bind, not_faults_readDims, false_or, Prod.exists, readDims_eq_ok,
      faults_checkElements, Except.not_throws_pure, and_false, exists_false, or_false] at h
    obtain ⟨ds, rest, ⟨rfl, hds, rfl⟩, h⟩ := h
    refine ⟨ds, rest, ⟨not_lt.1 hn, hds⟩, ?_, by simp [shapeBytes]⟩
    rcases h with h | ⟨_, h1, h | ⟨_, h2, h⟩⟩
    · exact .inl h
    · exact .inr ⟨(checkElements_eq_ok.1 h1).2, .inl h⟩
    · exact .inr ⟨(checkElements_eq_ok.1 h1).2, .inr ⟨(checkElements_eq_ok.1 h2).2, h⟩⟩
  · rintro ⟨ds, rest, ⟨hn, hds⟩, h, rfl⟩
    refine ⟨ds.length, ds.flatMap (toLE 8) ++ rest, ⟨?_, by simp [shapeBytes]⟩, ?_⟩
    · exact hn.trans_lt (by decide)
    rw [if_neg (not_lt.2 hn)]
    simp only [Except.throws_bind, not_faults_readDims, false_or, Prod.exists, readDims_eq_ok,
      faults_checkElements, Except.not_throws_pure, and_false, exists_false, or_false]
    refine ⟨ds, rest, ⟨rfl, hds, rfl⟩, ?_⟩
    have hpos : ∀ {a b : Nat}, a < int64Max / b → b ≠ 0 := by
      rintro a _ h rfl
      simp at h
    rcases h with h | ⟨h1, h | ⟨h2, h⟩⟩
    · exact .inl h
    · exact .inr ⟨(), checkElements_eq_ok.2 ⟨hpos h1, h1⟩, .inl h⟩
    · exact .inr ⟨(), checkElements_eq_ok.2 ⟨hpos h1, h1⟩,
        .inr ⟨(), checkElements_eq_ok.2 ⟨hpos h2, h2⟩, h⟩⟩

theorem readTensorType_eq_ok {ne0 : Nat} {bs rest : List UInt8} {type : GgmlType} :
    readTensorType ne0 bs = .ok (type, rest) ↔ ggmlBlckSize type ≠ 0 ∧ ggmlBlckSize type ∣ ne0 ∧
      bs = toLE 4 type ++ rest := by
  simp only [readTensorType, Except.bind_eq_ok, Prod.exists, readUnsigned_eq_ok]
  constructor
  · rintro ⟨n, bs, ⟨-, rfl⟩, h⟩
    split_ifs at h with hn hb
    obtain ⟨rfl, rfl⟩ := by simpa [Except.pure_eq_ok] using h
    rw [not_or, not_not] at hb
    exact ⟨hb.1, Nat.dvd_of_mod_eq_zero hb.2, rfl⟩
  · rintro ⟨hb, hdvd, rfl⟩
    refine ⟨type, rest, ⟨type.2.trans (by decide), rfl⟩, ?_⟩
    rw [dif_pos type.2, if_neg (by simp [hb, Nat.mod_eq_zero_of_dvd hdvd])]
    rfl

theorem not_faults_readTensorType {ne0 : Nat} {bs : List UInt8} :
    ¬ Faults (readTensorType ne0 bs) := by
  simp only [readTensorType, Except.throws_bind, not_faults_readUnsigned, false_or, Prod.exists,
    not_exists, not_and]
  intro n bs' _
  split_ifs <;> simp

namespace GgmlTensor

/-- The bytes of a row, when the blocks divide it. -/
def rowBytes (t : GgmlTensor) : Nat := ggmlTypeSize t.type * (t.ne0 / ggmlBlckSize t.type)

/-- The tensor with the strides of a contiguous one. -/
def contiguous (t : GgmlTensor) : GgmlTensor :=
  { t with
    nb0 := ggmlTypeSize t.type
    nb1 := t.rowBytes
    nb2 := t.rowBytes * t.ne1
    nb3 := t.rowBytes * t.ne1 * t.ne2 }

theorem setStrides_eq_ok {t t' : GgmlTensor} (h1 : t.ne1 ≠ 0) (h2 : t.ne2 ≠ 0) :
    t.setStrides = .ok t' ↔ t.rowBytes * t.ne1 * t.ne2 < 2 ^ 64 ∧ t' = t.contiguous := by
  simp only [setStrides, Except.bind_eq_ok, sizeT_eq_ok, Except.pure_eq_ok]
  constructor
  · rintro ⟨_, ⟨-, rfl⟩, _, ⟨-, rfl⟩, _, ⟨h, rfl⟩, rfl⟩
    exact ⟨h, rfl⟩
  · rintro ⟨h, rfl⟩
    have hrow1 := Nat.le_mul_of_pos_right t.rowBytes (Nat.pos_of_ne_zero h1)
    have hrow2 := Nat.le_mul_of_pos_right (t.rowBytes * t.ne1) (Nat.pos_of_ne_zero h2)
    exact ⟨_, ⟨by change t.rowBytes < _; omega, rfl⟩, _,
      ⟨by change t.rowBytes * t.ne1 < _; omega, rfl⟩, _, ⟨h, rfl⟩, rfl⟩

theorem faults_setStrides {t : GgmlTensor} (h1 : t.ne1 ≠ 0) (h2 : t.ne2 ≠ 0) :
    Faults t.setStrides ↔ 2 ^ 64 ≤ t.rowBytes * t.ne1 * t.ne2 := by
  have hrow1 := Nat.le_mul_of_pos_right t.rowBytes (Nat.pos_of_ne_zero h1)
  have hrow2 := Nat.le_mul_of_pos_right (t.rowBytes * t.ne1) (Nat.pos_of_ne_zero h2)
  simp only [setStrides, Except.throws_bind, faults_sizeT, sizeT_eq_ok, Except.not_throws_pure,
    and_false, exists_false, or_false]
  change 2 ^ 64 ≤ t.rowBytes ∨ _ ↔ _
  constructor
  · rintro (h | ⟨_, ⟨-, rfl⟩, h | ⟨_, ⟨-, rfl⟩, h⟩⟩)
    · omega
    · exact h.trans hrow2
    · exact h
  · intro h
    by_cases hr : 2 ^ 64 ≤ t.rowBytes
    · exact .inl hr
    refine .inr ⟨t.rowBytes, ⟨not_le.1 hr, rfl⟩, ?_⟩
    by_cases hr1 : 2 ^ 64 ≤ t.rowBytes * t.ne1
    · exact .inl hr1
    · exact .inr ⟨t.rowBytes * t.ne1, ⟨not_le.1 hr1, rfl⟩, h⟩

end GgmlTensor

/-- A tensor info as a file has it. -/
structure GgufTensorEntry where
  name : List UInt8
  dims : List Nat
  type : GgmlType
  offset : Nat

/-- The name can be read, and is new. -/
structure NameFits (alloc : Nat → Bool) (names : List (List UInt8)) (name : List UInt8) : Prop where
  granted : Granted alloc name
  length_lt : name.length < ggmlMaxName
  not_mem : cString name ∉ names

namespace GgufTensorEntry

def tensor (e : GgufTensorEntry) : GgmlTensor :=
  { name := cString e.name, type := e.type
    ne0 := e.dims.getD 0 1, ne1 := e.dims.getD 1 1, ne2 := e.dims.getD 2 1, ne3 := e.dims.getD 3 1
    nb0 := 0, nb1 := 0, nb2 := 0, nb3 := 0, data := none }

def info (e : GgufTensorEntry) : GgufTensorInfo := { t := e.tensor.contiguous, offset := e.offset }

def bytes (e : GgufTensorEntry) : List UInt8 :=
  strBytes e.name ++ (shapeBytes e.dims ++ (toLE 4 e.type ++ toLE 8 e.offset))

/-- All of the tensor but the strides is in order. -/
structure ReadableShape (e : GgufTensorEntry) : Prop where
  dims : ReadableDims e.dims
  fit : ElementsFit e.tensor.ne0 e.tensor.ne1 e.tensor.ne2 e.tensor.ne3
  blck_ne : ggmlBlckSize e.type ≠ 0
  blck_dvd : ggmlBlckSize e.type ∣ e.tensor.ne0

structure Readable (alloc : Nat → Bool) (e : GgufTensorEntry) : Prop extends ReadableShape e where
  name : Granted alloc e.name
  name_lt : e.name.length < ggmlMaxName
  stride_lt : e.tensor.rowBytes * e.tensor.ne1 * e.tensor.ne2 < 2 ^ 64
  offset_lt : e.offset < 2 ^ 64

end GgufTensorEntry

section ReadTensor

variable {names : List (List UInt8)} {infos infos' : List GgufTensorInfo} {bs rest : List UInt8}

theorem readTensorName_eq_ok {name : List UInt8} :
    readTensorName alloc names bs = .ok (name, rest) ↔
      ∃ s, NameFits alloc names s ∧ name = cString s ∧ bs = strBytes s ++ rest := by
  simp only [readTensorName, Except.bind_eq_ok, Prod.exists, caught_eq_ok, readString_eq_ok]
  constructor
  · rintro ⟨s, bs, ⟨hs, rfl⟩, h⟩
    split_ifs at h with hlen hdup
    obtain ⟨rfl, rfl⟩ := by simpa [Except.pure_eq_ok] using h
    exact ⟨s, ⟨hs, not_le.1 hlen, hdup⟩, rfl, rfl⟩
  · rintro ⟨s, hs, rfl, rfl⟩
    refine ⟨s, rest, ⟨hs.granted, rfl⟩, ?_⟩
    rw [if_neg (not_le.2 hs.length_lt), if_neg hs.not_mem]
    rfl

theorem not_faults_readTensorName : ¬ Faults (readTensorName alloc names bs) := by
  simp only [readTensorName, Except.throws_bind, not_faults_caught_readString, false_or,
    Prod.exists, not_exists, not_and]
  intro s bs' _
  split_ifs <;> simp

theorem readTensorInfo_eq_ok :
    readTensorInfo alloc (infos, bs) = .ok (infos', rest) ↔ ∃ e : GgufTensorEntry,
      e.Readable alloc ∧ cString e.name ∉ infos.map (·.t.name) ∧ bs = e.bytes ++ rest ∧
        infos' = infos ++ [e.info] := by
  simp only [readTensorInfo, Except.bind_eq_ok, Prod.exists, readTensorName_eq_ok,
    readTensorShape_eq_ok, readTensorType_eq_ok, readUnsigned_eq_ok, Except.pure_eq_ok,
    Prod.mk.injEq]
  constructor
  · rintro ⟨_, _, ⟨s, hs, rfl, rfl⟩, ds, _, ⟨hds, hfit, rfl⟩, type, _, ⟨hb, hdvd, rfl⟩, t, ht,
      offset, _, ⟨hoff, rfl⟩, rfl, rfl⟩
    obtain ⟨hstride, rfl⟩ := (GgmlTensor.setStrides_eq_ok hfit.pos1 hfit.pos2).1 ht
    exact ⟨⟨s, ds, type, offset⟩,
      ⟨⟨hds, hfit, hb, hdvd⟩, hs.granted, hs.length_lt, hstride, hoff⟩, hs.not_mem,
      by simp [GgufTensorEntry.bytes], rfl⟩
  · rintro ⟨e, he, hdup, rfl, rfl⟩
    exact ⟨_, shapeBytes e.dims ++ (toLE 4 e.type ++ (toLE 8 e.offset ++ rest)),
      ⟨e.name, ⟨he.name, he.name_lt, hdup⟩, rfl, by simp [GgufTensorEntry.bytes]⟩, e.dims, _,
      ⟨he.dims, he.fit, rfl⟩, e.type, _, ⟨he.blck_ne, he.blck_dvd, rfl⟩, e.tensor.contiguous,
      (GgmlTensor.setStrides_eq_ok he.fit.pos1 he.fit.pos2).2 ⟨he.stride_lt, rfl⟩, e.offset, rest,
      ⟨he.offset_lt, rfl⟩, rfl, rfl⟩

/-- A zero dimension by which the check of the number of elements divides. -/
def ZeroDimension (alloc : Nat → Bool) (names : List (List UInt8)) (bs : List UInt8) : Prop :=
  ∃ name ds rest, NameFits alloc names name ∧ ReadableDims ds ∧
    DividesByZero (ds.getD 0 1) (ds.getD 1 1) (ds.getD 2 1) (ds.getD 3 1) ∧
    bs = strBytes name ++ (shapeBytes ds ++ rest)

/-- A tensor one of whose strides is not a `size_t`. -/
def OversizedStride (alloc : Nat → Bool) (names : List (List UInt8)) (bs : List UInt8) : Prop :=
  ∃ (e : GgufTensorEntry) (rest : List UInt8), NameFits alloc names e.name ∧ e.ReadableShape ∧
    2 ^ 64 ≤ e.tensor.rowBytes * e.tensor.ne1 * e.tensor.ne2 ∧
    bs = strBytes e.name ++ (shapeBytes e.dims ++ (toLE 4 e.type ++ rest))

theorem faults_readTensorInfo :
    Faults (readTensorInfo alloc (infos, bs)) ↔ ZeroDimension alloc (infos.map (·.t.name)) bs ∨
      OversizedStride alloc (infos.map (·.t.name)) bs := by
  simp only [readTensorInfo, Except.throws_bind, not_faults_readTensorName, false_or, Prod.exists,
    readTensorName_eq_ok, faults_readTensorShape, readTensorShape_eq_ok,
    not_faults_readTensorType, readTensorType_eq_ok, not_faults_readUnsigned,
    Except.not_throws_pure, and_false, exists_false, or_false]
  constructor
  · rintro ⟨_, _, ⟨s, hs, rfl, rfl⟩, ⟨ds, rest, hds, hz, rfl⟩ |
      ⟨ds, _, ⟨hds, hfit, rfl⟩, type, rest, ⟨hb, hdvd, rfl⟩, h⟩⟩
    · exact .inl ⟨s, ds, rest, hs, hds, hz, rfl⟩
    · exact .inr ⟨⟨s, ds, type, 0⟩, rest, hs, ⟨hds, hfit, hb, hdvd⟩,
        (GgmlTensor.faults_setStrides hfit.pos1 hfit.pos2).1 h, rfl⟩
  · rintro (⟨s, ds, rest, hs, hds, hz, rfl⟩ | ⟨e, rest, hs, he, h, rfl⟩)
    · exact ⟨_, _, ⟨s, hs, rfl, rfl⟩, .inl ⟨ds, rest, hds, hz, rfl⟩⟩
    · exact ⟨_, _, ⟨e.name, hs, rfl, rfl⟩, .inr ⟨e.dims, _, ⟨he.dims, he.fit, rfl⟩, e.type, rest,
        ⟨he.blck_ne, he.blck_dvd, rfl⟩,
        (GgmlTensor.faults_setStrides he.fit.pos1 he.fit.pos2).2 h⟩⟩

/-- The file goes on with the tensor infos `es`, of distinct names. -/
def TensorsAt (alloc : Nat → Bool) (es : List GgufTensorEntry) (bs rest : List UInt8) : Prop :=
  (∀ e ∈ es, e.Readable alloc) ∧ (es.map fun e => cString e.name).Nodup ∧
    bs = es.flatMap (·.bytes) ++ rest

theorem iterate_readTensorInfo_eq_ok : ∀ {n : Nat} {infos infos' : List GgufTensorInfo}
    {bs rest : List UInt8},
    Except.iterate (readTensorInfo alloc) n (infos, bs) = .ok (infos', rest) ↔
      ∃ es : List GgufTensorEntry, es.length = n ∧ TensorsAt alloc es bs rest ∧
        (∀ e ∈ es, cString e.name ∉ infos.map (·.t.name)) ∧ infos' = infos ++ es.map (·.info)
  | 0, infos, infos', bs, rest => by
    simp only [Except.iterate, Except.ok.injEq, Prod.mk.injEq, TensorsAt]
    constructor
    · rintro ⟨rfl, rfl⟩
      exact ⟨[], rfl, ⟨by simp, by simp, rfl⟩, by simp, by simp⟩
    · rintro ⟨es, hn, ⟨-, -, rfl⟩, -, rfl⟩
      obtain rfl := List.length_eq_zero_iff.1 hn
      simp
  | n + 1, infos, infos', bs, rest => by
    simp only [Except.iterate_succ_eq_ok, Prod.exists, readTensorInfo_eq_ok]
    constructor
    · rintro ⟨_, bs, ⟨e, he, hdup, rfl, rfl⟩, h⟩
      obtain ⟨es, rfl, ⟨hread, hnodup, rfl⟩, hnew, rfl⟩ := iterate_readTensorInfo_eq_ok.1 h
      refine ⟨e :: es, rfl, ⟨List.forall_mem_cons.2 ⟨he, hread⟩, ?_, by simp⟩, ?_, by simp⟩
      · rw [List.map_cons, List.nodup_cons]
        refine ⟨fun h => ?_, hnodup⟩
        obtain ⟨x, hx, hxe⟩ := List.mem_map.1 h
        exact hnew x hx
          (by simp [hxe, GgufTensorEntry.info, GgufTensorEntry.tensor, GgmlTensor.contiguous])
      · refine List.forall_mem_cons.2 ⟨hdup, fun x hx h => hnew x hx ?_⟩
        rw [List.map_append]
        exact List.mem_append_left _ h
    · rintro ⟨_ | ⟨e, es⟩, hn, ⟨hread, hnodup, rfl⟩, hnew, rfl⟩
      · cases hn
      obtain ⟨he, hread⟩ := List.forall_mem_cons.1 hread
      obtain ⟨hdup, hnew⟩ := List.forall_mem_cons.1 hnew
      rw [List.map_cons, List.nodup_cons] at hnodup
      refine ⟨infos ++ [e.info], es.flatMap (·.bytes) ++ rest, ⟨e, he, hdup, by simp, rfl⟩,
        iterate_readTensorInfo_eq_ok.2 ⟨es, by simpa using hn, ⟨hread, hnodup.2, rfl⟩, ?_,
          by simp⟩⟩
      intro x hx h
      rw [List.map_append, List.mem_append] at h
      rcases h with h | h
      · exact hnew x hx h
      · have hxe : cString x.name = cString e.name := by
          simpa [GgufTensorEntry.info, GgufTensorEntry.tensor, GgmlTensor.contiguous] using h
        exact hnodup.1 (List.mem_map.2 ⟨x, hx, hxe⟩)

theorem readTensorInfos_eq_ok {n : Nat} {infos : List GgufTensorInfo} :
    Except.iterate (readTensorInfo alloc) n ([], bs) = .ok (infos, rest) ↔
      ∃ es, es.length = n ∧ TensorsAt alloc es bs rest ∧ infos = es.map (·.info) := by
  simp [iterate_readTensorInfo_eq_ok]

end ReadTensor

end Tensors

section Sizes

theorem ggmlPad_eq_ok {x a y : Nat} (ha : a.isPowerOfTwo) :
    ggmlPad x a = .ok y ↔ x + a < 2 ^ 64 ∧ y = roundUp x a := by
  obtain ⟨k, rfl⟩ := ha
  simp only [ggmlPad, Except.bind_eq_ok, sizeT_eq_ok, Except.pure_eq_ok]
  have hmask : x + 2 ^ k < 2 ^ 64 → (x + 2 ^ k - 1) &&& (2 ^ 64 - 2 ^ k) = roundUp x (2 ^ k) := by
    intro h
    have hk : k < 64 := (Nat.pow_lt_pow_iff_right (by omega)).1 ((Nat.le_add_left ..).trans_lt h)
    exact Align.and_two_pow_sub (by omega) hk.le
  constructor
  · rintro ⟨_, ⟨h, rfl⟩, rfl⟩
    exact ⟨h, hmask h⟩
  · rintro ⟨h, rfl⟩
    exact ⟨_, ⟨h, rfl⟩, hmask h⟩

@[simp] theorem faults_ggmlPad {x a : Nat} : Faults (ggmlPad x a) ↔ 2 ^ 64 ≤ x + a := by
  simp [ggmlPad]

/-- A computation that does not return `nullptr` faults when it has no result. -/
theorem faults_iff {α : Type} {x : Except GgufStop α} (h : ¬ Except.Throws (· = .nullptr) x) :
    Faults x ↔ ¬ ∃ a, x = .ok a := by
  rcases x with e | a
  · simpa using h
  · simp

@[simp] theorem not_nullptr_sizeT {n : Nat} : ¬ Except.Throws (· = .nullptr) (sizeT n) := by
  unfold sizeT
  split_ifs <;> simp

@[simp] theorem not_nullptr_addSize {x y : Nat} :
    ¬ Except.Throws (· = .nullptr) (addSize x y) := by
  simp [addSize]

theorem sizeT_of_lt {n : Nat} (h : n < 2 ^ 64) : sizeT n = .ok n := if_pos h

theorem not_nullptr_ggmlNbytes {t : GgmlTensor} :
    ¬ Except.Throws (· = .nullptr) (ggmlNbytes t) := by
  unfold ggmlNbytes rowNbytes
  split_ifs <;> simp

theorem addSize_mul {r m : Nat} (hm : m ≠ 0) : addSize r ((m - 1) * r) = sizeT (r * m) := by
  obtain ⟨m, rfl⟩ := Nat.exists_eq_succ_of_ne_zero hm
  have hmul : r * (m + 1) = r + m * r := by ring
  rw [Nat.succ_eq_add_one, hmul, Nat.add_sub_cancel]
  unfold addSize sizeT
  by_cases h : m * r < 2 ^ 64
  · rw [if_pos h]
    rfl
  · rw [if_neg h, if_neg (by omega)]
    rfl

namespace GgmlTensor

/-- The true size of a tensor: its elements times the bytes of a block over its elements. -/
def byteSize (t : GgmlTensor) : Nat :=
  t.ne0 * t.ne1 * t.ne2 * t.ne3 * ggmlTypeSize t.type / ggmlBlckSize t.type

/-- Only the rows may be empty, and they are made of whole blocks. -/
structure WellShaped (t : GgmlTensor) : Prop where
  pos1 : t.ne1 ≠ 0
  pos2 : t.ne2 ≠ 0
  pos3 : t.ne3 ≠ 0
  blck_ne : ggmlBlckSize t.type ≠ 0
  blck_dvd : ggmlBlckSize t.type ∣ t.ne0

variable {t : GgmlTensor}

theorem WellShaped.rowBytes_eq (h : t.WellShaped) :
    t.ne0 * ggmlTypeSize t.type / ggmlBlckSize t.type = t.rowBytes := by
  rw [Nat.mul_comm, Nat.mul_div_assoc _ h.blck_dvd, rowBytes]

theorem WellShaped.byteSize_eq (h : t.WellShaped) :
    t.byteSize = t.rowBytes * t.ne1 * t.ne2 * t.ne3 := by
  obtain ⟨k, hk⟩ := h.blck_dvd
  have hpos := Nat.pos_of_ne_zero h.blck_ne
  unfold byteSize rowBytes
  rw [hk, Nat.mul_div_cancel_left _ hpos]
  have hmul : ggmlBlckSize t.type * k * t.ne1 * t.ne2 * t.ne3 * ggmlTypeSize t.type =
      ggmlBlckSize t.type * (ggmlTypeSize t.type * k * t.ne1 * t.ne2 * t.ne3) := by ring
  rw [hmul, Nat.mul_div_cancel_left _ hpos]

theorem WellShaped.rowNbytes_eq_ok (h : t.WellShaped) (h0 : t.ne0 ≠ 0) {n : Nat} :
    rowNbytes t.contiguous = .ok n ↔
      t.ne0 * ggmlTypeSize t.type < 2 ^ 64 ∧ t.rowBytes = n := by
  change (if ggmlBlckSize t.type = 1 then
      addSize (ggmlTypeSize t.type) ((t.ne0 - 1) * ggmlTypeSize t.type) else _) = _ ↔ _
  split_ifs with hb
  · rw [addSize_mul h0, sizeT_eq_ok, Nat.mul_comm, ← h.rowBytes_eq, hb, Nat.div_one]
  · rw [← h.rowBytes_eq]
    simp only [Except.bind_eq_ok, sizeT_eq_ok, Except.pure_eq_ok]
    constructor
    · rintro ⟨_, ⟨hlt, rfl⟩, hn⟩
      exact ⟨hlt, hn⟩
    · rintro ⟨hlt, hn⟩
      exact ⟨_, ⟨hlt, rfl⟩, hn⟩

theorem WellShaped.rows_le (h : t.WellShaped) :
    t.rowBytes * t.ne1 ≤ t.rowBytes * t.ne1 * t.ne2 ∧
      t.rowBytes * t.ne1 * t.ne2 ≤ t.byteSize := by
  rw [h.byteSize_eq]
  exact ⟨Nat.le_mul_of_pos_right _ (Nat.pos_of_ne_zero h.pos2),
    Nat.le_mul_of_pos_right _ (Nat.pos_of_ne_zero h.pos3)⟩

theorem WellShaped.ggmlNbytes_eq_ok (h : t.WellShaped) {n : Nat} :
    ggmlNbytes t.contiguous = .ok n ↔
      t.ne0 * ggmlTypeSize t.type < 2 ^ 64 ∧ t.byteSize < 2 ^ 64 ∧ t.byteSize = n := by
  by_cases h0 : t.ne0 = 0
  · have hzero : ggmlNbytes t.contiguous = .ok 0 := if_pos (.inl h0)
    simp [hzero, h0, byteSize]
  have hle := h.rows_le
  have hunfold : ggmlNbytes t.contiguous = (do
      let nbytes ← rowNbytes t.contiguous
      let nbytes ← addSize nbytes ((t.ne1 - 1) * t.rowBytes)
      let nbytes ← addSize nbytes ((t.ne2 - 1) * (t.rowBytes * t.ne1))
      addSize nbytes ((t.ne3 - 1) * (t.rowBytes * t.ne1 * t.ne2))) :=
    if_neg (by simp [contiguous, h0, h.pos1, h.pos2, h.pos3])
  simp only [hunfold, Except.bind_eq_ok, h.rowNbytes_eq_ok h0]
  constructor
  · rintro ⟨_, ⟨hrow, rfl⟩, _, h1, _, h2, h3⟩
    rw [addSize_mul h.pos1, sizeT_eq_ok] at h1
    obtain ⟨h1, rfl⟩ := h1
    rw [addSize_mul h.pos2, sizeT_eq_ok] at h2
    obtain ⟨h2, rfl⟩ := h2
    rw [addSize_mul h.pos3, sizeT_eq_ok, ← h.byteSize_eq] at h3
    exact ⟨hrow, h3⟩
  · rintro ⟨hrow, hlt, rfl⟩
    refine ⟨_, ⟨hrow, rfl⟩, t.rowBytes * t.ne1, ?_, t.rowBytes * t.ne1 * t.ne2, ?_, ?_⟩
    · rw [addSize_mul h.pos1, sizeT_eq_ok]
      exact ⟨by omega, rfl⟩
    · rw [addSize_mul h.pos2, sizeT_eq_ok]
      exact ⟨by omega, rfl⟩
    · rw [addSize_mul h.pos3, sizeT_eq_ok, ← h.byteSize_eq]
      exact ⟨hlt, rfl⟩

end GgmlTensor

theorem GgufTensorEntry.ReadableShape.wellShaped {e : GgufTensorEntry} (h : e.ReadableShape) :
    e.tensor.WellShaped := ⟨h.fit.pos1, h.fit.pos2, h.fit.pos3, h.blck_ne, h.blck_dvd⟩

/-- A tensor at `size` in the data section has its size, and the size up to its end, in a
`size_t`. -/
structure SizeFits (a size : Nat) (t : GgmlTensor) : Prop where
  row_lt : t.ne0 * ggmlTypeSize t.type < 2 ^ 64
  padded_lt : t.byteSize + a < 2 ^ 64
  end_lt : size + roundUp t.byteSize a < 2 ^ 64

/-- The tensors follow one another in the data section. -/
def Packed (a : Nat) : Nat → List GgufTensorInfo → Prop
  | _, [] => True
  | size, ti :: rest => ti.offset = size ∧ SizeFits a size ti.t ∧
      Packed a (size + roundUp ti.t.byteSize a) rest

/-- Where the tensors end that start at `size`. -/
def packedEnd (a size : Nat) (info : List GgufTensorInfo) : Nat :=
  info.foldl (fun s ti => s + roundUp ti.t.byteSize a) size

section Pack

variable {a size : Nat} {e : GgufTensorEntry}

theorem byteSize_info : e.info.t.byteSize = e.tensor.byteSize := rfl

theorem sizeFits_info : SizeFits a size e.info.t ↔ SizeFits a size e.tensor :=
  ⟨fun h => ⟨h.row_lt, h.padded_lt, h.end_lt⟩, fun h => ⟨h.row_lt, h.padded_lt, h.end_lt⟩⟩

theorem addTensorSize_eq_ok (ha : a.isPowerOfTwo) (he : e.ReadableShape) {n : Nat} :
    addTensorSize a size e.info = .ok n ↔ e.offset = size ∧ SizeFits a size e.tensor ∧
      size + roundUp e.tensor.byteSize a = n := by
  have hoff : e.info.offset = e.offset := rfl
  unfold addTensorSize
  rw [hoff]
  by_cases hs : e.offset = size
  · rw [if_neg (by simpa using hs)]
    change (do
      let nbytes ← ggmlNbytes e.tensor.contiguous
      let padded ← ggmlPad nbytes a
      sizeT (size + padded)) = .ok n ↔ _
    simp only [Except.bind_eq_ok, he.wellShaped.ggmlNbytes_eq_ok, ggmlPad_eq_ok ha, sizeT_eq_ok]
    constructor
    · rintro ⟨_, ⟨hrow, -, rfl⟩, _, ⟨hpad, rfl⟩, hend, rfl⟩
      exact ⟨hs, ⟨hrow, hpad, hend⟩, rfl⟩
    · rintro ⟨-, h, rfl⟩
      exact ⟨_, ⟨h.row_lt, (Nat.le_add_right ..).trans_lt h.padded_lt, rfl⟩, _,
        ⟨h.padded_lt, rfl⟩, h.end_lt, rfl⟩
  · rw [if_pos hs]
    simp [hs]

theorem faults_addTensorSize (ha : a.isPowerOfTwo) (he : e.ReadableShape) :
    Faults (addTensorSize a size e.info) ↔ e.offset = size ∧ ¬ SizeFits a size e.tensor := by
  by_cases hs : e.offset = size
  · rw [faults_iff]
    · simp [addTensorSize_eq_ok ha he, hs]
    · have hif : ¬ e.info.offset ≠ size := fun h => h hs
      simp [addTensorSize, hif, not_nullptr_ggmlNbytes, ggmlPad]
  · have hif : e.info.offset ≠ size := hs
    simp [addTensorSize, hif, hs]

theorem dataSize_eq_ok (ha : a.isPowerOfTwo) : ∀ {es : List GgufTensorEntry} {size n : Nat},
    (∀ e ∈ es, e.ReadableShape) →
      ((es.map (·.info)).foldlM (addTensorSize a) size = .ok n ↔
        Packed a size (es.map (·.info)) ∧ packedEnd a size (es.map (·.info)) = n)
  | [], size, n, _ => by
    simp [Packed, packedEnd, Except.pure_eq_ok]
  | e :: es, size, n, h => by
    obtain ⟨he, hes⟩ := List.forall_mem_cons.1 h
    rw [List.map_cons, List.foldlM_cons, Except.bind_eq_ok]
    simp only [addTensorSize_eq_ok ha he, Packed, packedEnd, List.foldl_cons, sizeFits_info,
      byteSize_info]
    constructor
    · rintro ⟨_, ⟨hs, hfit, rfl⟩, hrest⟩
      obtain ⟨hp, hn⟩ := (dataSize_eq_ok ha hes).1 hrest
      exact ⟨⟨hs, hfit, hp⟩, hn⟩
    · rintro ⟨⟨hs, hfit, hp⟩, hn⟩
      exact ⟨_, ⟨hs, hfit, rfl⟩, (dataSize_eq_ok ha hes).2 ⟨hp, hn⟩⟩

/-- A tensor that follows those before it, and whose size does not fit. -/
def OversizedTensor (a : Nat) (es : List GgufTensorEntry) : Prop :=
  ∃ l e r, es = l ++ e :: r ∧ Packed a 0 (l.map (·.info)) ∧
    e.offset = packedEnd a 0 (l.map (·.info)) ∧
    ¬ SizeFits a (packedEnd a 0 (l.map (·.info))) e.tensor

theorem faults_dataSize (ha : a.isPowerOfTwo) {es : List GgufTensorEntry}
    (h : ∀ e ∈ es, e.ReadableShape) :
    Faults (dataSize a (es.map (·.info))) ↔ OversizedTensor a es := by
  unfold Faults dataSize
  rw [Except.throws_foldlM]
  constructor
  · rintro ⟨l', c, r', b, hsplit, hl, hc⟩
    obtain ⟨l, er, rfl, rfl, her⟩ := List.map_eq_append_iff.1 hsplit
    obtain ⟨e, r, rfl, rfl, rfl⟩ := List.map_eq_cons_iff.1 her
    rw [List.forall_mem_append, List.forall_mem_cons] at h
    obtain ⟨hp, rfl⟩ := (dataSize_eq_ok ha h.1).1 hl
    obtain ⟨hoff, hfit⟩ := (faults_addTensorSize ha h.2.1).1 hc
    exact ⟨l, e, r, rfl, hp, hoff, hfit⟩
  · rintro ⟨l, e, r, rfl, hp, hoff, hfit⟩
    rw [List.forall_mem_append, List.forall_mem_cons] at h
    exact ⟨l.map (·.info), e.info, r.map (·.info), _, by simp,
      (dataSize_eq_ok ha h.1).2 ⟨hp, rfl⟩, (faults_addTensorSize ha h.2.1).2 ⟨hoff, hfit⟩⟩

variable {info : List GgufTensorInfo}

theorem le_packedEnd : ∀ {info : List GgufTensorInfo} {size : Nat}, size ≤ packedEnd a size info
  | [], _ => le_rfl
  | _ :: _, _ => (Nat.le_add_right ..).trans le_packedEnd

/-- Each tensor starts aligned, and ends before the next one and before the end. -/
theorem Packed.spec (ha : a.isPowerOfTwo) : ∀ {info : List GgufTensorInfo} {size : Nat}, a ∣ size →
    Packed a size info →
      (∀ ti ∈ info, size ≤ ti.offset ∧ a ∣ ti.offset ∧
        ti.offset + ti.t.byteSize ≤ packedEnd a size info) ∧
      info.Pairwise fun x y => x.offset + x.t.byteSize ≤ y.offset
  | [], size, _, _ => by simp
  | ti :: info, size, hdvd, ⟨hoff, _, hrest⟩ => by
    have hround := Align.le_roundUp (x := ti.t.byteSize) (Nat.pos_of_isPowerOfTwo ha)
    have hend : size + roundUp ti.t.byteSize a ≤ packedEnd a size (ti :: info) :=
      le_packedEnd
    obtain ⟨hmem, hpair⟩ := Packed.spec ha (hdvd.add Align.dvd_roundUp) hrest
    refine ⟨List.forall_mem_cons.2 ⟨⟨hoff.ge, hoff ▸ hdvd, by omega⟩, fun x hx => ?_⟩,
      List.pairwise_cons.2 ⟨fun x hx => ?_, hpair⟩⟩
    · obtain ⟨hle, hx⟩ := hmem x hx
      exact ⟨by omega, hx⟩
    · have hle := (hmem x hx).1
      omega

theorem packed_append : ∀ {l r : List GgufTensorInfo} {size : Nat},
    Packed a size (l ++ r) ↔ Packed a size l ∧ Packed a (packedEnd a size l) r
  | [], r, size => by simp [Packed, packedEnd]
  | ti :: l, r, size => by
    rw [List.cons_append, Packed, Packed, packed_append]
    tauto

end Pack

section Pool

variable {alloc : Nat → Bool} {memSize curEnd size n : Nat}

theorem isPowerOfTwo_ggmlMemAlign : ggmlMemAlign.isPowerOfTwo := ⟨4, rfl⟩

/-- The bytes of the pool that is asked for, before they are aligned. -/
def poolBytes (noAlloc : Bool) (n size : Nat) : Nat :=
  if noAlloc then n * ggmlTensorOverhead else (n + 1) * ggmlTensorOverhead + size

/-- The pool is not a `size_t`, or its memory is not granted. -/
def OversizedPool (alloc : Nat → Bool) (bytes : Nat) : Prop :=
  2 ^ 64 ≤ bytes + ggmlMemAlign ∨
    alloc (roundUp (if bytes = 0 then ggmlMemAlign else bytes) ggmlMemAlign) = false

theorem ggmlInit_eq_ok {bytes : Nat} : ggmlInit alloc bytes = .ok memSize ↔
    ¬ OversizedPool alloc bytes ∧
      roundUp (if bytes = 0 then ggmlMemAlign else bytes) ggmlMemAlign = memSize := by
  have hlt : (if bytes = 0 then ggmlMemAlign else bytes) + ggmlMemAlign < 2 ^ 64 ↔
      bytes + ggmlMemAlign < 2 ^ 64 := by
    split_ifs with h <;> simp [h, ggmlMemAlign]
  unfold ggmlInit OversizedPool
  generalize (if bytes = 0 then ggmlMemAlign else bytes) = m at hlt ⊢
  simp only [Except.bind_eq_ok, ggmlPad_eq_ok isPowerOfTwo_ggmlMemAlign, hlt, not_or, not_le]
  constructor
  · rintro ⟨_, ⟨h, rfl⟩, hok⟩
    split_ifs at hok with ha
    exact ⟨⟨h, by simpa using ha⟩, Except.pure_eq_ok.1 hok⟩
  · rintro ⟨⟨h, ha⟩, rfl⟩
    exact ⟨_, ⟨h, rfl⟩, by rw [if_pos (by simpa using ha)]; rfl⟩

theorem faults_ggmlInit {bytes : Nat} :
    Faults (ggmlInit alloc bytes) ↔ OversizedPool alloc bytes := by
  rw [faults_iff]
  · simp [ggmlInit_eq_ok]
  · simp only [ggmlInit, Except.throws_bind, ggmlPad, not_nullptr_sizeT, Except.not_throws_pure,
      and_false, exists_false, false_or, not_exists, not_and]
    intro y _
    split_ifs <;> simp

theorem ggmlNewObject_of_le (hlt : size + ggmlMemAlign < 2 ^ 64) (hmem : memSize < 2 ^ 64)
    (hle : curEnd + roundUp size ggmlMemAlign + ggmlObjectSize ≤ memSize) :
    ggmlNewObject memSize curEnd size =
      .ok (curEnd + roundUp size ggmlMemAlign + ggmlObjectSize) := by
  simp only [ggmlNewObject, Except.bind_eq_ok, ggmlPad_eq_ok isPowerOfTwo_ggmlMemAlign,
    sizeT_eq_ok]
  refine ⟨_, ⟨hlt, rfl⟩, _, ⟨by omega, rfl⟩, _, ⟨by omega, rfl⟩, ?_⟩
  rw [if_neg (not_lt.2 hle)]
  rfl

/-- The sizes computed for a tensor are those of `ggml_nbytes`, and are a `size_t`. -/
structure TensorFits (t : GgmlTensor) : Prop extends t.WellShaped where
  row_lt : t.ne0 * ggmlTypeSize t.type < 2 ^ 64
  byteSize_lt : t.byteSize < 2 ^ 64

variable {t : GgmlTensor}

theorem TensorFits.setStrides_contiguous (h : TensorFits t) :
    t.contiguous.setStrides = .ok t.contiguous := by
  have hle := h.rows_le
  have hlt := h.byteSize_lt
  exact (GgmlTensor.setStrides_eq_ok h.pos1 h.pos2).2
    ⟨by omega, rfl⟩

theorem ggmlNewTensor_of_le (h : TensorFits t) (noAlloc : Bool) (curEnd size : Nat)
    (hmem : memSize < 2 ^ 64)
    (hsize : size = ggmlTensorSize + if noAlloc then 0 else t.byteSize)
    (hlt : size + ggmlMemAlign < 2 ^ 64)
    (hle : curEnd + roundUp size ggmlMemAlign + ggmlObjectSize ≤ memSize) :
    ggmlNewTensor memSize noAlloc curEnd t.contiguous =
      .ok (curEnd + roundUp size ggmlMemAlign + ggmlObjectSize) := by
  have hrows := h.rows_le
  have hbytes := h.byteSize_lt
  have hrow : ggmlTypeSize t.type * t.ne0 / ggmlBlckSize t.type = t.rowBytes := by
    rw [Nat.mul_comm, h.rowBytes_eq]
  have hb := h.byteSize_eq
  change (do
    let rowSize ← sizeT (ggmlTypeSize t.type * t.ne0)
    let dataSize ← sizeT (rowSize / ggmlBlckSize t.type * t.ne1)
    let dataSize ← sizeT (dataSize * t.ne2)
    let dataSize ← sizeT (dataSize * t.ne3)
    let size ← sizeT (ggmlTensorSize + if noAlloc then 0 else dataSize)
    let objEnd ← ggmlNewObject memSize curEnd size
    let _ ← t.contiguous.setStrides
    pure objEnd) = _
  simp only [Except.bind_eq_ok, sizeT_eq_ok]
  refine ⟨_, ⟨by have := h.row_lt; rwa [Nat.mul_comm], rfl⟩, t.rowBytes * t.ne1,
    ⟨?_, by rw [hrow]⟩, _, ⟨?_, rfl⟩, t.byteSize, ⟨?_, hb.symm⟩, size, ⟨?_, hsize.symm⟩, _,
    ggmlNewObject_of_le hlt hmem hle, _, h.setStrides_contiguous, rfl⟩
  · rw [hrow]
    omega
  · omega
  · omega
  · omega

theorem roundUp_ggmlTensorSize_add {x : Nat} :
    roundUp (ggmlTensorSize + x) ggmlMemAlign = ggmlTensorSize + roundUp x ggmlMemAlign :=
  Align.roundUp_add_of_dvd (by decide) (by decide)

theorem foldlM_ggmlNewTensor (hmem : memSize < 2 ^ 64) :
    ∀ {es : List GgufTensorEntry} {curEnd : Nat}, (∀ e ∈ es, TensorFits e.tensor) →
      curEnd + es.length * ggmlTensorOverhead ≤ memSize → ∃ objEnd,
        (es.map (·.info)).foldlM (fun c ti => ggmlNewTensor memSize true c ti.t) curEnd = .ok objEnd
  | [], curEnd, _, _ => ⟨curEnd, rfl⟩
  | e :: es, curEnd, h, hle => by
    obtain ⟨he, hes⟩ := List.forall_mem_cons.1 h
    have hpad : roundUp ggmlTensorSize ggmlMemAlign = ggmlTensorSize := by decide
    have hover : ggmlTensorOverhead = ggmlObjectSize + ggmlTensorSize := rfl
    rw [List.length_cons, Nat.add_mul, Nat.one_mul] at hle
    have hnew : ggmlNewTensor memSize true curEnd e.info.t =
        .ok (curEnd + ggmlTensorSize + ggmlObjectSize) := by
      have := ggmlNewTensor_of_le he true curEnd ggmlTensorSize hmem rfl (by decide)
        (by rw [hpad]; omega)
      rwa [hpad] at this
    have hle' : curEnd + ggmlTensorSize + ggmlObjectSize + es.length * ggmlTensorOverhead ≤
        memSize := by omega
    obtain ⟨objEnd, hrest⟩ := foldlM_ggmlNewTensor hmem hes hle'
    refine ⟨objEnd, ?_⟩
    rw [List.map_cons, List.foldlM_cons, hnew]
    exact hrest

theorem poolSize_bounds {bytes : Nat} (h : ¬ OversizedPool alloc bytes)
    (hinit : ggmlInit alloc bytes = .ok memSize) :
    roundUp bytes ggmlMemAlign ≤ memSize ∧ memSize < 2 ^ 64 := by
  obtain ⟨-, rfl⟩ := ggmlInit_eq_ok.1 hinit
  have hlt : bytes + ggmlMemAlign < 2 ^ 64 := not_le.1 fun hle => h (.inl hle)
  split_ifs with h0
  · subst h0
    decide
  · exact ⟨le_rfl, (Align.roundUp_lt (by decide)).trans hlt⟩

/-- What loading the blob does when the pool is granted: it leaves room for the tensors. -/
theorem loadBlob_eq (bs : List UInt8) (hmem : memSize < 2 ^ 64)
    (hle : roundUp ((n + 1) * ggmlTensorOverhead + size) ggmlMemAlign ≤ memSize) :
    ∃ curEnd, curEnd + n * ggmlTensorOverhead ≤ memSize ∧
      loadBlob memSize size bs = (fun r => (r.1, curEnd)) <$> readBytes size bs := by
  have hpad : roundUp ((n + 1) * ggmlTensorOverhead + size) ggmlMemAlign =
      (n + 1) * ggmlTensorOverhead + roundUp size ggmlMemAlign :=
    Align.roundUp_add_of_dvd (by decide) (.mul_left (by decide) _)
  have hover : ggmlTensorOverhead = ggmlObjectSize + ggmlTensorSize := rfl
  have hround : size ≤ roundUp size ggmlMemAlign := Align.le_roundUp (by decide)
  have hlast := roundUp_ggmlTensorSize_add (x := size)
  rw [hpad, Nat.add_mul, Nat.one_mul] at hle
  have hsizes : ggmlMemAlign = 16 ∧ ggmlTensorSize = 336 ∧ ggmlObjectSize = 32 := ⟨rfl, rfl, rfl⟩
  have hblck : ggmlBlckSize (blobTensor size).type = 1 := rfl
  have htype : ggmlTypeSize (blobTensor size).type = 1 := rfl
  have hne : (blobTensor size).ne0 = size := rfl
  have hb : (blobTensor size).byteSize = size := by
    simp [GgmlTensor.byteSize, blobTensor, ggmlTypeSize, ggmlBlckSize, ggmlTypeTraits]
  have hfits : TensorFits (blobTensor size) :=
    ⟨⟨by simp [blobTensor], by simp [blobTensor], by simp [blobTensor], by simp [hblck],
      by simp [hblck]⟩, by rw [htype, hne]; omega, by rw [hb]; omega⟩
  have hnew : ggmlNewTensor memSize false 0 (blobTensor size).contiguous =
      .ok (0 + roundUp (ggmlTensorSize + size) ggmlMemAlign + ggmlObjectSize) :=
    ggmlNewTensor_of_le hfits false 0 _ hmem (by rw [hb]; rfl) (by omega) (by omega)
  refine ⟨0 + roundUp (ggmlTensorSize + size) ggmlMemAlign + ggmlObjectSize, by omega, ?_⟩
  change (do
    let curEnd ← ggmlNewTensor memSize false 0 (blobTensor size).contiguous
    let r ← readBytes size bs
    pure (r.1, curEnd)) = _
  rw [hnew, Except.ok_bind_eq]
  rcases readBytes size bs with e | r <;> rfl

/-- What loading the tensors does when the pool is granted. -/
theorem loadTensors_eq {params : GgufInitParams} {es : List GgufTensorEntry} {bs : List UInt8}
    (h : ∀ e ∈ es, TensorFits e.tensor)
    (hpool : ¬ OversizedPool alloc (poolBytes params.noAlloc es.length size)) :
    loadTensors alloc params (es.map (·.info)) size bs =
      if params.noAlloc then .ok none
      else (fun r => some r.1) <$> readBytes size bs := by
  have hinit := ggmlInit_eq_ok.2 ⟨hpool, rfl⟩
  obtain ⟨hle, hmem⟩ := poolSize_bounds hpool hinit
  have hlt : poolBytes params.noAlloc es.length size + ggmlMemAlign < 2 ^ 64 :=
    not_le.1 fun hle => hpool (.inl hle)
  revert hinit hle hmem
  generalize roundUp (if poolBytes params.noAlloc es.length size = 0 then ggmlMemAlign
    else poolBytes params.noAlloc es.length size) ggmlMemAlign = memSize
  intro hinit hle hmem
  unfold poolBytes at hinit hle hlt
  unfold loadTensors
  have hsizes : ggmlMemAlign = 16 ∧ ggmlTensorOverhead = 368 := ⟨rfl, rfl⟩
  split_ifs at hinit hle hlt ⊢ with hno
  · have hroom := (Align.le_roundUp (by decide)).trans hle
    have hroom' : 0 + es.length * ggmlTensorOverhead ≤ memSize := by omega
    obtain ⟨objEnd, hobj⟩ := foldlM_ggmlNewTensor hmem h hroom'
    rw [List.length_map, sizeT_of_lt (by omega), Except.ok_bind_eq, hinit, Except.ok_bind_eq, hobj]
    rfl
  · obtain ⟨curEnd, hroom, hblob⟩ := loadBlob_eq bs hmem hle
    obtain ⟨objEnd, hobj⟩ := foldlM_ggmlNewTensor hmem h hroom
    rw [List.length_map, sizeT_of_lt (by omega), Except.ok_bind_eq, sizeT_of_lt (by omega),
      Except.ok_bind_eq, hinit, Except.ok_bind_eq, hblob]
    rcases readBytes size bs with e | r
    · rfl
    · simp [Functor.map, Except.map, Except.ok_bind_eq, hobj]

theorem faults_loadTensors {params : GgufInitParams} {es : List GgufTensorEntry} {bs : List UInt8}
    (h : ∀ e ∈ es, TensorFits e.tensor) :
    Faults (loadTensors alloc params (es.map (·.info)) size bs) ↔
      OversizedPool alloc (poolBytes params.noAlloc es.length size) := by
  constructor
  · intro hf
    by_contra hpool
    rw [loadTensors_eq h hpool] at hf
    split_ifs at hf <;> simp at hf
  · intro hpool
    unfold loadTensors
    unfold poolBytes at hpool
    split_ifs at hpool ⊢ with hno
    · simp only [Except.throws_bind, faults_sizeT, sizeT_eq_ok, List.length_map, faults_ggmlInit]
      by_cases hlt : es.length * ggmlTensorOverhead < 2 ^ 64
      · exact .inr ⟨_, ⟨hlt, rfl⟩, .inl hpool⟩
      · exact .inl (not_lt.1 hlt)
    · simp only [Except.throws_bind, faults_sizeT, sizeT_eq_ok, List.length_map, faults_ggmlInit]
      by_cases hlt : (es.length + 1) * ggmlTensorOverhead < 2 ^ 64
      · refine .inr ⟨_, ⟨hlt, rfl⟩, ?_⟩
        by_cases hlt' : (es.length + 1) * ggmlTensorOverhead + size < 2 ^ 64
        · exact .inr ⟨_, ⟨hlt', rfl⟩, .inl hpool⟩
        · exact .inl (not_lt.1 hlt')
      · exact .inl (not_lt.1 hlt)

end Pool

end Sizes

end LamaServer
